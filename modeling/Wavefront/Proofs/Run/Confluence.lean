/-
Confluence of a wave: nodes that leave each other alone may have their turns in any order.

Every node of the wave has a job: a value that it will write at its target and return, or none if
its schema refuses the context, as long as it reads contexts of one kind. No write of one node stops
the write of another or changes what another reads, or whether it accepts what it reads. Then the
context is at every point what the nodes that have written by then make of it, in the order in which
they did, and that order does not matter. A node that has not written by its end refused a context
of that kind, or else it was cancelled, ran out of time, or was aborted by the host, and its entry
says so.
-/
import Mathlib.Data.List.Perm.Subperm
import Wavefront.Proofs.Run.Log
import Wavefront.Proofs.Run.Yield
import Wavefront.Proofs.Value.Write

set_option autoImplicit false

namespace Wavefront

/-! ## Jobs -/

/-- A node with what it will come to, and the contexts that let it do so. The value is what the node
will write and return; a node whose schema refuses these contexts has none. -/
structure Job where
  node : Node
  value? : Option Value
  reads : Value → Prop

/-- The node accepts the context: its schema allows it, or it has none. -/
def Node.accepts [Schema.Validator] (n : Node) (context : Value) : Bool :=
  (requireContext n.id n.policy.inputSchema context).isOk

namespace Job

/-- What the node writes, and where, if it writes anything. -/
def write? (j : Job) : Option (String × Value) := j.value?.map fun v => (j.node.task.target, v)

/-- What the nodes write, in their order. -/
def writes (jobs : List Job) : List (String × Value) := jobs.filterMap write?

theorem write?_of_value? {j : Job} {v : Value} (h : j.value? = some v) :
    j.write? = some (j.node.task.target, v) := by
  rw [write?, h, Option.map_some]

theorem mem_writes {jobs : List Job} {p : String × Value} :
    p ∈ writes jobs ↔ ∃ j ∈ jobs, j.write? = some p := List.mem_filterMap

/-- Jobs with different places in a list write different things. -/
theorem index_unique {jobs : List Job} (hnodup : (writes jobs).Nodup) {i k : Nat} {j l : Job}
    (hj : jobs[i]? = some j) (hl : jobs[k]? = some l) {p : String × Value} (hp : j.write? = some p)
    (hp' : l.write? = some p) : i = k := by
  obtain ⟨hi, rfl⟩ := List.getElem?_eq_some_iff.1 hj
  obtain ⟨hk, rfl⟩ := List.getElem?_eq_some_iff.1 hl
  have hpairs := List.pairwise_iff_getElem.1 (List.pairwise_filterMap.1 hnodup)
  -- of two places one comes first, and what is written there is not written again
  rcases Nat.lt_trichotomy i k with hlt | heq | hlt
  · exact absurd rfl (hpairs i k hi hk hlt p hp p hp')
  · exact heq
  · exact absurd rfl (hpairs k i hk hi hlt p hp' p hp)

/-- Each attempt of the node writes and returns the value, if the contexts that it reads let it; a
node without a value accepts none of them. -/
def Works [Schema.Validator] (j : Job) (s : Settings) : Prop :=
  match j.value? with
  | some v => (j.node.task.work s j.node.id).run.Yields j.reads j.node.task.target v
  | none => ∀ context, j.reads context → j.node.accepts context = false

/-- A job that has a value works if the task of its node yields that value at its target. -/
theorem works_iff_of_value? [Schema.Validator] {j : Job} {v : Value} (h : j.value? = some v)
    (s : Settings) :
    j.Works s ↔ (j.node.task.work s j.node.id).run.Yields j.reads j.node.task.target v := by
  rw [Works, h]

theorem works_iff_of_refuses [Schema.Validator] {j : Job} (h : j.value? = none) (s : Settings) :
    j.Works s ↔ ∀ context, j.reads context → j.node.accepts context = false := by
  rw [Works, h]

/-- The nodes leave each other alone, from a context on: each can write what it will, and no write
changes what another node reads. -/
structure Independent (c : Value) (jobs : List Job) : Prop where
  settable : c.Settable (writes jobs)
  reads : ∀ j ∈ jobs, j.reads c
  keep : ∀ j ∈ jobs, ∀ p ∈ writes jobs, j.write? ≠ some p → ∀ d : Value,
    (d.set p.1 p.2).fault = none → j.reads d → j.reads (d.set p.1 p.2).tree

/-- Whatever other nodes have written, a node can write and reads what it will. -/
theorem Independent.setAll {c : Value} {jobs : List Job} (h : Independent c jobs) {j : Job}
    (hj : j ∈ jobs) {done : List (String × Value)} (hnodup : done.Nodup) (hsub : done ⊆ writes jobs)
    (hnew : ∀ p, j.write? = some p → p ∉ done) :
    j.reads (c.setAll done) ∧
      ∀ p, j.write? = some p → ((c.setAll done).set p.1 p.2).fault = none := by
  refine ⟨?_, fun p hp => h.settable.fault_setAll (mem_writes.2 ⟨j, hj, hp⟩) hnodup hsub (hnew p hp)⟩
  refine (h.settable.subset hnodup hsub).setAll_induction (h.reads j hj) fun p hp d hd => ?_
  exact h.keep j hj p (hsub hp) (fun heq => hnew p heq hp) d hd

end Job

/-! ## Why a node has not written -/

/-- The node has not come to what it would have come to: by its entry, the run was cancelled, its
time was over, or the host panicked. -/
inductive Entry.Interrupted (observer : Observer) (n : Node) (e : Entry) : Prop
  | cancelled (h : e.status = .cancelled)
  | timedOut {ms : Nat} (h : e.status = .failed)
      (herror : e.error = some (Error.timeout n.id ms).message)
  | aborted {notice : Notice} {message : String} (h : e.status = .failed)
      (hnotice : observer notice = some message) (herror : e.error = some (panicMessage message))

/-- A node that was interrupted was cancelled or has failed. -/
theorem Entry.Interrupted.status {observer : Observer} {n : Node} {e : Entry}
    (h : e.Interrupted observer n) : e.status = .cancelled ∨ e.status = .failed := by
  cases h with
  | cancelled h => exact .inl h
  | timedOut h _ => exact .inr h
  | aborted h _ _ => exact .inr h

/-- The entry says that the node refused the context: it failed with the error of the schema, and
without an output. -/
structure Entry.Refuses [Schema.Validator] (n : Node) (context : Value) (e : Entry) : Prop where
  status : e.status = .failed
  error : ∃ error, requireContext n.id n.policy.inputSchema context = .error error ∧
    e.error = some error.message
  output : e.output = none

/-- A node does not refuse what it accepts. -/
theorem Entry.Refuses.accepts_eq_false [Schema.Validator] {n : Node} {context : Value} {e : Entry}
    (h : e.Refuses n context) : n.accepts context = false := by
  obtain ⟨error, herror, -⟩ := h.error
  rw [Node.accepts, herror]
  rfl

/-- If the course was aborted, the host panicked. -/
def Ending.ByHost (observer : Observer) : Ending → Prop
  | .aborted text => ∃ notice message, observer notice = some message ∧ text = panicMessage message
  | .passed | .failed _ => True

variable [Schema.Validator]

/-- By its entry, the node of the job was interrupted, or refused one of the contexts that the job
reads. -/
inductive Entry.Misses (observer : Observer) (j : Job) (e : Entry) : Prop
  | interrupted (h : e.Interrupted observer j.node)
  | refused {context : Value} (hreads : j.reads context) (h : e.Refuses j.node context)

/-- A node that misses its write was cancelled or has failed. -/
theorem Entry.Misses.status {observer : Observer} {j : Job} {e : Entry} (h : e.Misses observer j) :
    e.status = .cancelled ∨ e.status = .failed := by
  cases h with
  | interrupted h => exact h.status
  | refused _ h => exact .inr h.status

/-! ## Courses -/

namespace Course

/-- The course has written the value, and will succeed with it. -/
def Behind (observer : Observer) (v : Value) : Course → Prop
  | ended ending => ending.ByHost observer
  | notify _ next => next.Behind observer v
  | attempt _ work next => work = .done (.ok v) ∧ (next (some (.ok v))).Behind observer v
  | settle _ change next =>
      (∀ now e, (change now e).status = .success ∧ (change now e).output = some v) ∧
        next.Behind observer v
  | _ => False

/-- The course has not written. It will write the value of its job, or its entry will tell why
not. -/
def Ahead (observer : Observer) (j : Job) : Course → Prop
  | ended ending => ending.ByHost observer
  | permit next => next.Ahead observer j
  | begin entry next =>
      (∀ now, (entry now).status = .running ∧ (entry now).output = none) ∧
        ∀ index, (next index).Ahead observer j
  | notify _ next => next.Ahead observer j
  | ask next => ∀ cancelled, (next cancelled).Ahead observer j
  | inspect next => ∀ context, j.reads context → (next context).Ahead observer j
  | attempt _ work next => ∃ v, j.value? = some v ∧ work.Yields j.reads j.node.task.target v ∧
      (next (some (.ok v))).Behind observer v ∧ (next none).Ahead observer j
  | settle _ change next =>
      (∀ now e, e.output = none → (change now e).Misses observer j) ∧ next.Ahead observer j
  | pause _ next => next.Ahead observer j
  | paused next => next.Ahead observer j

variable {observer : Observer} {j : Job} {v : Value}

omit [Schema.Validator] in
theorem behind_succeed (n : Node) (index retry : Nat) (v : Value) :
    (succeed n index retry v).Behind observer v :=
  ⟨fun _ _ => ⟨rfl, rfl⟩, trivial⟩

/-- Whichever attempt is the next one, a working node has its write ahead of it. -/
theorem ahead_attempts {s : Settings} (h : j.Works s) (index left retry : Nat) :
    (attempts s j.node index left retry).Ahead observer j := by
  -- what comes behind a look at the context only matters for contexts that the job reads
  refine attempts_induction_of_results
    (Q := fun context c => j.reads context → c.Ahead observer j)
    (fun retry => ?_) (fun _ _ hnext => hnext) (fun _ hnext => hnext) (fun _ hnext => hnext)
    (fun retry context e _ herror hnext hreads => hnext ?_)
    (fun retry context next hcontext hok _ hnone hreads => ?_) left retry
  · exact ⟨fun _ _ _ => .interrupted (.cancelled rfl), trivial⟩
  · exact ⟨fun _ _ houtput => .refused hreads ⟨rfl, ⟨e, herror, rfl⟩, houtput⟩, trivial⟩
  · cases hvalue : j.value? with
    | some v =>
      rw [Job.works_iff_of_value? hvalue] at h
      refine ⟨v, hvalue, h, hok v ▸ behind_succeed j.node index retry v, hnone ?_⟩
      exact ⟨fun _ _ _ => .interrupted (.timedOut rfl rfl), trivial⟩
    | none =>
      -- a node without a value does not come to an attempt
      have hrefuses := (Job.works_iff_of_refuses hvalue s).1 h context hreads
      rw [Node.accepts, hcontext] at hrefuses
      cases hrefuses

theorem ahead_ofNode {s : Settings} (h : j.Works s) : (ofNode s j.node).Ahead observer j :=
  ⟨fun _ => ⟨rfl, rfl⟩, fun index => ahead_attempts h index _ _⟩

/-- A course behind its write changes the context no more. -/
theorem behind_turn {c : Course} {course busy : Nat} {w : World} {timers : List Timer}
    {t : Turn Course} (h : c.Behind observer v)
    (ht : c.turn observer course busy w timers = some t) :
    t.next.Behind observer v ∧ t.world.context = w.context := by
  cases turns_of_turn ht with
  | tells notice next => exact ⟨h, rfl⟩
  | @upsets notice next message hnotice => exact ⟨⟨notice, message, hnotice, rfl⟩, rfl⟩
  | attempts _ =>
    obtain ⟨rfl, hnext⟩ := h
    obtain rfl := Option.some.inj ht
    exact ⟨hnext, rfl⟩
  | settles index change next => exact ⟨h.2, rfl⟩
  | _ => exact h.elim

/-- The course has just written the value of its job. -/
def Writes (observer : Observer) (j : Job) (before : Value) (c : Course) (after : Value) : Prop :=
  ∃ v, j.value? = some v ∧ c.Behind observer v ∧ after = (before.set j.node.task.target v).tree

/-- A turn of an attempt that has not written leaves the context alone, or it is the one that
writes. -/
theorem ahead_limit_turn {limit : Limit} {work : Work (Except Error Value)}
    {next : Option (Except Error Value) → Course} {course busy : Nat} {w : World}
    {timers : List Timer} {t : Turn Course} (h : (attempt limit work next).Ahead observer j)
    (hreads : j.reads w.context) (hfault : ∀ p, j.write? = some p → (w.context.set p.1 p.2).fault = none)
    (ht : limit.turn work next course busy w timers = some t) :
    (t.next.Ahead observer j ∧ t.world.context = w.context) ∨
      t.next.Writes observer j w.context t.world.context := by
  obtain ⟨v, hvalue, hwork, hok, hnone⟩ := h
  have hset := hfault _ (Job.write?_of_value? hvalue)
  cases Limit.does_of_turn ht with
  | ends r => exact hwork.elim
  -- the work reads on, or this is the turn that writes its value
  | works hturn =>
    rcases Work.yields_turn hwork hreads hturn with ⟨_, hon, hyields, hcontext⟩ | ⟨hcontext, hon⟩
    · obtain rfl := Advance.on.inj hon
      exact .inl ⟨⟨v, hvalue, hyields, hok, hnone⟩, hcontext⟩
    · obtain rfl := Advance.on.inj (hon hset)
      exact .inr ⟨v, hvalue, ⟨rfl, hok⟩, hcontext⟩
  | panics hturn =>
    rcases Work.yields_turn hwork hreads hturn with ⟨_, hon, _⟩ | ⟨_, hon⟩
    · cases hon
    · cases hon hset
  | limits _ _ => exact .inl ⟨⟨v, hvalue, hwork, hok, hnone⟩, rfl⟩
  | stops _ => exact .inl ⟨hnone, rfl⟩

/-- A turn of a course that has not written leaves the context alone, or it is the one that
writes. -/
theorem ahead_turn {c : Course} {course busy : Nat} {w : World} {timers : List Timer}
    {t : Turn Course} (h : c.Ahead observer j) (hreads : j.reads w.context)
    (hfault : ∀ p, j.write? = some p → (w.context.set p.1 p.2).fault = none)
    (ht : c.turn observer course busy w timers = some t) :
    (t.next.Ahead observer j ∧ t.world.context = w.context) ∨
      t.next.Writes observer j w.context t.world.context := by
  cases turns_of_turn ht with
  | attempts _ => exact ahead_limit_turn h hreads hfault ht
  | tells notice next => exact .inl ⟨h, rfl⟩
  -- a panic of the observer stops the node before it has written: its end is by the host
  | @upsets notice next message hnotice => exact .inl ⟨⟨notice, message, hnotice, rfl⟩, rfl⟩
  | begin entry next => exact .inl ⟨h.2 _, rfl⟩
  | asks next => exact .inl ⟨h _, rfl⟩
  | inspects next => exact .inl ⟨h _ hreads, rfl⟩
  | settles index change next => exact .inl ⟨h.2, rfl⟩
  | skips next => exact .inl ⟨h, rfl⟩
  | pauses ms due next => exact .inl ⟨h, rfl⟩

/-- Waking a course writes nothing: the write is still ahead. -/
theorem ahead_wake {c : Course} (h : c.Ahead observer j) (purpose : Purpose) :
    (c.wake purpose).Ahead observer j := by
  unfold wake
  split
  · exact h
  · exact h
  · obtain ⟨v, hvalue, ⟨vs, hgives, hyields⟩, hnext⟩ := h
    exact ⟨v, hvalue, ⟨vs, hgives.wake _, hyields⟩, hnext⟩
  · exact h

omit [Schema.Validator] in
/-- Waking a course takes no write back. -/
theorem behind_wake {c : Course} (h : c.Behind observer v) (purpose : Purpose) :
    (c.wake purpose).Behind observer v := by
  unfold wake
  split
  · exact h.elim
  · exact h
  · exact nomatch h.1
  · exact h

/-- How far the course of a job has come, when some values have been written. -/
inductive Pursues (observer : Observer) (j : Job) (done : List (String × Value)) (c : Course) : Prop
  | ahead (hnew : ∀ p, j.write? = some p → p ∉ done) (h : c.Ahead observer j)
  | behind {v : Value} (hvalue : j.value? = some v) (hdone : (j.node.task.target, v) ∈ done)
      (h : c.Behind observer v)

end Course

/-! ## Entries -/

/-- The entry of a node shows how far the node has come, when some values have been written. -/
inductive Entry.Shows (observer : Observer) (j : Job) (done : List (String × Value)) (e : Entry) :
    Prop
  | running (h : e.status = .running) (houtput : e.output = none)
  | success {v : Value} (hvalue : j.value? = some v) (hdone : (j.node.task.target, v) ∈ done)
      (h : e.status = .success) (houtput : e.output = some v)
  | misses (h : e.Misses observer j)

namespace Entry.Shows

variable {observer : Observer} {j : Job} {done done' : List (String × Value)} {e : Entry}

/-- What an entry shows of the writes done it shows of more of them. -/
theorem mono (h : e.Shows observer j done) (hsub : done ⊆ done') : e.Shows observer j done' := by
  cases h with
  | running h houtput => exact .running h houtput
  | success hvalue hdone h houtput => exact .success hvalue (hsub hdone) h houtput
  | misses h => exact .misses h

/-- As long as the node is at work, its entry has no output. -/
theorem output_of_running (h : e.Shows observer j done) (hrunning : e.status = .running) :
    e.output = none := by
  cases h with
  | running _ houtput => exact houtput
  | success _ _ h _ => exact nomatch hrunning.symm.trans h
  | misses h =>
    rcases h.status with h | h
    · exact nomatch hrunning.symm.trans h
    · exact nomatch hrunning.symm.trans h

end Entry.Shows

omit [Schema.Validator] in
/-- What is in a list of which one member has been changed was there before, or is that member. -/
theorem mem_or_of_mem_modify {α : Type} {f : α → α} {l : List α} {i : Nat} {a : α}
    (ha : a ∈ l.modify i f) : a ∈ l ∨ ∃ b, l[i]? = some b ∧ a = f b := by
  obtain ⟨k, hk⟩ := List.mem_iff_getElem?.1 ha
  rw [List.getElem?_modify] at hk
  obtain ⟨b, hb, rfl⟩ := Option.map_eq_some_iff.1 hk
  split
  · rename_i heq
    exact .inr ⟨b, heq ▸ hb, rfl⟩
  · exact .inl (List.mem_of_getElem? hb)

/-- What a turn makes of an entry shows how far the node has come. -/
theorem Course.shows_turn {c : Course} {observer : Observer} {j : Job}
    {done : List (String × Value)} {course busy : Nat} {w : World} {timers : List Timer}
    {t : Turn Course} (h : c.Pursues observer j done)
    (hlogs : c.Logs observer j.node.id w.trace.entries)
    (hshown : ∀ e ∈ w.trace.entries, e.nodeId = j.node.id → e.Shows observer j done)
    (ht : c.turn observer course busy w timers = some t) {e : Entry}
    (he : e ∈ t.world.trace.entries) : e ∈ w.trace.entries ∨ e.Shows observer j done := by
  cases turns_of_turn ht with
  | begin entry next =>
    rcases List.mem_append.1 he with he | he
    · exact .inl he
    · obtain rfl := List.mem_singleton.1 he
      cases h with
      | ahead _ h => exact .inr (.running (h.1 _).1 (h.1 _).2)
      | behind _ _ h => exact h.elim
  | settles index change next =>
    rcases mem_or_of_mem_modify he with he | ⟨b, hb, rfl⟩
    · exact .inl he
    · cases h with
      | ahead _ h =>
        -- the entry that is settled is the one of the node, which was running
        obtain ⟨d, hd, hid, hrunning⟩ := hlogs.of_settle
        obtain rfl := Option.some.inj (hd.symm.trans hb)
        have houtput := (hshown d (List.mem_of_getElem? hd) hid).output_of_running hrunning
        exact .inr (.misses (h.1 _ d houtput))
      | behind hvalue hdone h => exact .inr (.success hvalue hdone (h.1 _ _).1 (h.1 _ _).2)
  | attempts hturn =>
    cases hturn with
    | ends _ htrace => exact .inl (htrace ▸ he)
    | panics _ htrace => exact .inl (htrace ▸ he)
    | works _ htrace _ => exact .inl (htrace ▸ he)
    | limits _ => exact .inl he
  | _ => exact .inl he

/-! ## Waves -/

namespace Wave

omit [Schema.Validator] in
/-- Taking note of an ending interrupts nodes only if the host panicked. -/
theorem interrupted_of_mem_record {observer : Observer} {w : Wave} {i : Nat} {ending : Ending}
    (h : ending.ByHost observer) (n : Node) {e : Entry} (he : e ∈ (w.record i ending).entries) :
    e ∈ w.entries ∨ e.Interrupted observer n := by
  cases ending with
  | passed => exact .inl he
  | failed _ => exact .inl he
  | aborted text =>
    obtain ⟨notice, message, hnotice, rfl⟩ := h
    rcases mem_or_of_mem_modifyFirst he with he | ⟨e, _, rfl⟩
    · exact .inl he
    · exact .inr (.aborted rfl hnotice rfl)

/-- What has been written so far is what the context was made of, and every course and every entry
of a node is as far as the node has come. -/
structure Tracked (observer : Observer) (c : Value) (jobs : List Job) (done : List (String × Value))
    (w : Wave) : Prop where
  ids : w.ids = jobs.map fun j => j.node.id
  nodup : done.Nodup
  subset : done ⊆ Job.writes jobs
  context : w.world.context = c.setAll done
  courses : ∀ (i : Nat) (course : Course), w.courses[i]? = some course →
    ∃ j, jobs[i]? = some j ∧ course.Pursues observer j done
  shown : ∀ j ∈ jobs, ∀ e ∈ w.entries, e.nodeId = j.node.id → e.Shows observer j done

variable {observer : Observer} {c : Value} {jobs : List Job} {done done' : List (String × Value)}
  {v w : Wave}

/-- The courses of a tracked wave have the ids of the jobs. -/
theorem Tracked.idAt_eq (h : w.Tracked observer c jobs done) {i : Nat} {j : Job}
    (hj : jobs[i]? = some j) : w.idAt i = j.node.id := by
  rw [idAt, h.ids, List.getD_eq_getElem?_getD, List.getElem?_map, hj]
  rfl

/-- Nothing happens to courses, context and entries. -/
theorem Tracked.same (h : w.Tracked observer c jobs done) (hids : v.ids = w.ids)
    (hcourses : v.courses = w.courses) (hcontext : v.world.context = w.world.context)
    (hentries : v.entries = w.entries) : v.Tracked observer c jobs done where
  ids := hids.trans h.ids
  nodup := h.nodup
  subset := h.subset
  context := hcontext.trans h.context
  courses i course hc := h.courses i course (hcourses ▸ hc)
  shown j hj e he := h.shown j hj e (hentries ▸ he)

/-- A course goes on, and writes nothing or what belongs to it. -/
theorem Tracked.replace (hnodup : (Job.writes jobs).Nodup) (h : w.Tracked observer c jobs done)
    (hlogged : w.Logged observer) {i : Nat} {j : Job} {d : Course} (hj : jobs[i]? = some j)
    (hids : v.ids = w.ids) (hcourses : v.courses = w.courses.set i d) (hgrow : done ⊆ done')
    (hnew : ∀ p ∈ done', p ∈ done ∨ j.write? = some p) (hdone : done'.Nodup)
    (hcontext : v.world.context = c.setAll done') (hd : d.Pursues observer j done')
    (htouch : Touches [w.idAt i] w.entries v.entries)
    (hshown : ∀ e ∈ v.entries, e ∈ w.entries ∨ e.Shows observer j done') :
    v.Tracked observer c jobs done' := by
  refine ⟨hids.trans h.ids, hdone, fun p hp => ?_, hcontext, fun k course hc => ?_, ?_⟩
  · rcases hnew p hp with hp | hp
    · exact h.subset hp
    · exact Job.mem_writes.2 ⟨j, List.mem_of_getElem? hj, hp⟩
  · rw [hcourses] at hc
    by_cases hk : i = k
    · subst hk
      obtain ⟨_, hd'⟩ := List.getElem?_eq_some_iff.1 hc
      rw [List.getElem_set_self] at hd'
      exact ⟨j, hj, hd' ▸ hd⟩
    · rw [List.getElem?_set_ne hk] at hc
      obtain ⟨l, hl, hcourse⟩ := h.courses k course hc
      refine ⟨l, hl, ?_⟩
      cases hcourse with
      | ahead hnot hahead =>
        refine .ahead (fun p hp hmem => ?_) hahead
        -- the jobs of other courses write something else
        rcases hnew p hmem with hmem | hwrite
        · exact hnot p hp hmem
        · exact hk (Job.index_unique hnodup hj hl hwrite hp)
      | behind hvalue hmem hbehind => exact .behind hvalue (hgrow hmem) hbehind
  · intro l hl e he hid
    by_cases hnode : l.node.id = j.node.id
    · have hjobs : (jobs.map fun j => j.node.id).Nodup := h.ids ▸ hlogged.nodup_ids
      obtain rfl := List.inj_on_of_nodup_map hjobs hl (List.mem_of_getElem? hj) hnode
      rcases hshown e he with he | hshows
      · exact (h.shown l hl e he hid).mono hgrow
      · exact hshows
    · refine (h.shown l hl e (htouch.mem_of_mem he fun hmem => hnode ?_) hid).mono hgrow
      rw [← hid, List.mem_singleton.1 hmem, h.idAt_eq hj]

/-- A course goes on and writes nothing. -/
theorem Tracked.goOn (hnodup : (Job.writes jobs).Nodup) (h : w.Tracked observer c jobs done)
    (hlogged : w.Logged observer) {i : Nat} {j : Job} {d : Course} (hj : jobs[i]? = some j)
    (hids : v.ids = w.ids) (hcourses : v.courses = w.courses.set i d)
    (hcontext : v.world.context = w.world.context) (hd : d.Pursues observer j done)
    (htouch : Touches [w.idAt i] w.entries v.entries)
    (hshown : ∀ e ∈ v.entries, e ∈ w.entries ∨ e.Shows observer j done) :
    v.Tracked observer c jobs done :=
  h.replace hnodup hlogged hj hids hcourses (List.Subset.refl _) (fun _ hp => .inl hp) h.nodup
    (hcontext.trans h.context) hd htouch hshown

/-- A turn of a course keeps track of what has been written, also the one that writes. -/
theorem Tracked.turn (hjobs : Job.Independent c jobs) (h : w.Tracked observer c jobs done)
    (hlogged : w.Logged observer) {i : Nat} {course : Course} {t : Turn Course}
    (hc : w.courses[i]? = some course)
    (hturn : course.turn observer i w.busy w.world w.timers = some t) (hids : v.ids = w.ids)
    (hcourses : v.courses = w.courses.set i t.next) (hworld : v.world = t.world) :
    ∃ done', v.Tracked observer c jobs done' := by
  have hnodup := hjobs.settable.nodup
  have hentries : v.entries = t.world.trace.entries := by rw [entries, hworld]
  have hlogs := hlogged.logs i course hc
  obtain ⟨-, htouch⟩ := Course.logs_turn hturn hlogs
  obtain ⟨j, hj, hcourse⟩ := h.courses i course hc
  have hmem := List.mem_of_getElem? hj
  have hshown : ∀ e ∈ v.entries, e ∈ w.entries ∨ e.Shows observer j done := fun e he =>
    Course.shows_turn hcourse (h.idAt_eq hj ▸ hlogs) (h.shown j hmem) hturn (hentries ▸ he)
  cases hcourse with
  | ahead hnew hahead =>
    obtain ⟨hreads, hfault⟩ := hjobs.setAll hmem h.nodup h.subset hnew
    rw [← h.context] at hreads hfault
    rcases Course.ahead_turn hahead hreads hfault hturn with ⟨hnext, hcontext⟩ |
      ⟨x, hvalue, hnext, hcontext⟩
    · rw [← hworld] at hcontext
      exact ⟨done, h.goOn hnodup hlogged hj hids hcourses hcontext (.ahead hnew hnext)
        (hentries ▸ htouch) hshown⟩
    · -- this is the turn that writes
      have hwrite := Job.write?_of_value? hvalue
      have hsub : done ⊆ done ++ [(j.node.task.target, x)] := List.subset_append_left _ _
      have hlast : (j.node.task.target, x) ∈ done ++ [(j.node.task.target, x)] :=
        List.mem_append_right _ (List.mem_singleton_self _)
      refine ⟨done ++ [(j.node.task.target, x)], h.replace hnodup hlogged hj hids hcourses hsub
        (fun p hp => ?_) ?_ ?_ (.behind hvalue hlast hnext) (hentries ▸ htouch)
        fun e he => (hshown e he).imp_right fun hshows => hshows.mono hsub⟩
      -- a write that is done now was done before or is the one of this turn
      · refine (List.mem_append.1 hp).imp_right fun hp => ?_
        obtain rfl := List.mem_singleton.1 hp
        exact hwrite
      · exact List.perm_append_comm.nodup_iff.1 (List.nodup_cons.2 ⟨hnew _ hwrite, h.nodup⟩)
      · rw [Value.setAll_append, ← h.context, hworld]
        exact hcontext
  | behind hvalue hdone hbehind =>
    obtain ⟨hnext, hcontext⟩ := Course.behind_turn hbehind hturn
    rw [← hworld] at hcontext
    exact ⟨done, h.goOn hnodup hlogged hj hids hcourses hcontext (.behind hvalue hdone hnext)
      (hentries ▸ htouch) hshown⟩

/-- A course that waits for a permit has not written. -/
theorem Tracked.of_permit (h : w.Tracked observer c jobs done) {i : Nat} {next : Course}
    (hc : w.courses[i]? = some (.permit next)) :
    ∃ j, jobs[i]? = some j ∧ next.Pursues observer j done := by
  obtain ⟨j, hj, hcourse⟩ := h.courses i _ hc
  cases hcourse with
  | ahead hnew hahead => exact ⟨j, hj, .ahead hnew hahead⟩
  | behind _ _ hbehind => exact hbehind.elim

/-- Handing a permit on writes nothing. -/
theorem tracked_release (hnodup : (Job.writes jobs).Nodup) (h : w.Tracked observer c jobs done)
    (hlogged : w.Logged observer) : w.release.Tracked observer c jobs done := by
  unfold release
  split
  · exact h.same rfl rfl rfl rfl
  · split
    · rename_i next hnext
      obtain ⟨j, hj, hcourse⟩ := h.of_permit hnext
      exact h.goOn hnodup hlogged hj rfl rfl rfl hcourse (.refl _ _) fun _ he => .inl he
    · exact h.same rfl rfl rfl rfl

/-- Every move keeps track of what has been written. -/
theorem tracked_move {width : Nat} (hjobs : Job.Independent c jobs)
    (h : w.Tracked observer c jobs done) (hlogged : w.Logged observer) (hline : InLine width w)
    (hmove : Move observer w v) : ∃ done', v.Tracked observer c jobs done' := by
  have hnodup := hjobs.settable.nodup
  cases hmove.change with
  | @acts i before after course t hready hc hturn =>
    exact h.turn hjobs hlogged hc hturn rfl rfl rfl
  | rests _ _ _ _ _ => exact ⟨done, h.same rfl rfl rfl rfl⟩
  | @enters i before after next hready hc _ =>
    obtain ⟨j, hj, hcourse⟩ := h.of_permit hc
    exact ⟨done, h.goOn hnodup hlogged hj rfl rfl rfl hcourse (.refl _ _) fun _ he => .inl he⟩
  | queues _ _ _ => exact ⟨done, h.same rfl rfl rfl rfl⟩
  | @ends i before after ending hready hc =>
    obtain ⟨hlogged', -, -⟩ := logged_record hlogged hline hready hc rfl
    obtain ⟨-, htouch⟩ :=
      (hlogged.logs i _ hc).record (w := { w with ready := before ++ after }) hlogged.nodup rfl
    obtain ⟨j, hj, hcourse⟩ := h.courses i _ hc
    -- whether it has written or not, if the course was aborted then by a panic of the host
    have hhost : ending.ByHost observer := by
      cases hcourse with
      | ahead _ hahead => exact hahead
      | behind _ _ hbehind => exact hbehind
    refine ⟨done, tracked_release hnodup ?_ hlogged'⟩
    refine h.goOn hnodup hlogged hj rfl (set_eq_self hc).symm ?_ hcourse htouch fun e he => ?_
    · cases ending <;> rfl
    · exact (interrupted_of_mem_record hhost j.node he).imp_right fun h => .misses (.interrupted h)
  | misses _ _ => exact ⟨done, h.same rfl rfl rfl rfl⟩
  | @wakes t before after course htimers hc =>
    obtain ⟨j, hj, hcourse⟩ := h.courses _ _ hc
    refine ⟨done, h.goOn hnodup hlogged hj rfl rfl rfl ?_ (.refl _ _) fun _ he => .inl he⟩
    cases hcourse with
    | ahead hnew hahead => exact .ahead hnew (Course.ahead_wake hahead _)
    | behind hvalue hdone hbehind => exact .behind hvalue hdone (Course.behind_wake hbehind _)
  | lapses _ _ => exact ⟨done, h.same rfl rfl rfl rfl⟩
  | outside _ _ _ => exact ⟨done, h.same rfl rfl rfl rfl⟩

/-- When a wave begins, nothing has been written. -/
theorem tracked_ofNodes {s : Settings} {world : World} (hcontext : world.context = c)
    (hworks : ∀ j ∈ jobs, j.Works s)
    (hnew : ∀ j ∈ jobs, j.node.id ∉ world.trace.entries.map Entry.nodeId) :
    (ofNodes s world (jobs.map Job.node)).Tracked observer c jobs [] where
  ids := List.map_map
  nodup := List.nodup_nil
  subset := List.nil_subset _
  context := hcontext
  courses i course hc := by
    rw [ofNodes, List.getElem?_map, List.getElem?_map, Option.map_map] at hc
    obtain ⟨j, hj, rfl⟩ := Option.map_eq_some_iff.1 hc
    exact ⟨j, hj, .ahead (fun _ _ => List.not_mem_nil)
      (Course.ahead_ofNode (hworks j (List.mem_of_getElem? hj)))⟩
  shown j hj e he hid := absurd (hid ▸ List.mem_map_of_mem he) (hnew j hj)

end Wave

/-- The entry says what the node has come to: it succeeded with the value, or, if there is none, it
refused a context. -/
def Entry.Says (n : Node) (e : Entry) : Option Value → Prop
  | some v => e.status = .success ∧ e.output = some v
  | none => ∃ context, e.Refuses n context

/-- Nothing kept the node of the job from it: by the entry, it was not interrupted, and did not
refuse what its job reads if there is a value to come to. -/
def Entry.Spares (observer : Observer) (j : Job) (e : Entry) : Prop :=
  ¬ e.Interrupted observer j.node ∧
    ∀ context, j.value? ≠ none → j.reads context → ¬ e.Refuses j.node context

namespace Wave

variable {observer : Observer} {c : Value} {jobs : List Job} {done : List (String × Value)} {w : Wave}

/-- When the wave is over and nothing kept the nodes from their jobs, all that have a value have
written it, in whatever order, and the entries say what they have come to. -/
theorem Tracked.of_isOver (hjobs : Job.Independent c jobs) (h : w.Tracked observer c jobs done)
    (hlogged : w.Logged observer) (hover : w.IsOver)
    (hspared : ∀ j ∈ jobs, ∀ e ∈ w.entries, e.nodeId = j.node.id → e.Spares observer j) :
    w.world.context = c.setAll (Job.writes jobs) ∧
      ∀ j ∈ jobs, ∃ e ∈ w.entries, e.nodeId = j.node.id ∧ e.Says j.node j.value? := by
  -- job by job: at the end every entry is settled, and it says what has become of the write
  have hall : ∀ j ∈ jobs, (∀ p, j.write? = some p → p ∈ done) ∧
      ∃ e ∈ w.entries, e.nodeId = j.node.id ∧ e.Says j.node j.value? := by
    intro j hj
    have hid : j.node.id ∈ w.ids := h.ids ▸ List.mem_map_of_mem hj
    obtain ⟨e, he, hnode, hsettled⟩ := hlogged.settled_of_isOver hover hid
    obtain ⟨hcalm, haccepts⟩ := hspared j hj e he hnode
    cases h.shown j hj e he hnode with
    | running hrunning _ => exact absurd hrunning hsettled.status_ne_running
    | success hvalue hdone hsuccess houtput =>
      refine ⟨fun p hp => ?_, e, he, hnode, hvalue ▸ ⟨hsuccess, houtput⟩⟩
      rw [Job.write?_of_value? hvalue] at hp
      exact Option.some.inj hp ▸ hdone
    | misses hmisses =>
      cases hmisses with
      | interrupted hinterrupted => exact absurd hinterrupted hcalm
      | @refused context hreads hrefuses =>
        have hvalue : j.value? = none := by
          by_contra hvalue
          exact haccepts context hvalue hreads hrefuses
        refine ⟨fun p hp => ?_, e, he, hnode, hvalue ▸ ⟨context, hrefuses⟩⟩
        rw [Job.write?, hvalue] at hp
        cases hp
  refine ⟨?_, fun j hj => (hall j hj).2⟩
  -- so exactly the writes of the jobs are done, in some order, and independent writes commute
  have hperm : (Job.writes jobs).Perm done := by
    refine (List.perm_ext_iff_of_nodup hjobs.settable.nodup h.nodup).2 fun p => ⟨fun hp => ?_, ?_⟩
    · obtain ⟨j, hj, hwrite⟩ := Job.mem_writes.1 hp
      exact (hall j hj).1 p hwrite
    · exact fun hp => h.subset hp
  rw [h.context, hjobs.settable.setAll_perm hperm]

end Wave

end Wavefront
