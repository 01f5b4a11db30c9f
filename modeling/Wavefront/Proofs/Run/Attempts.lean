/-
What a node goes through, attempt by attempt.

A node is retried as a whole. Every attempt at a conditional reads the context again and decides
anew, so the attempt before it may have written what makes the condition come out the other way.
Within one attempt there is one decision, and all calls are those of the branch that it chose.

`Course.Undergoes` says that a course comes to another one in a run, whatever else happens in
between, and which attempts have been made by then. The work of an attempt that is under way has
come from the beginning of the task by turns in the contexts of the attempt, the first context
first. From this it is known of every call that an attempt has made what it is a call of.
-/
import Wavefront.Proofs.Run.Seen
import Wavefront.Proofs.Run.Site

set_option autoImplicit false

namespace Wavefront

/-! ## Histories -/

/-- What a node has been through in one attempt. -/
structure Attempt where
  /-- The contexts that were there at the turns of its work. -/
  contexts : List Value := []
  /-- The calls that it has made. -/
  calls : List Call := []

/-- The attempt when it has had one more turn. -/
def Attempt.grow (a : Attempt) (context : Value) (call : Option Call) : Attempt :=
  ⟨a.contexts ++ [context], a.calls ++ call.toList⟩

variable [Schema.Validator]

/-- The call that a fan-out makes next. A tool is not called with parameters that it refuses. -/
def Fanout.calling? (f : Fanout) : Option Call :=
  match f.next with
  | .start _ call => if (call.tool.check call.params).isOk then some call else none
  | _ => none

namespace Course

/-- The call that the course makes at its next turn. -/
def calling? (c : Course) : Option Call := c.fanout?.bind Fanout.calling?

/-- The attempts, the latest one first, when the course has had a turn in a context. An attempt
begins with a look at the context. -/
def record (c : Course) (context : Value) (history : List Attempt) : List Attempt :=
  match c with
  | inspect _ => {} :: history
  | attempt _ _ _ => history.modifyHead fun a => a.grow context c.calling?
  | _ => history

/-- In a run the course comes to this one, and by then these attempts have been made, the latest one
first. Nothing is said of what others do between its turns. -/
inductive Undergoes (observer : Observer) (start : Course) : List Attempt → Course → Prop
  | begins : Undergoes observer start [] start
  | enters {history : List Attempt} {next : Course}
      (h : Undergoes observer start history (.permit next)) : Undergoes observer start history next
  | wakes {history : List Attempt} {c : Course} (h : Undergoes observer start history c)
      (purpose : Purpose) : Undergoes observer start history (c.wake purpose)
  | acts {history : List Attempt} {c : Course} (h : Undergoes observer start history c)
      {course busy : Nat} {w : World} {timers : List Timer} {t : Turn Course}
      (ht : c.turn observer course busy w timers = some t) :
      Undergoes observer start (c.record w.context history) t.next

end Course

/-- A course that is alone in a run, and the attempts so far. -/
structure Solo where
  course : Course
  world : World
  timers : List Timer := []
  history : List Attempt := []

namespace Solo

/-- The permit is there at once, and after that turn follows upon turn; nobody passes the time. -/
def step (observer : Observer) (x : Solo) : Solo :=
  match x.course with
  | .permit next => { x with course := next }
  | c =>
      match c.turn observer 0 0 x.world x.timers with
      | some t => ⟨t.next, t.world, t.timers, c.record x.world.context x.history⟩
      | none => x

/-- Several turns of a course by itself. -/
def steps (observer : Observer) : Nat → Solo → Solo
  | 0, x => x
  | n + 1, x => steps observer n (x.step observer)

/-- A turn of a course by itself is one that it can undergo in a run. -/
theorem undergoes_step {observer : Observer} {start : Course} {x : Solo}
    (h : start.Undergoes observer x.history x.course) :
    start.Undergoes observer (x.step observer).history (x.step observer).course := by
  unfold step
  split
  · rename_i hcourse
    exact .enters (hcourse ▸ h)
  · split
    · rename_i hturn
      exact h.acts hturn
    · exact h

/-- So are several. -/
theorem undergoes_steps {observer : Observer} {start : Course} (n : Nat) {x : Solo}
    (h : start.Undergoes observer x.history x.course) :
    start.Undergoes observer (x.steps observer n).history (x.steps observer n).course := by
  induction n generalizing x with
  | zero => exact h
  | succ n ih => exact ih (undergoes_step h)

end Solo

/-! ### Calls and events -/

/-- The calls of tools that have been made in a run. -/
def World.called (w : World) : List (String × Value) :=
  w.events.filterMap fun e =>
    match e.what with
    | .called tool params => some (tool, params)
    | .told _ => none

omit [Schema.Validator] in
/-- Telling the host is no call. -/
theorem World.called_log_told (w : World) (notice : Notice) :
    (w.log (.told notice)).called = w.called := by
  rw [called, log, List.filterMap_append]
  exact List.append_nil _

omit [Schema.Validator] in
theorem World.called_enter (w : World) (c : Call) (busy : Nat) (r : Reaction) :
    (w.enter c busy r).called = w.called ++ [(c.tool.id, c.params)] :=
  List.filterMap_append ..

/-- A fan-out makes the call that it begins, unless the tool refuses the parameters. -/
theorem Fanout.calling?_of_start {f : Fanout} {place : Nat} {c : Call} (hn : f.next = .start place c)
    (hcheck : c.tool.check c.params = .ok ()) : f.calling? = some c := by
  rw [calling?, hn]
  simp only [hcheck]
  rfl

/-- A call whose parameters are refused is not made. -/
theorem Fanout.calling?_of_refuses {f : Fanout} {place : Nat} {c : Call} {e : Error}
    (hn : f.next = .start place c) (hcheck : c.tool.check c.params = .error e) :
    f.calling? = none := by
  rw [calling?, hn]
  simp only [hcheck]
  rfl

/-- A turn of work adds the call that the work was about to make. -/
theorem Work.called_turn {work : Work (Except Error Value)} {course busy : Nat} {w : World}
    {timers : List Timer} {t : Turn Advance} (ht : work.turn course busy w timers = some t)
    (limit : Limit) (rest : Option (Except Error Value) → Course) : t.world.called
      = w.called ++ (Course.attempt limit work rest).calling?.toList.map fun call =>
          (call.tool.id, call.params) := by
  -- the calling of the course is that of the fan-out of its work
  have hgather : ∀ (f : Fanout) (next : Except Error (List Value) → Work (Except Error Value)),
      (Course.attempt limit (.gather f next) rest).calling? = f.calling? := fun _ _ => rfl
  cases turns_of_turn ht with
  | reads _ => exact (List.append_nil _).symm
  | writes _ _ _ => exact (List.append_nil _).symm
  | finishes _ hn =>
    rw [hgather, Fanout.calling?, hn]
    exact (List.append_nil _).symm
  | collects _ hn =>
    rw [hgather, Fanout.calling?, hn]
    exact (List.append_nil _).symm
  | concludes _ hn _ =>
    rw [hgather, Fanout.calling?, hn]
    exact (List.append_nil _).symm
  | panics _ hn _ =>
    rw [hgather, Fanout.calling?, hn]
    exact (List.append_nil _).symm
  | refuses _ hn hcheck =>
    rw [hgather, Fanout.calling?_of_refuses hn hcheck]
    exact (List.append_nil _).symm
  | begins _ hn hcheck _ =>
    rw [hgather, Fanout.calling?_of_start hn hcheck]
    exact World.called_enter ..
  | returns _ hn hcheck _ _ =>
    rw [hgather, Fanout.calling?_of_start hn hcheck]
    exact World.called_enter ..
  | upsets _ hn hcheck _ _ =>
    rw [hgather, Fanout.calling?_of_start hn hcheck]
    exact World.called_enter ..

/-- Work that has to wait makes no call. -/
theorem Work.calling?_of_turn_eq_none {work : Work (Except Error Value)} {course busy : Nat}
    {w : World} {timers : List Timer} (ht : work.turn course busy w timers = none) (limit : Limit)
    (rest : Option (Except Error Value) → Course) :
    (Course.attempt limit work rest).calling? = none := by
  rcases waits_of_turn_eq_none ht with ⟨r, rfl⟩ | ⟨f, next, rfl, hnext⟩
  · rfl
  · change f.calling? = none
    rw [Fanout.calling?, hnext]

/-- A turn of an attempt adds the call that its work was about to make. -/
theorem Limit.called_turn {limit : Limit} {work : Work (Except Error Value)}
    {next : Option (Except Error Value) → Course} {course busy : Nat} {w : World}
    {timers : List Timer} {t : Turn Course}
    (ht : limit.turn work next course busy w timers = some t) : t.world.called
      = w.called ++ (Course.attempt limit work next).calling?.toList.map fun call =>
          (call.tool.id, call.params) := by
  cases does_of_turn ht with
  | ends r => exact (List.append_nil _).symm
  | works hturn => exact Work.called_turn hturn limit next
  | panics hturn => exact Work.called_turn hturn limit next
  | limits _ hturn =>
    rw [Work.calling?_of_turn_eq_none hturn]
    exact (List.append_nil _).symm
  | stops hturn =>
    rw [Work.calling?_of_turn_eq_none hturn]
    exact (List.append_nil _).symm

/-- What a turn adds to the calls of a run is the call that the course makes at it. -/
theorem Course.called_turn {c : Course} {observer : Observer} {course busy : Nat} {w : World}
    {timers : List Timer} {t : Turn Course} (ht : c.turn observer course busy w timers = some t) :
    t.world.called = w.called ++ c.calling?.toList.map fun call => (call.tool.id, call.params) := by
  cases turns_of_turn ht with
  | attempts _ => exact Limit.called_turn ht
  | tells notice next =>
    rw [World.called_log_told]
    exact (List.append_nil _).symm
  | upsets next _ =>
    rw [World.called_log_told]
    exact (List.append_nil _).symm
  | _ => exact (List.append_nil _).symm

/-! ### Histories in executions -/

/-- Every course of an execution has come as far as it is from the course of its node. -/
theorem Graph.Reaches.exists_undergoes {g : Graph} {context : Value} {mode : Mode} {o : Options}
    {e : Execution} (h : g.Reaches context mode o e) {i : Nat} {c : Course}
    (hc : e.wave.courses[i]? = some c) : ∃ n history, (g.wave e.past.length)[i]? = some n ∧
      (Course.ofNode o.settings n).Undergoes o.observer history c := by
  induction h generalizing c with
  | refl => cases hc
  | @tail e e' hreach hstep ih =>
    cases hstep with
    | move hmove =>
      obtain ⟨b, hb, hcourse⟩ := Wave.exists_courseMove hmove hc
      obtain ⟨n, history, hn, hhistory⟩ := ih hb
      cases hcourse with
      | same => exact ⟨n, history, hn, hhistory⟩
      | enters hpermit => exact ⟨n, history, hn, .enters (hpermit ▸ hhistory)⟩
      | wakes purpose => exact ⟨n, history, hn, hhistory.wakes purpose⟩
      | acts hturn => exact ⟨n, _, hn, hhistory.acts hturn⟩
    | @next nodes waves hover hwaves =>
      rw [Wave.ofNodes, List.getElem?_map] at hc
      obtain ⟨n, hn, rfl⟩ := Option.map_eq_some_iff.1 hc
      refine ⟨n, [], ?_, .begins⟩
      rw [List.length_append, List.length_singleton, (traced hreach).wave_succ hwaves]
      exact hn

/-! ## What the calls of an attempt are -/

namespace Attempt

/-- The work that an attempt began with has become other work at its turns, the first of them in the
first context. -/
def Leads (a : Attempt) (work w : Work (Except Error Value)) : Prop :=
  ∃ cs, cs.head? = a.contexts.head? ∧ cs ⊆ a.contexts ∧ work.Leads cs w

/-- The call is one of those that the work comes to by turns in contexts of the attempt, the first
of them in the first context. -/
def Reaches (a : Attempt) (x : Action Value) (call : Call) : Prop :=
  ∃ d rest f, a.contexts.head? = some d ∧ d :: rest ⊆ a.contexts ∧ x.Calls (d :: rest) f ∧
    call ∈ f.calls

variable {a : Attempt} {x : Action Value} {work w w' : Work (Except Error Value)} {c : Value}

omit [Schema.Validator] in
/-- An attempt keeps its first context. -/
theorem head?_grow {d : Value} (h : a.contexts.head? = some d) (call : Option Call) :
    (a.grow c call).contexts.head? = some d := by
  rw [grow, List.head?_append, h]
  rfl

omit [Schema.Validator] in
theorem contexts_subset_grow (a : Attempt) (c : Value) (call : Option Call) :
    a.contexts ⊆ (a.grow c call).contexts :=
  List.subset_append_left _ _

omit [Schema.Validator] in
/-- Work that leads on goes one step further with the attempt. -/
theorem Leads.step (h : a.Leads work w) (hstep : Work.Step c w w') (call : Option Call) :
    (a.grow c call).Leads work w' := by
  obtain ⟨cs, hhead, hsubset, hleads⟩ := h
  refine ⟨cs ++ [c], ?_, ?_, hleads.tail hstep⟩
  · rw [grow, List.head?_append, List.head?_append, hhead]
  · exact List.append_subset.2 ⟨List.subset_append_of_subset_left _ hsubset,
      List.subset_append_right _ _⟩

omit [Schema.Validator] in
/-- Work that is not as it was at first has had a turn. -/
theorem Leads.exists_head (h : a.Leads work w) (hne : w ≠ work) :
    ∃ d rest, a.contexts.head? = some d ∧ d :: rest ⊆ a.contexts ∧ work.Leads (d :: rest) w := by
  obtain ⟨cs, hhead, hsubset, hleads⟩ := h
  cases hleads with
  | refl _ => exact absurd rfl hne
  | head hstep hrest => exact ⟨_, _, hhead.symm, hsubset, .head hstep hrest⟩

omit [Schema.Validator] in
/-- A turn at which nothing happens to the work. -/
theorem Leads.rest (h : a.Leads work w) (hne : w ≠ work) (call : Option Call) :
    (a.grow c call).Leads work w := by
  obtain ⟨d, rest, hhead, hsubset, hleads⟩ := h.exists_head hne
  have hmore := List.Subset.trans hsubset (contexts_subset_grow a c call)
  exact ⟨d :: rest, (head?_grow hhead call).symm, hmore, hleads⟩

omit [Schema.Validator] in
/-- A call that is woken does not take the work back. -/
theorem Leads.wake {f : Fanout} {next : Except Error (List Value) → Work (Except Error Value)}
    (h : a.Leads work (.gather f next)) (hne : .gather f next ≠ work) (number : Nat) :
    a.Leads work (.gather (f.wake number) next) := by
  obtain ⟨d, rest, hhead, hsubset, hleads⟩ := h.exists_head hne
  -- no context is read here, so any that the attempt has seen will do
  have hstep : Work.Step d (.gather f next) (.gather (f.wake number) next) :=
    .advance next fun _ hf => hf.wake number
  have hd : [d] ⊆ a.contexts := List.cons_subset.2 ⟨hsubset List.mem_cons_self, List.nil_subset _⟩
  exact ⟨d :: rest ++ [d], hhead.symm, List.append_subset.2 ⟨hsubset, hd⟩, hleads.tail hstep⟩

omit [Schema.Validator] in
/-- A call that an attempt has reached stays reached. -/
theorem Reaches.grow {old : Call} (h : a.Reaches x old) (call : Option Call) :
    (a.grow c call).Reaches x old := by
  obtain ⟨d, rest, f, hhead, hsubset, hcalls⟩ := h
  have hmore := List.Subset.trans hsubset (contexts_subset_grow a c call)
  exact ⟨d, rest, f, head?_grow hhead call, hmore, hcalls⟩

omit [Schema.Validator] in
/-- A turn may add a call, and keeps the others. -/
theorem forall_reaches_grow (h : ∀ old ∈ a.calls, a.Reaches x old) {call : Option Call}
    (hcall : ∀ new, call = some new → a.Reaches x new) :
    ∀ new ∈ (a.grow c call).calls, (a.grow c call).Reaches x new := by
  intro new hnew
  rcases List.mem_append.1 hnew with hold | hnew
  · exact (h new hold).grow call
  · exact (hcall new (Option.mem_toList.1 hnew)).grow call

end Attempt

/-- A call that a fan-out makes is one of its calls. -/
theorem Fanout.mem_calls_of_calling? {f : Fanout} {call : Call} (h : f.calling? = some call) :
    call ∈ f.calls := by
  unfold calling? at h
  split at h
  · rename_i place c hnext
    split at h
    · obtain rfl := Option.some.inj h
      have hheld := List.mem_of_getElem? (held_of_start hnext)
      exact List.mem_append_left _ (List.mem_map_of_mem hheld)
    · cases h
  · cases h

namespace Course

/-- The attempts that are still to come begin with the work, and with a look at the context; the
course may have taken that look already. -/
def Tries (work : Work (Except Error Value)) : Course → (looked : Bool) → Prop
  | ended _, _ => True
  | permit next, _ => next.Tries work false
  | begin _ next, _ => ∀ index, (next index).Tries work false
  | notify _ next, _ => next.Tries work false
  | ask next, _ => ∀ cancelled, (next cancelled).Tries work false
  | inspect next, _ => ∀ context, (next context).Tries work true
  | attempt _ first next, looked => looked = true ∧ first = work ∧ ∀ r, (next r).Tries work false
  | settle _ _ next, _ => next.Tries work false
  | pause _ next, _ => next.Tries work false
  | paused next, _ => next.Tries work false

omit [Schema.Validator] in
/-- A course that has still to look at the context may also have looked. -/
theorem Tries.behind {work : Work (Except Error Value)} {c : Course} (h : c.Tries work false) :
    c.Tries work true := by
  cases c with
  | attempt _ _ _ => cases h.1
  | _ => exact h

/-- The attempts of a node begin with its own task, each time. -/
theorem tries_attempts (s : Settings) (n : Node) (index left retry : Nat) :
    (attempts s n index left retry).Tries (n.task.work s n.id).run false := by
  refine attempts_induction_of_results (P := fun c => c.Tries (n.task.work s n.id).run false)
    (Q := fun _ c => c.Tries (n.task.work s n.id).run true)
    (fun _ => trivial) (fun _ _ hnext => hnext) (fun _ hnext => hnext) (fun _ hnext => hnext)
    (fun _ _ _ _ _ hnext => (hnext trivial).behind) (fun retry _ next _ hok herror hnone => ?_)
    left retry
  refine ⟨rfl, rfl, ?_⟩
  rintro (_ | (e | output))
  · exact hnone trivial
  · exact herror e trivial
  · exact hok output ▸ trivial

theorem tries_ofNode (s : Settings) (n : Node) :
    (ofNode s n).Tries (n.task.work s n.id).run false :=
  fun index => tries_attempts s n index (retriesOf s n) 0

/-- Where a course stands in its attempts: between two of them, behind a look at the context, with
which an attempt begins, or within one. -/
inductive Stands (work : Work (Except Error Value)) : List Attempt → Course → Prop
  | between {history : List Attempt} {c : Course} (h : c.Tries work false) : Stands work history c
  | behind {history : List Attempt} {c : Course} (h : c.Tries work true) :
      Stands work ({} :: history) c
  | within {a : Attempt} {history : List Attempt} {limit : Limit} {w : Work (Except Error Value)}
      {next : Option (Except Error Value) → Course} (hw : a.Leads work w)
      (hnext : ∀ r, (next r).Tries work false) : Stands work (a :: history) (.attempt limit w next)

section Stands

variable {work w : Work (Except Error Value)} {history : List Attempt} {c : Course} {limit : Limit}
  {next : Option (Except Error Value) → Course} {observer : Observer} {course busy : Nat}
  {world : World} {timers : List Timer} {t : Turn Course}

omit [Schema.Validator] in
/-- In an attempt, the work has come from the task by the contexts of this attempt. -/
theorem Stands.exists_leads (h : Stands work history (.attempt limit w next)) :
    ∃ a earlier, history = a :: earlier ∧ a.Leads work w ∧ ∀ r, (next r).Tries work false := by
  cases h with
  | between h => cases h.1
  | behind h =>
    obtain ⟨-, rfl, hnext⟩ := h
    exact ⟨_, _, rfl, ⟨[], rfl, List.nil_subset _, .refl w⟩, hnext⟩
  | within hw hnext => exact ⟨_, _, rfl, hw, hnext⟩

omit [Schema.Validator] in
/-- Between attempts, whatever follows begins with the task again. -/
theorem Stands.exists_tries (h : Stands work history c)
    (hc : ∀ limit w next, c ≠ .attempt limit w next) : ∃ looked, c.Tries work looked := by
  cases h with
  | between h => exact ⟨_, h⟩
  | behind h => exact ⟨_, h⟩
  | within _ _ => exact absurd rfl (hc _ _ _)

/-- A turn within an attempt whose work began with a look at the context. -/
theorem stands_limit_turn {a : Attempt} {first : Value → Work (Except Error Value)}
    (hw : a.Leads (.read first) w) (hnext : ∀ r, (next r).Tries (.read first) false)
    (ht : limit.turn w next course busy world timers = some t) (call : Option Call) :
    Stands (.read first) (a.grow world.context call :: history) t.next := by
  cases Limit.does_of_turn ht with
  | ends r => exact .between (hnext (some r))
  | works hturn => exact .within (hw.step (Work.step_of_turn hturn rfl) call) hnext
  | panics _ => exact .between trivial
  | limits _ hturn =>
    -- the first look at the context has not to wait
    have hne : w ≠ .read first := by
      rintro rfl
      cases hturn
    exact .within (hw.rest hne call) hnext
  | stops _ => exact .between (hnext none)

theorem Stands.turn {first : Value → Work (Except Error Value)} (h : Stands (.read first) history c)
    (ht : c.turn observer course busy world timers = some t) :
    Stands (.read first) (c.record world.context history) t.next := by
  -- only a turn of an attempt moves the work; all others go on between two attempts
  cases turns_of_turn ht with
  | attempts _ =>
    obtain ⟨a, earlier, rfl, hw, hnext⟩ := h.exists_leads
    exact stands_limit_turn hw hnext ht _
  | inspects next =>
    obtain ⟨_, h⟩ := h.exists_tries nofun
    exact .behind (h _)
  | begin entry next =>
    obtain ⟨_, h⟩ := h.exists_tries nofun
    exact .between (h _)
  | asks next =>
    obtain ⟨_, h⟩ := h.exists_tries nofun
    exact .between (h _)
  | tells notice next =>
    obtain ⟨_, h⟩ := h.exists_tries nofun
    exact .between h
  | upsets next _ => exact .between trivial
  | settles index change next =>
    obtain ⟨_, h⟩ := h.exists_tries nofun
    exact .between h
  | skips next =>
    obtain ⟨_, h⟩ := h.exists_tries nofun
    exact .between h
  | pauses ms due next =>
    obtain ⟨_, h⟩ := h.exists_tries nofun
    exact .between h

omit [Schema.Validator] in
/-- Being woken keeps a course where it stands. -/
theorem Stands.wake {first : Value → Work (Except Error Value)} (h : Stands (.read first) history c)
    (purpose : Purpose) : Stands (.read first) history (c.wake purpose) := by
  unfold Course.wake
  split
  · obtain ⟨_, h⟩ := h.exists_tries nofun
    exact .between h
  · obtain ⟨a, earlier, rfl, hw, hnext⟩ := h.exists_leads
    exact .within hw hnext
  · rename_i number _ f next _
    obtain ⟨a, earlier, rfl, hw, hnext⟩ := h.exists_leads
    exact .within (hw.wake nofun number) hnext
  · exact h

/-- The calls of a history, and the one that a turn may add, are those of the work. -/
theorem Stands.reaches_record {x : Action Value} {first : Value → Work (Except Error Value)}
    (hx : x.run = .read first) (h : Stands x.run history c)
    (hcalls : ∀ a ∈ history, ∀ call ∈ a.calls, a.Reaches x call) (context : Value) :
    ∀ a ∈ c.record context history, ∀ call ∈ a.calls, a.Reaches x call := by
  cases c with
  | attempt limit w next =>
    obtain ⟨a, earlier, rfl, hw, -⟩ := h.exists_leads
    obtain ⟨ha, hearlier⟩ := List.forall_mem_cons.1 hcalls
    refine List.forall_mem_cons.2 ⟨Attempt.forall_reaches_grow ha fun call hcall => ?_, hearlier⟩
    obtain ⟨f, hf, hcall⟩ := Option.bind_eq_some_iff.1 hcall
    obtain ⟨_, next', _, heq⟩ := eq_attempt_of_fanout? hf
    obtain ⟨-, rfl, -⟩ := Course.attempt.inj heq
    -- the task begins with a look at the context, so it has had a turn by the time that it calls
    have hne : .gather f next' ≠ x.run := by
      rw [hx]
      exact nofun
    obtain ⟨d, rest, hhead, hsubset, hleads⟩ := hw.exists_head hne
    exact ⟨d, rest, f, hhead, hsubset, ⟨next', hleads⟩, f.mem_calls_of_calling? hcall⟩
  | inspect next =>
    exact List.forall_mem_cons.2 ⟨fun call hcall => absurd hcall List.not_mem_nil, hcalls⟩
  | _ => exact hcalls

end Stands

/-- Whatever a node goes through, every call of an attempt at it is one of those that its work comes
to by turns in the contexts of the attempt. -/
theorem Undergoes.reaches {s : Settings} {n : Node} {observer : Observer} {history : List Attempt}
    {c : Course} {first : Value → Work (Except Error Value)}
    (hfirst : (n.task.work s n.id).run = .read first)
    (h : (ofNode s n).Undergoes observer history c) :
    ∀ a ∈ history, ∀ call ∈ a.calls, a.Reaches (n.task.work s n.id) call := by
  have hboth : Stands (n.task.work s n.id).run history c ∧
      ∀ a ∈ history, ∀ call ∈ a.calls, a.Reaches (n.task.work s n.id) call := by
    induction h with
    | begins => exact ⟨.between (tries_ofNode s n), fun a ha => absurd ha List.not_mem_nil⟩
    | enters _ ih =>
      obtain ⟨_, htries⟩ := ih.1.exists_tries nofun
      exact ⟨.between htries, ih.2⟩
    | wakes _ purpose ih =>
      refine ⟨?_, ih.2⟩
      rw [hfirst] at ih ⊢
      exact ih.1.wake purpose
    | @acts _ _ _ _ _ w _ _ ht ih =>
      refine ⟨?_, ih.1.reaches_record hfirst ih.2 w.context⟩
      rw [hfirst] at ih ⊢
      exact ih.1.turn ht
  exact hboth.2

end Course

end Wavefront
