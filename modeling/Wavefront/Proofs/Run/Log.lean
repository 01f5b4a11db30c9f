/-
The log of a wave: every node has at most one entry in the trace, and it tells how the node ended.

A course has no entry until it begins, changes no entry but its own, and settles it once. So a move
touches entries of the nodes of its wave only: it appends one that is running, or changes one that
was there before. When note is taken of the end of a course, its entry tells that end. A panic may
come before the course has settled its entry, and then the entry is failed as note is taken, with
the message of the panic; or the host panics on being told how the node ended, and then the entry
stays as the host was told.
-/
import Wavefront.Proofs.Run.Line
import Wavefront.Proofs.Trace.Recording

set_option autoImplicit false

namespace Wavefront

/-! ## What an entry tells -/

/-- The entry says of the end of its node what the host is told of it. -/
def Entry.IsAsTold (e : Entry) : Notice → Prop
  | .started _ => False
  | .completed node result => e.nodeId = node ∧ e.status = .success ∧ e.output = some result
  | .failed node message => e.nodeId = node ∧ e.status = .failed ∧ e.error = some message

/-- The message is that of a panic of the host on being told how the node ended, as the entry says
it. -/
def Entry.Outlives (observer : Observer) (e : Entry) (message : String) : Prop :=
  ∃ notice panic, observer notice = some panic ∧ message = panicMessage panic ∧ e.IsAsTold notice

/-- The entry of a node tells how the course of the node ended. -/
def Entry.Tells (observer : Observer) (node : String) (e : Entry) : Ending → Prop
  | .passed => e.status = .success ∨ e.status = .cancelled
  | .failed error =>
      e.status = .failed ∧ ∃ message, e.error = some message ∧ error = .nodeFailed node message
  -- once the entry is settled, a panic changes nothing about it
  | .aborted message =>
      e.status = .failed ∧ e.error = some message ∨ e.Outlives observer message

/-- An entry that has ended in one of the three ways in which nodes end. -/
def Entry.IsSettled (e : Entry) : Prop :=
  e.status = .success ∨ e.status = .failed ∨ e.status = .cancelled

/-- An entry of which the host has been told the end is settled. -/
theorem Entry.IsAsTold.isSettled {e : Entry} {notice : Notice} (h : e.IsAsTold notice) :
    e.IsSettled := by
  cases notice with
  | started _ => exact h.elim
  | completed _ _ => exact .inl h.2.1
  | failed _ _ => exact .inr (.inl h.2.1)

/-- An entry that tells how its node ended is settled. -/
theorem Entry.Tells.isSettled {observer : Observer} {node : String} {e : Entry} {ending : Ending}
    (h : e.Tells observer node ending) : e.IsSettled := by
  cases ending with
  | passed =>
    rcases h with h | h
    · exact .inl h
    · exact .inr (.inr h)
  | failed error => exact .inr (.inl h.1)
  | aborted message =>
    rcases h with h | ⟨_, _, _, _, htold⟩
    · exact .inr (.inl h.1)
    · exact htold.isSettled

theorem Entry.IsSettled.status_ne_running {e : Entry} (h : e.IsSettled) : e.status ≠ .running := by
  rcases h with h | h | h <;> rw [h] <;> exact Status.noConfusion

theorem Entry.IsSettled.isTerminal {e : Entry} (h : e.IsSettled) : e.status.isTerminal = true := by
  rcases h with h | h | h <;> rw [h] <;> rfl

/-! ## What a course will do to its entry -/

namespace Course

variable (observer : Observer) (node : String)

/-- The course has settled its entry, and the host is yet to be told what it says. -/
def IsClosed (e : Entry) : Course → Prop
  | ended ending => e.Tells observer node ending
  | notify notice next => e.IsAsTold notice ∧ next.IsClosed e
  | _ => False

/-- The course has begun an entry, by its index, and will settle it once. -/
def IsOpen (index : Nat) : Course → Prop
  | ended e => ∃ message, e = .aborted message
  | permit _ => False
  | begin _ _ => False
  | notify _ next => next.IsOpen index
  | ask next => ∀ cancelled, (next cancelled).IsOpen index
  | inspect next => ∀ context, (next context).IsOpen index
  | attempt _ _ next => ∀ r, (next r).IsOpen index
  | settle i change next => i = index ∧ ∀ now e, e.nodeId = node →
      (change now e).nodeId = node ∧ next.IsClosed observer node (change now e)
  | pause _ next => next.IsOpen index
  | paused next => next.IsOpen index

/-- The course has not begun an entry yet, and will begin a running one of its node. -/
def IsUnbegun : Course → Prop
  | permit next => next.IsUnbegun
  | begin entry next =>
      (∀ now, (entry now).nodeId = node ∧ (entry now).status = .running) ∧
        ∀ index, (next index).IsOpen observer node index
  | _ => False

variable [Schema.Validator]

/-- Before all of its attempts a node has its entry open. -/
theorem isOpen_attempts (s : Settings) (n : Node) (index left retry : Nat) :
    (attempts s n index left retry).IsOpen observer n.id index := by
  refine attempts_induction (fun retry => ?_) (fun retry output => ?_) (fun retry message => ?_)
    (fun _ _ hnext => hnext) (fun _ hnext => hnext) (fun _ hnext => hnext) (fun _ hnext => hnext)
    left retry
  · exact ⟨rfl, fun _ _ hid => ⟨hid, .inr rfl⟩⟩
  · exact ⟨rfl, fun _ _ hid => ⟨hid, ⟨hid, rfl, rfl⟩, .inl rfl⟩⟩
  · exact ⟨rfl, fun _ _ hid => ⟨hid, ⟨hid, rfl, rfl⟩, rfl, message, rfl, rfl⟩⟩

theorem isUnbegun_ofNode (s : Settings) (n : Node) : (ofNode s n).IsUnbegun observer n.id :=
  ⟨fun _ => ⟨rfl, rfl⟩, fun index => isOpen_attempts observer s n index (retriesOf s n) 0⟩

/-! ## What a course has done to its entry -/

/-- The entry of the course, as far as the course has come. -/
inductive Logs (entries : List Entry) (c : Course) : Prop
  | unbegun (hc : c.IsUnbegun observer node) (hnone : node ∉ entries.map Entry.nodeId)
  | running {index : Nat} {e : Entry} (hc : c.IsOpen observer node index)
      (he : entries[index]? = some e) (hnode : e.nodeId = node) (hrunning : e.status = .running)
  | settled {e : Entry} (hc : c.IsClosed observer node e) (he : e ∈ entries)
      (hnode : e.nodeId = node)

end Course

/-- Of some entries, those of other nodes than the given ones stay where they are, and at most one
entry of the given nodes is appended. -/
structure Touches (nodes : List String) (old new : List Entry) : Prop where
  keep : ∀ (i : Nat) (e : Entry), old[i]? = some e → e.nodeId ∉ nodes → new[i]? = some e
  ids : new.map Entry.nodeId = old.map Entry.nodeId ∨
    ∃ node ∈ nodes, node ∉ old.map Entry.nodeId ∧
      new.map Entry.nodeId = old.map Entry.nodeId ++ [node]

namespace Touches

variable {nodes : List String} {old new : List Entry}

theorem refl (nodes : List String) (entries : List Entry) : Touches nodes entries entries :=
  ⟨fun _ _ he _ => he, .inl rfl⟩

/-- What touches the entries of some nodes touches those of more nodes. -/
theorem mono {nodes' : List String} (h : Touches nodes old new) (hnodes : nodes ⊆ nodes') :
    Touches nodes' old new := by
  refine ⟨fun i e he hnode => h.keep i e he fun hmem => hnode (hnodes hmem), ?_⟩
  rcases h.ids with heq | ⟨node, hnode, hnew⟩
  · exact .inl heq
  · exact .inr ⟨node, hnodes hnode, hnew⟩

/-- An entry of any other node is still there. -/
theorem mem (h : Touches nodes old new) {e : Entry} (he : e ∈ old) (hnode : e.nodeId ∉ nodes) :
    e ∈ new := by
  obtain ⟨i, hi⟩ := List.mem_iff_getElem?.1 he
  exact List.mem_of_getElem? (h.keep i e hi hnode)

/-- What stands there of other nodes stood there before. -/
theorem mem_of_mem (h : Touches nodes old new) {e : Entry} (he : e ∈ new) (hnode : e.nodeId ∉ nodes) :
    e ∈ old := by
  obtain ⟨i, hi⟩ := List.mem_iff_getElem?.1 he
  have hid : (new.map Entry.nodeId)[i]? = some e.nodeId := by rw [List.getElem?_map, hi, Option.map_some]
  -- if an entry was appended, it is one of a touched node, and so it is not this one
  have hold : (old.map Entry.nodeId)[i]? = some e.nodeId := by
    rcases h.ids with heq | ⟨node, hmem, -, heq⟩
    · exact heq ▸ hid
    · rw [heq] at hid
      rcases Nat.lt_or_ge i (old.map Entry.nodeId).length with hlt | hge
      · rwa [List.getElem?_append_left hlt] at hid
      · rw [List.getElem?_append_right hge] at hid
        have hlast := List.mem_singleton.1 (List.mem_of_getElem? hid)
        exact absurd (hlast ▸ hmem) hnode
  rw [List.getElem?_map] at hold
  obtain ⟨e', he', hid'⟩ := Option.map_eq_some_iff.1 hold
  have hsame := h.keep i e' he' (hid' ▸ hnode)
  obtain rfl := Option.some.inj (hi.symm.trans hsame)
  exact List.mem_of_getElem? he'

/-- A node that has an entry now had one before, or its entries were touched. -/
theorem mem_ids (h : Touches nodes old new) {node : String} (hnode : node ∈ new.map Entry.nodeId) :
    node ∈ old.map Entry.nodeId ∨ node ∈ nodes := by
  rcases h.ids with heq | ⟨other, hother, -, heq⟩
  · exact .inl (heq ▸ hnode)
  · rw [heq, List.mem_append, List.mem_singleton] at hnode
    rcases hnode with hnode | rfl
    · exact .inl hnode
    · exact .inr hother

/-- Touching entries gives no node a second one. -/
theorem nodup (h : Touches nodes old new) (hold : (old.map Entry.nodeId).Nodup) :
    (new.map Entry.nodeId).Nodup := by
  rcases h.ids with heq | ⟨node, -, hnew, heq⟩
  · exact heq ▸ hold
  · rw [heq]
    exact List.perm_append_comm.nodup_iff.1 (List.nodup_cons.2 ⟨hnew, hold⟩)

/-- Appending the first entry of a node touches that node only. -/
theorem append {node : String} {e : Entry} {entries : List Entry} (h : e.nodeId = node)
    (hnew : node ∉ entries.map Entry.nodeId) : Touches [node] entries (entries ++ [e]) := by
  refine ⟨fun i old hi _ => ?_, .inr ⟨node, List.mem_singleton_self _, hnew, ?_⟩⟩
  · rw [List.getElem?_append_left (List.getElem?_eq_some_iff.1 hi).1]
    exact hi
  · rw [List.map_append, List.map_singleton, h]

/-- The change of an entry that keeps the entry that of its node. -/
theorem modify {entries : List Entry} {index : Nat} {e : Entry} {change : Entry → Entry}
    (he : entries[index]? = some e) (hchange : (change e).nodeId = e.nodeId) :
    Touches [e.nodeId] entries (entries.modify index change) := by
  constructor
  · intro i old hi hnode
    by_cases hindex : index = i
    · subst hindex
      obtain rfl := Option.some.inj (he.symm.trans hi)
      exact absurd (List.mem_singleton_self _) hnode
    · rw [List.getElem?_modify_ne _ _ hindex]
      exact hi
  -- the ids are the same as before, place by place
  · refine .inl (List.ext_getElem? fun i => ?_)
    rw [List.getElem?_map, List.getElem?_map]
    by_cases hindex : index = i
    · subst hindex
      rw [List.getElem?_modify_eq, he]
      exact congrArg some hchange
    · rw [List.getElem?_modify_ne _ _ hindex]

end Touches

/-- What other courses do leaves the entry of a course as it is. -/
theorem Course.Logs.touches {observer : Observer} {nodes : List String} {old new : List Entry}
    {node : String} {c : Course} (h : c.Logs observer node old) (htouch : Touches nodes old new)
    (hnode : node ∉ nodes) : c.Logs observer node new := by
  cases h with
  | unbegun hc hnone =>
    refine .unbegun hc fun hmem => ?_
    exact (htouch.mem_ids hmem).elim hnone hnode
  | running hc he hid hrunning =>
    exact .running hc (htouch.keep _ _ he (hid ▸ hnode)) hid hrunning
  | settled hc he hid => exact .settled hc (htouch.mem he (hid ▸ hnode)) hid

/-- A turn of a course touches no entry but its own. -/
theorem Course.logs_turn [Schema.Validator] {c : Course} {node : String} {observer : Observer}
    {course busy : Nat}
    {w : World} {timers : List Timer} {t : Turn Course}
    (ht : c.turn observer course busy w timers = some t) (h : c.Logs observer node w.trace.entries) :
    t.next.Logs observer node t.world.trace.entries ∧
      Touches [node] w.trace.entries t.world.trace.entries := by
  -- what leaves the trace alone only has to leave the course open or closed
  have hsame : ∀ {d : Course} {trace : Trace}, trace = w.trace →
      (c.IsUnbegun observer node → False) →
      (∀ index, c.IsOpen observer node index → d.IsOpen observer node index) →
      (∀ e, c.IsClosed observer node e → d.IsClosed observer node e) →
      d.Logs observer node trace.entries ∧ Touches [node] w.trace.entries trace.entries := by
    rintro d _ rfl hunbegun hopen hclosed
    refine ⟨?_, .refl _ _⟩
    cases h with
    | unbegun hc _ => exact (hunbegun hc).elim
    | running hc he hid hrunning => exact .running (hopen _ hc) he hid hrunning
    | settled hc he hid => exact .settled (hclosed _ hc) he hid
  cases turns_of_turn ht with
  | begin entry next =>
    cases h with
    | unbegun hc hnone =>
      obtain ⟨hid, hrunning⟩ := hc.1 w.moment
      exact ⟨.running (hc.2 _) List.getElem?_concat_length hid hrunning, .append hid hnone⟩
    | running hc _ _ _ => exact hc.elim
    | settled hc _ _ => exact hc.elim
  | tells _ _ => exact hsame rfl id (fun _ hc => hc) (fun _ hc => hc.2)
  | upsets _ hpanic =>
    exact hsame rfl id (fun _ _ => ⟨_, rfl⟩) (fun _ hc => .inr ⟨_, _, hpanic, rfl, hc.1⟩)
  | asks _ => exact hsame rfl id (fun _ hc => hc _) (fun _ hc => hc.elim)
  | inspects _ => exact hsame rfl id (fun _ hc => hc _) (fun _ hc => hc.elim)
  | attempts hturn =>
    cases hturn with
    | ends r htrace => exact hsame htrace id (fun _ hc => hc r) (fun _ hc => hc.elim)
    | panics _ htrace => exact hsame htrace id (fun _ _ => ⟨_, rfl⟩) (fun _ hc => hc.elim)
    | works _ htrace _ => exact hsame htrace id (fun _ hc => hc) (fun _ hc => hc.elim)
    | limits _ => exact hsame rfl id (fun _ hc => hc) (fun _ hc => hc.elim)
  | settles index change next =>
    cases h with
    | unbegun hc _ => exact hc.elim
    | @running index' e hc he hid hrunning =>
      obtain ⟨rfl, hchange⟩ := hc
      obtain ⟨hkeeps, hclosed⟩ := hchange w.moment e hid
      refine ⟨.settled hclosed (List.mem_of_getElem? (i := index) ?_) hkeeps, ?_⟩
      · show (w.trace.entries.modify index (change w.moment))[index]? = _
        rw [List.getElem?_modify_eq, he]
        rfl
      · exact hid ▸ Touches.modify he (hkeeps.trans hid.symm)
    | settled hc _ _ => exact hc.elim
  | skips _ => exact hsame rfl id (fun _ hc => hc) (fun _ hc => hc.elim)
  | pauses _ _ _ => exact hsame rfl id (fun _ hc => hc) (fun _ hc => hc.elim)

/-- A course that settles an entry has begun it, and it is the running entry of its node. -/
theorem Course.Logs.of_settle {observer : Observer} {node : String} {entries : List Entry} {index : Nat}
    {change : Moment → Entry → Entry} {next : Course}
    (h : (Course.settle index change next).Logs observer node entries) :
    ∃ e, entries[index]? = some e ∧ e.nodeId = node ∧ e.status = .running := by
  cases h with
  | unbegun hc _ => exact hc.elim
  | running hc he hid hrunning => exact ⟨_, hc.1 ▸ he, hid, hrunning⟩
  | settled hc _ _ => exact hc.elim

/-! ## Panics -/

/-- Entries of one node are one entry. -/
theorem index_unique {entries : List Entry} (hnodup : (entries.map Entry.nodeId).Nodup) {i j : Nat}
    {d e : Entry} (hd : entries[i]? = some d) (he : entries[j]? = some e)
    (h : d.nodeId = e.nodeId) : i = j := by
  have hi : i < (entries.map Entry.nodeId).length := by
    rw [List.length_map]
    exact (List.getElem?_eq_some_iff.1 hd).1
  refine (List.getElem?_inj hi hnodup).1 ?_
  rw [List.getElem?_map, List.getElem?_map, hd, he]
  exact congrArg some h

/-- When note has been taken of the end of a course, its entry tells it. -/
theorem Course.Logs.record {observer : Observer} {node : String} {w : Wave} {i : Nat}
    {ending : Ending} (h : (Course.ended ending).Logs observer node w.world.trace.entries)
    (hnodup : (w.world.trace.entries.map Entry.nodeId).Nodup) (hnode : w.ids.getD i "" = node) :
    (∃ e ∈ (w.record i ending).world.trace.entries,
        e.nodeId = node ∧ e.Tells observer node ending) ∧
      Touches [node] w.world.trace.entries (w.record i ending).world.trace.entries := by
  cases h with
  | unbegun hc _ => exact hc.elim
  -- the panic came first: the entry is still running, and it is the one found and failed
  | @running index e hc he hid hrunning =>
    obtain ⟨message, rfl⟩ := hc
    have hfails : (w.record i (.aborted message)).world.trace.entries
        = w.world.trace.entries.modify index fun e => e.fail w.world.moment message := by
      refine modifyFirst_eq_modify he ?_ fun j b hb hp => ?_
      · rw [hnode, hid, hrunning]
        simp [Status.isTerminal]
      · rw [hnode, Bool.and_eq_true, decide_eq_true_eq] at hp
        exact index_unique hnodup hb he (hp.1.trans hid.symm)
    rw [hfails]
    refine ⟨⟨e.fail w.world.moment message, List.mem_of_getElem? (i := index) ?_, hid, ?_⟩, ?_⟩
    · rw [List.getElem?_modify_eq, he]
      rfl
    · exact .inl ⟨rfl, rfl⟩
    · exact hid ▸ Touches.modify he rfl
  | @settled e htells he hid =>
    have hsettled : (w.record i ending).world.trace.entries = w.world.trace.entries := by
      cases ending with
      | passed => rfl
      | failed _ => rfl
      -- the host panicked at being told: the entry is final, so there is none to be failed
      | aborted message =>
        refine modifyFirst_eq_self fun b hb => ?_
        by_cases hb' : b.nodeId = node
        · obtain rfl : b = e := List.inj_on_of_nodup_map hnodup hb he (hb'.trans hid.symm)
          rw [Entry.Tells.isSettled htells |>.isTerminal, Bool.not_true, Bool.and_false]
        · rw [hnode, decide_eq_false hb', Bool.false_and]
    rw [hsettled]
    exact ⟨⟨e, he, hid, htells⟩, .refl _ _⟩

/-! ## Waves -/

/-- Handing out a permit changes no entry. -/
theorem Course.logs_of_permit {observer : Observer} {node : String} {entries : List Entry}
    {next : Course} (h : (Course.permit next).Logs observer node entries) :
    next.Logs observer node entries := by
  cases h with
  | unbegun hc hnone => exact .unbegun hc hnone
  | running hc _ _ _ => exact hc.elim
  | settled hc _ _ => exact hc.elim

/-- Waking a course changes no entry. -/
theorem Course.logs_wake {observer : Observer} {node : String} {entries : List Entry} {c : Course}
    (h : c.Logs observer node entries) (purpose : Purpose) :
    (c.wake purpose).Logs observer node entries := by
  -- only three kinds of courses are changed by waking, and each of them has its entry open
  unfold wake
  split
  · cases h with
    | unbegun hc _ => exact hc.elim
    | running hc he hid hrunning => exact .running hc he hid hrunning
    | settled hc _ _ => exact hc.elim
  · cases h with
    | unbegun hc _ => exact hc.elim
    | running hc he hid hrunning => exact .running hc he hid hrunning
    | settled hc _ _ => exact hc.elim
  · cases h with
    | unbegun hc _ => exact hc.elim
    | running hc he hid hrunning => exact .running hc he hid hrunning
    | settled hc _ _ => exact hc.elim
  · exact h

namespace Wave

/-- The entries of the trace. -/
def entries (w : Wave) : List Entry := w.world.trace.entries

/-- The id of the node of a course. -/
def idAt (w : Wave) (i : Nat) : String := w.ids.getD i ""

/-- The id at a place of a wave is that of the node the course is of. -/
theorem idAt_eq {w : Wave} {nodes : List Node} (hids : w.ids = nodes.map Node.id) {i : Nat} {n : Node}
    (hn : nodes[i]? = some n) : w.idAt i = n.id := by
  rw [idAt, hids, List.getD_eq_getElem?_getD, List.getElem?_map, hn]
  rfl

/-- The entries of the nodes of the wave are as far as their courses are, and those of courses of
whose end note has been taken tell that end. -/
structure Logged (observer : Observer) (w : Wave) : Prop where
  length_ids : w.ids.length = w.courses.length
  nodup_ids : w.ids.Nodup
  nodup : (w.entries.map Entry.nodeId).Nodup
  logs : ∀ (i : Nat) (c : Course), w.courses[i]? = some c → c.Logs observer (w.idAt i) w.entries
  told : ∀ p ∈ w.endings,
    ∃ e ∈ w.entries, e.nodeId = w.idAt p.1 ∧ e.Tells observer (w.idAt p.1) p.2

variable {observer : Observer} {v w : Wave}

theorem idAt_mem {i : Nat} (hi : i < w.ids.length) : w.idAt i ∈ w.ids := by
  rw [idAt, List.getD_eq_getElem?_getD, List.getElem?_eq_getElem hi]
  exact List.getElem_mem hi

/-- Courses at different places are of different nodes. -/
theorem Logged.idAt_ne (h : w.Logged observer) {i j : Nat} (hi : i < w.courses.length)
    (hj : j < w.courses.length) (hne : j ≠ i) : w.idAt j ≠ w.idAt i := by
  rw [← h.length_ids] at hi hj
  rw [idAt, idAt, List.getD_eq_getElem?_getD, List.getD_eq_getElem?_getD,
    List.getElem?_eq_getElem hi, List.getElem?_eq_getElem hj]
  exact fun heq => hne ((h.nodup_ids.getElem_inj_iff).1 heq)

/-- A course goes on, and touches its own entry only. -/
theorem Logged.replace (h : w.Logged observer) {i : Nat} {d : Course} (hi : i < w.courses.length)
    (hids : v.ids = w.ids) (hcourses : v.courses = w.courses.set i d)
    (htouch : Touches [w.idAt i] w.entries v.entries) (hd : d.Logs observer (w.idAt i) v.entries)
    (hendings : ∀ p ∈ v.endings, p ∈ w.endings ∧ p.1 ≠ i ∧ p.1 < w.courses.length ∨
      ∃ e ∈ v.entries, e.nodeId = w.idAt p.1 ∧ e.Tells observer (w.idAt p.1) p.2) :
    v.Logged observer ∧ v.ids = w.ids ∧ Touches w.ids w.entries v.entries := by
  have hid : ∀ j, v.idAt j = w.idAt j := fun j => by rw [idAt, idAt, hids]
  refine ⟨⟨?_, hids ▸ h.nodup_ids, htouch.nodup h.nodup, ?_, ?_⟩, hids, htouch.mono ?_⟩
  · rw [hids, hcourses, List.length_set]
    exact h.length_ids
  · intro j c hc
    rw [hcourses] at hc
    rw [hid]
    by_cases hj : j = i
    · subst hj
      rw [List.getElem?_set_self hi] at hc
      exact Option.some.inj hc ▸ hd
    · rw [List.getElem?_set_ne (Ne.symm hj)] at hc
      -- the entries touched are of another node, as no two courses share an id
      refine (h.logs j c hc).touches htouch fun hmem => ?_
      exact h.idAt_ne hi (List.getElem?_eq_some_iff.1 hc).1 hj (List.mem_singleton.1 hmem)
  · intro p hp
    rw [hid]
    rcases hendings p hp with ⟨hp, hne, hlt⟩ | htold
    · obtain ⟨e, he, hnode, htells⟩ := h.told p hp
      refine ⟨e, htouch.mem he fun hmem => ?_, hnode, htells⟩
      exact h.idAt_ne hi hlt hne (hnode.symm.trans (List.mem_singleton.1 hmem))
    · exact htold
  · intro node hnode
    obtain rfl := List.mem_singleton.1 hnode
    exact idAt_mem (h.length_ids ▸ hi)

/-- Nothing happens to courses, endings and entries. -/
theorem Logged.same (h : w.Logged observer) (hids : v.ids = w.ids) (hcourses : v.courses = w.courses)
    (hendings : v.endings = w.endings) (hentries : v.entries = w.entries) :
    v.Logged observer ∧ v.ids = w.ids ∧ Touches w.ids w.entries v.entries := by
  have hid : ∀ j, v.idAt j = w.idAt j := fun j => by rw [idAt, idAt, hids]
  refine ⟨⟨?_, hids ▸ h.nodup_ids, hentries ▸ h.nodup, ?_, ?_⟩, hids, hentries ▸ .refl _ _⟩
  · rw [hids, hcourses]
    exact h.length_ids
  · intro i c hc
    rw [hid, hentries]
    exact h.logs i c (hcourses ▸ hc)
  · intro p hp
    rw [hid, hentries]
    exact h.told p (hendings ▸ hp)

/-- A course of whose end no note has been taken goes on. -/
theorem Logged.goOn (h : w.Logged observer) {width i : Nat} {c d : Course} (hline : InLine width w)
    (hc : w.courses[i]? = some c) (hsettled : i ∉ w.settled) (hids : v.ids = w.ids)
    (hcourses : v.courses = w.courses.set i d) (hendings : v.endings = w.endings)
    (htouch : Touches [w.idAt i] w.entries v.entries) (hd : d.Logs observer (w.idAt i) v.entries) :
    v.Logged observer ∧ v.ids = w.ids ∧ Touches w.ids w.entries v.entries := by
  refine h.replace (List.getElem?_eq_some_iff.1 hc).1 hids hcourses htouch hd fun p hp => .inl ?_
  rw [hendings] at hp
  have hmem : p.1 ∈ w.settled := List.mem_map_of_mem hp
  exact ⟨hp, fun heq => hsettled (heq ▸ hmem), hline.settled_lt hmem⟩

/-- Taking note of the end of a course leaves an entry that tells that end. -/
theorem logged_record {width i : Nat} {before after : List Nat} {ending : Ending} (h : w.Logged observer)
    (hline : InLine width w) (hready : w.ready = before ++ i :: after)
    (hc : w.courses[i]? = some (.ended ending)) {u : Wave}
    (hu : u = record { w with ready := before ++ after } i ending) :
    u.Logged observer ∧ u.ids = w.ids ∧ Touches w.ids w.entries u.entries := by
  obtain ⟨⟨e, he, hnode, htells⟩, htouch⟩ :=
    (h.logs i _ hc).record (w := { w with ready := before ++ after }) h.nodup rfl
  subst hu
  refine h.replace (List.getElem?_eq_some_iff.1 hc).1 rfl (set_eq_self hc).symm htouch
    (.settled htells he hnode) fun p hp => ?_
  -- an end noted before is that of another course, since this one was still in the line
  rcases List.mem_append.1 hp with hp | hp
  · have hmem : p.1 ∈ w.settled := List.mem_map_of_mem hp
    refine .inl ⟨hp, ?_, hline.settled_lt hmem⟩
    rintro rfl
    exact (hline.ready_open _ (head_mem_ready hready)).2 hmem
  · obtain rfl := List.mem_singleton.1 hp
    exact .inr ⟨e, he, hnode, htells⟩

/-- Handing on a permit changes no entry. -/
theorem logged_release {width : Nat} (h : w.Logged observer) (hline : InLine width w) :
    w.release.Logged observer ∧ w.release.ids = w.ids ∧ w.release.entries = w.entries := by
  unfold release
  split
  · obtain ⟨hlogged, -, -⟩ := h.same (v := { w with permits := w.permits + 1 }) rfl rfl rfl rfl
    exact ⟨hlogged, rfl, rfl⟩
  · rename_i j waiting hwaiting
    split
    · rename_i next hnext
      obtain ⟨hlogged, -, -⟩ := h.goOn
        (v := { w with waiting := waiting, courses := w.courses.set j next, ready := join j w.ready })
        hline hnext (hline.not_settled hnext fun _ => Course.noConfusion) rfl rfl rfl (.refl _ _)
        (Course.logs_of_permit (h.logs j _ hnext))
      exact ⟨hlogged, rfl, rfl⟩
    · obtain ⟨hlogged, -, -⟩ := h.same (v := { w with waiting := waiting }) rfl rfl rfl rfl
      exact ⟨hlogged, rfl, rfl⟩

/-- Every move keeps the log, and touches entries of the nodes of the wave only. -/
theorem logged_move [Schema.Validator] {width : Nat} (hwidth : 0 < width) (h : w.Logged observer)
    (hline : InLine width w) (hmove : Move observer w v) :
    v.Logged observer ∧ v.ids = w.ids ∧ Touches w.ids w.entries v.entries := by
  obtain ⟨width, rfl⟩ := Nat.exists_eq_add_of_lt hwidth
  cases hmove.change with
  | @acts i before after c t hready hc hturn =>
    obtain ⟨hlogs, htouch⟩ := Course.logs_turn hturn (h.logs i c hc)
    exact h.goOn hline hc (hline.ready_open i (head_mem_ready hready)).2 rfl rfl rfl htouch hlogs
  | rests _ _ _ _ _ => exact h.same rfl rfl rfl rfl
  | @enters i before after next hready hc _ =>
    exact h.goOn hline hc (hline.ready_open i (head_mem_ready hready)).2 rfl rfl rfl (.refl _ _)
      (Course.logs_of_permit (h.logs i _ hc))
  | queues _ _ _ => exact h.same rfl rfl rfl rfl
  | @ends i before after ending hready hc =>
    obtain ⟨hlogged, hids, htouch⟩ := logged_record h hline hready hc rfl
    rw [Nat.zero_add] at hline
    obtain ⟨hlogged', hids', hentries⟩ := logged_release hlogged (inLine_record hready hline hc)
    exact ⟨hlogged', hids'.trans hids, hentries ▸ htouch⟩
  | misses _ _ => exact h.same rfl rfl rfl rfl
  | @wakes t before after c htimers hc =>
    exact h.goOn hline hc (hline.not_settled_of_timer htimers) rfl rfl rfl (.refl _ _)
      (Course.logs_wake (h.logs _ _ hc) t.purpose)
  | lapses _ _ => exact h.same rfl rfl rfl rfl
  | outside _ _ _ => exact h.same rfl rfl rfl rfl

/-- In a wave of new nodes nothing has been logged yet. -/
theorem logged_ofNodes [Schema.Validator] {s : Settings} {world : World} {nodes : List Node}
    (hids : (nodes.map Node.id).Nodup) (hnodup : (world.trace.entries.map Entry.nodeId).Nodup)
    (hnew : ∀ n ∈ nodes, n.id ∉ world.trace.entries.map Entry.nodeId) :
    (ofNodes s world nodes).Logged observer where
  length_ids := by simp only [ofNodes, List.length_map]
  nodup_ids := hids
  nodup := hnodup
  logs i c hc := by
    rw [ofNodes, List.getElem?_map] at hc
    obtain ⟨n, hn, rfl⟩ := Option.map_eq_some_iff.1 hc
    rw [idAt_eq (w := ofNodes s world nodes) rfl hn]
    exact .unbegun (Course.isUnbegun_ofNode observer s n) (hnew n (List.mem_of_getElem? hn))
  told p hp := absurd hp List.not_mem_nil

/-- When a wave is over, every node of it has an entry, which is settled. -/
theorem Logged.settled_of_isOver (h : w.Logged observer) (hover : w.IsOver) {node : String}
    (hnode : node ∈ w.ids) : ∃ e ∈ w.entries, e.nodeId = node ∧ e.IsSettled := by
  obtain ⟨i, hi, rfl⟩ := List.mem_iff_getElem.1 hnode
  obtain ⟨p, hp, rfl⟩ := List.mem_map.1 (hover i (h.length_ids ▸ hi))
  obtain ⟨e, he, hid, htells⟩ := h.told p hp
  refine ⟨e, he, hid.trans ?_, htells.isSettled⟩
  rw [idAt, List.getD_eq_getElem?_getD, List.getElem?_eq_getElem hi]
  rfl

end Wave

end Wavefront
