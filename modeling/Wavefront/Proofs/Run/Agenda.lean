/-
Agendas: what the nodes of a graph will write, wave by wave, and why every execution does just that.

An agenda gives every node of the graph its job. In each wave the nodes leave each other alone, from
the context on that the wave begins with, and the next wave begins with what all their writes make
of it. Then the order of turns does not matter: an execution that is over, and in which nothing kept
the nodes from their jobs, leaves what the last wave of the agenda leaves, and its trace says of
every node what its job says: the value that it came to, or that it refused what it read.
-/
import Wavefront.Proofs.Run.Confluence
import Wavefront.Proofs.Run.Execution

set_option autoImplicit false

namespace Wavefront

variable [Schema.Validator]

/-- The jobs of waves that come one after the other, from a context on to a last one. -/
inductive Agenda : Value → List (List Job) → (final : Value) → Prop
  | nil (c : Value) : Agenda c [] c
  | cons {c : Value} {jobs : List Job} {stages : List (List Job)} {final : Value}
      (hjobs : Job.Independent c jobs) (hworks : ∀ j ∈ jobs, ∀ s, j.Works s)
      (hrest : Agenda (c.setAll (Job.writes jobs)) stages final) : Agenda c (jobs :: stages) final

omit [Schema.Validator] in
/-- No jobs leave each other alone. -/
theorem Job.independent_nil (c : Value) : Job.Independent c [] where
  settable := ⟨List.nodup_nil, fun _ hp => absurd hp List.not_mem_nil,
    fun _ hp => absurd hp List.not_mem_nil⟩
  reads _ hj := absurd hj List.not_mem_nil
  keep _ hj := absurd hj List.not_mem_nil

omit [Schema.Validator] in
/-- A node that is alone in its wave only has to be able to write. -/
theorem Job.independent_singleton {c v : Value} {j : Job} (hvalue : j.value? = some v)
    (hfault : (c.set j.node.task.target v).fault = none) (hreads : j.reads c) :
    Job.Independent c [j] := by
  have hwrite := j.write?_of_value? hvalue
  have hwrites : Job.writes [j] = [(j.node.task.target, v)] := by
    rw [Job.writes, List.filterMap_cons_some hwrite, List.filterMap_nil]
  refine ⟨hwrites ▸ ⟨List.nodup_singleton _, fun p hp => ?_, fun p hp q hq hne => ?_⟩, ?_, ?_⟩
  · obtain rfl := List.mem_singleton.1 hp
    exact hfault
  · exact absurd ((List.mem_singleton.1 hp).trans (List.mem_singleton.1 hq).symm) hne
  · intro k hk
    obtain rfl := List.mem_singleton.1 hk
    exact hreads
  · intro k hk p hp hne
    obtain rfl := List.mem_singleton.1 hk
    obtain rfl := List.mem_singleton.1 (hwrites ▸ hp)
    exact absurd hwrite hne

/-- The jobs of the next wave, and the agenda behind it; behind the last wave there is nothing to
do. -/
theorem Agenda.next {c final : Value} {stages : List (List Job)} {k : Nat}
    (h : Agenda c (stages.drop k) final) :
    Job.Independent c (stages.getD k []) ∧ (∀ j ∈ stages.getD k [], ∀ s, j.Works s) ∧
      Agenda (c.setAll (Job.writes (stages.getD k []))) (stages.drop (k + 1)) final := by
  rw [List.getD_eq_getElem?_getD]
  rcases Nat.lt_or_ge k stages.length with hlt | hge
  · rw [List.drop_eq_getElem_cons hlt] at h
    rw [List.getElem?_eq_getElem hlt, Option.getD_some]
    cases h with
    | cons hjobs hworks hrest => exact ⟨hjobs, hworks, hrest⟩
  -- behind the last stage there is nothing to do, and that is always done
  · rw [List.drop_eq_nil_of_le hge] at h
    rw [List.getElem?_eq_none hge, Option.getD_none, List.drop_eq_nil_of_le (Nat.le_succ_of_le hge)]
    exact ⟨Job.independent_nil c, fun _ hj => absurd hj List.not_mem_nil, h⟩

/-! ## What an execution shows -/

/-- The node has not succeeded, though its tools did: by its entry, it was interrupted, or it
refused a context. -/
def Entry.Stopped (observer : Observer) (n : Node) (e : Entry) : Prop :=
  e.Interrupted observer n ∨ ∃ context, e.Refuses n context

/-- A node that was stopped has not succeeded. -/
theorem Entry.Stopped.status_ne_success {observer : Observer} {n : Node} {e : Entry}
    (h : e.Stopped observer n) : e.status ≠ .success := by
  intro hsuccess
  rcases h with h | ⟨_, h⟩
  · rcases h.status with h | h
    · exact nomatch hsuccess.symm.trans h
    · exact nomatch hsuccess.symm.trans h
  · exact nomatch hsuccess.symm.trans h.status

namespace Execution

variable {e : Execution} {o : Options}

/-- None of the nodes was interrupted, by the trace. -/
def Uninterrupted (e : Execution) (o : Options) (nodes : List Node) : Prop :=
  ∀ n ∈ nodes, ∀ entry ∈ e.wave.entries, entry.nodeId = n.id → ¬ entry.Interrupted o.observer n

/-- None of the nodes was stopped, by the trace: none was interrupted, and none refused a
context. -/
def Undisturbed (e : Execution) (o : Options) (nodes : List Node) : Prop :=
  ∀ n ∈ nodes, ∀ entry ∈ e.wave.entries, entry.nodeId = n.id → ¬ entry.Stopped o.observer n

/-- Nothing kept the nodes of the jobs from them, by the trace. -/
def SparesAll (e : Execution) (o : Options) (jobs : List Job) : Prop :=
  ∀ j ∈ jobs, ∀ entry ∈ e.wave.entries, entry.nodeId = j.node.id → entry.Spares o.observer j

/-- Where nothing disturbs the nodes their jobs are spared. -/
theorem Undisturbed.sparesAll {jobs : List Job} (h : e.Undisturbed o (jobs.map Job.node)) :
    e.SparesAll o jobs := by
  intro j hj entry hentry hid
  have hcalm := h j.node (List.mem_map_of_mem hj) entry hentry hid
  exact ⟨fun hstop => hcalm (.inl hstop), fun context _ _ hrefuses => hcalm (.inr ⟨context, hrefuses⟩)⟩

/-- Where nodes with a value accept what their jobs read, none but an interruption keeps them. -/
theorem Uninterrupted.sparesAll {jobs : List Job} (h : e.Uninterrupted o (jobs.map Job.node))
    (haccepts : ∀ j ∈ jobs, j.value? ≠ none → ∀ context, j.reads context →
      j.node.accepts context = true) : e.SparesAll o jobs := by
  refine fun j hj entry hentry hid => ⟨h j.node (List.mem_map_of_mem hj) entry hentry hid, ?_⟩
  intro context hvalue hreads hrefuses
  exact Bool.noConfusion
    ((haccepts j hj hvalue context hreads).symm.trans hrefuses.accepts_eq_false)

/-- Nodes that succeeded were not stopped. -/
theorem undisturbed_of_success (o : Options) (nodes : List Node)
    (h : ∀ entry ∈ e.wave.entries, entry.status = .success) : e.Undisturbed o nodes :=
  fun _ _ entry hentry _ hstopped => hstopped.status_ne_success (h entry hentry)

/-- Entries that have all succeeded tell of a run that nothing disturbed. -/
theorem undisturbed_of_map_status (o : Options) (nodes : List Node) {k : Nat}
    (h : e.wave.entries.map Entry.status = List.replicate k .success) : e.Undisturbed o nodes :=
  undisturbed_of_success o nodes fun _ hentry =>
    List.eq_of_mem_replicate (h ▸ List.mem_map_of_mem hentry)

/-- The trace says what the node has come to: the value that it succeeded with, or, without one,
that it refused a context. -/
def Shows (e : Execution) (n : Node) (value? : Option Value) : Prop :=
  ∃ entry ∈ e.wave.entries, entry.nodeId = n.id ∧ entry.Says n value?

end Execution

/-! ## Executions by an agenda -/

namespace Graph

/-- The jobs that come before a wave. -/
def jobsBefore (stages : List (List Job)) (k : Nat) : List Job := (stages.take k).flatten

omit [Schema.Validator] in
/-- One wave further on the jobs of that wave are added. -/
theorem jobsBefore_succ (stages : List (List Job)) (k : Nat) :
    jobsBefore stages (k + 1) = jobsBefore stages k ++ stages.getD k [] := by
  rw [jobsBefore, jobsBefore, List.take_add_one, List.flatten_append, List.getD_eq_getElem?_getD]
  cases stages[k]? with
  | none => rfl
  | some jobs => rw [Option.toList_some, List.flatten_singleton, Option.getD_some]

variable {g : Graph} {o : Options} {e : Execution} {stages : List (List Job)} {final : Value}

omit [Schema.Validator] in
/-- The jobs of a wave are those of its nodes. -/
theorem map_node_getD (hstages : stages.map (List.map Job.node) = [] :: g.schedule.waves) (k : Nat) :
    (stages.getD k []).map Job.node = g.wave k := by
  rw [wave, ← hstages, List.getD_eq_getElem?_getD, List.getD_eq_getElem?_getD, List.getElem?_map]
  cases stages[k]? <;> rfl

omit [Schema.Validator] in
/-- A job that comes before a wave is that of a node of an earlier one. -/
theorem exists_of_mem_jobsBefore
    (hstages : stages.map (List.map Job.node) = [] :: g.schedule.waves) {k : Nat} {j : Job}
    (hj : j ∈ jobsBefore stages k) : ∃ i < k, j.node ∈ g.wave i := by
  induction k with
  | zero => exact absurd hj List.not_mem_nil
  | succ k ih =>
    rw [jobsBefore_succ] at hj
    rcases List.mem_append.1 hj with hj | hj
    · obtain ⟨i, hi, hwave⟩ := ih hj
      exact ⟨i, Nat.lt_succ_of_lt hi, hwave⟩
    · exact ⟨k, Nat.lt_succ_self k, map_node_getD hstages k ▸ List.mem_map_of_mem hj⟩

/-- As long as nothing kept the nodes before from their jobs, the wave that is under way began with
a context of the agenda, and the trace says what all nodes before have come to. -/
structure Follows (stages : List (List Job)) (final : Value) (o : Options) (e : Execution) (c : Value) :
    Prop where
  rest : Agenda c (stages.drop e.past.length) final
  tracked : e.SparesAll o (jobsBefore stages e.past.length) →
    ∃ done, e.wave.Tracked o.observer c (stages.getD e.past.length []) done
  shown : e.SparesAll o (jobsBefore stages e.past.length) →
    ∀ j ∈ jobsBefore stages e.past.length, e.Shows j.node j.value?

omit [Schema.Validator] in
/-- The jobs of past waves are not among the nodes of the present one. -/
theorem Traced.not_mem_ids (h : g.Traced o e)
    (hstages : stages.map (List.map Job.node) = [] :: g.schedule.waves) {j : Job}
    (hj : j ∈ jobsBefore stages e.past.length) : j.node.id ∉ e.wave.ids := by
  obtain ⟨k, hk, hwave⟩ := exists_of_mem_jobsBefore hstages hj
  intro hmem
  have heq := (mem_wave.1 hwave).2.unique (h.mem_wave_ids.1 hmem)
  omega

namespace Follows

variable {c : Value}

/-- A move leaves the entries of the waves before alone, and keeps track of its own. -/
theorem move (hstages : stages.map (List.map Job.node) = [] :: g.schedule.waves)
    (htraced : g.Traced o e) (h : Follows stages final o e c) {v : Wave}
    (hmove : Wave.Move o.observer e.wave v) : Follows stages final o { e with wave := v } c := by
  obtain ⟨-, -, htouch⟩ := Wave.logged_move (width_pos o) htraced.logged htraced.inLine hmove
  have hkeep : ∀ j ∈ jobsBefore stages e.past.length, ∀ entry ∈ e.wave.entries,
      entry.nodeId = j.node.id → entry ∈ v.entries := fun j hj entry hentry hid =>
    htouch.mem hentry (hid ▸ htraced.not_mem_ids hstages hj)
  -- the entries of past stages are none of this wave's, so the move keeps them
  have hback : ({ e with wave := v } : Execution).SparesAll o (jobsBefore stages e.past.length) →
      e.SparesAll o (jobsBefore stages e.past.length) := fun hspared j hj entry hentry hid =>
    hspared j hj entry (hkeep j hj entry hentry hid) hid
  refine ⟨h.rest, fun hspared => ?_, fun hspared j hj => ?_⟩
  · obtain ⟨done, htracked⟩ := h.tracked (hback hspared)
    exact Wave.tracked_move h.rest.next.1 htracked htraced.logged htraced.inLine hmove
  · obtain ⟨entry, hentry, hid, hsays⟩ := h.shown (hback hspared) j hj
    exact ⟨entry, hkeep j hj entry hentry hid, hid, hsays⟩

/-- When the wave that is under way is over, its nodes have done their jobs. -/
theorem isOver (htraced : g.Traced o e) (h : Follows stages final o e c) (hover : e.wave.IsOver) :
    ∃ d, Agenda d (stages.drop (e.past.length + 1)) final ∧
      (e.SparesAll o (jobsBefore stages (e.past.length + 1)) → e.wave.world.context = d ∧
        ∀ j ∈ jobsBefore stages (e.past.length + 1), e.Shows j.node j.value?) := by
  obtain ⟨hjobs, -, hrest⟩ := h.rest.next
  refine ⟨_, hrest, fun hspared => ?_⟩
  rw [jobsBefore_succ] at hspared
  have hpast : e.SparesAll o (jobsBefore stages e.past.length) := fun j hj =>
    hspared j (List.mem_append_left _ hj)
  obtain ⟨done, htracked⟩ := h.tracked hpast
  -- the stage is over, and what its wave has tracked is what its jobs write
  obtain ⟨hcontext, hshown⟩ := htracked.of_isOver hjobs htraced.logged hover
    fun j hj => hspared j (List.mem_append_right _ hj)
  refine ⟨hcontext, fun j hj => ?_⟩
  rw [jobsBefore_succ] at hj
  rcases List.mem_append.1 hj with hj | hj
  · exact h.shown hpast j hj
  · exact hshown j hj

/-- The next wave begins with what the agenda made of the last one. -/
theorem next (hstages : stages.map (List.map Job.node) = [] :: g.schedule.waves)
    (htraced : g.Traced o e) (h : Follows stages final o e c) (hover : e.wave.IsOver)
    {nodes : List Node} {waves : List (List Node)} (hwaves : e.waves = nodes :: waves) :
    ∃ d, Follows stages final o
      { past := e.past ++ [e.wave]
        wave := .ofNodes o.settings e.wave.world nodes
        waves := waves } d := by
  obtain ⟨d, hrest, hover'⟩ := h.isOver htraced hover
  have hlength : (e.past ++ [e.wave]).length = e.past.length + 1 := List.length_append
  obtain rfl := htraced.wave_succ hwaves
  refine ⟨d, hlength ▸ hrest, fun hspared => ⟨[], ?_⟩, fun hspared => ?_⟩
  · rw [hlength] at hspared ⊢
    rw [← map_node_getD hstages]
    refine Wave.tracked_ofNodes (hover' hspared).1 (fun j hj => hrest.next.2.1 j hj o.settings) ?_
    -- no node of the next wave has an entry yet
    intro j hj
    refine htraced.not_mem_of_wave_succ ?_
    rw [← map_node_getD hstages]
    exact List.mem_map_of_mem hj
  · rw [hlength] at hspared ⊢
    exact (hover' hspared).2

end Follows

variable {context : Value}

/-- Every execution follows an agenda of its graph. -/
theorem Reaches.follows (hagenda : Agenda context stages final)
    (hstages : stages.map (List.map Job.node) = g.schedule.waves) {mode : Mode}
    (h : g.Reaches context mode o e) : ∃ c, Follows ([] :: stages) final o e c := by
  have hnodes : ([] :: stages).map (List.map Job.node) = [] :: g.schedule.waves :=
    congrArg (List.cons []) hstages
  induction h with
  -- the empty wave at the start is the stage without jobs
  | refl =>
    refine ⟨context, ?_, fun _ => ⟨[], ?_⟩, fun _ j hj => absurd hj List.not_mem_nil⟩
    · exact .cons (Job.independent_nil context) (fun _ hj => absurd hj List.not_mem_nil) hagenda
    · have hbegin : (Wave.ofNodes o.settings (o.world context mode) (([] : List Job).map
          Job.node)).Tracked o.observer context [] [] :=
        Wave.tracked_ofNodes rfl (fun _ hj => absurd hj List.not_mem_nil)
          fun _ hj => absurd hj List.not_mem_nil
      exact hbegin
  | tail hreaches hstep ih =>
    obtain ⟨c, hfollows⟩ := ih
    have htraced := Reaches.traced hreaches
    cases hstep with
    | move hmove => exact ⟨c, hfollows.move hnodes htraced hmove⟩
    | next hover hwaves => exact hfollows.next hnodes htraced hover hwaves

/-- When an execution is over and nothing kept the nodes from their jobs, the context is the last
one of the agenda, and the trace says of every node what its job says. -/
theorem Reaches.final_of_isOver (hagenda : Agenda context stages final)
    (hstages : stages.map (List.map Job.node) = g.schedule.waves) {mode : Mode}
    (h : g.Reaches context mode o e) (hover : e.IsOver) (hspared : e.SparesAll o stages.flatten) :
    e.wave.world.context = final ∧ ∀ j ∈ stages.flatten, e.Shows j.node j.value? := by
  have hlength : ([] :: stages).length ≤ e.past.length + 1 := by
    have hlast := List.drop_eq_nil_iff.1 (h.traced.waves.symm.trans hover.2)
    rw [← hstages, List.length_map] at hlast
    exact Nat.succ_le_succ hlast
  have hbefore : jobsBefore ([] :: stages) (e.past.length + 1) = stages.flatten := by
    rw [jobsBefore, List.take_of_length_le hlength, List.flatten_cons, List.nil_append]
  obtain ⟨c, hfollows⟩ := h.follows hagenda hstages
  obtain ⟨d, hrest, hover'⟩ := hfollows.isOver h.traced hover.1
  -- no stage is left, so the context is the last one of the agenda
  rw [List.drop_eq_nil_of_le hlength] at hrest
  rw [hbefore] at hover'
  cases hrest with
  | nil => exact hover' hspared

omit [Schema.Validator] in
/-- The nodes of an agenda of a graph are nodes of the graph. -/
theorem node_mem_of_stages (hstages : stages.map (List.map Job.node) = g.schedule.waves) {n : Node}
    (hn : n ∈ stages.flatten.map Job.node) : n ∈ g.nodes := by
  rw [List.map_flatten, hstages] at hn
  obtain ⟨nodes, hnodes, hn⟩ := List.mem_flatten.1 hn
  obtain ⟨k, rfl⟩ := exists_wave_eq hnodes
  exact (mem_wave.1 hn).1

end Graph

/-- Where no node of a graph was stopped, nothing kept the nodes from the jobs of an agenda of
it. -/
theorem Execution.Undisturbed.sparesAll_of_stages {g : Graph} {o : Options} {e : Execution}
    {stages : List (List Job)} (h : e.Undisturbed o g.nodes)
    (hstages : stages.map (List.map Job.node) = g.schedule.waves) : e.SparesAll o stages.flatten :=
  Undisturbed.sparesAll fun n hn => h n (Graph.node_mem_of_stages hstages hn)

end Wavefront
