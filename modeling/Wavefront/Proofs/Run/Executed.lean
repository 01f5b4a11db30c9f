/-
What an execution leaves when it is over, and what its trace is on the way.

Whatever the tools do and whoever has the next turn, the nodes that are executed are those that can
be executed, each of them once and in its wave; a node that failed or was cancelled lets those that
wait for it go on as well as one that succeeded. What is left makes the run fail before all else;
then the first wave does in which a node failed.

The trace has one entry for each node that was executed. It is appended after those of all
dependencies have ended, and the entries of one wave stand before those of the next.
-/
import Wavefront.Proofs.Run.Execution
import Wavefront.Tool.Stock
import Wavefront.Schema.Reader

set_option autoImplicit false

namespace Wavefront

/-- The error that a run failed with. -/
def Report.error? (r : Report) : Option Error :=
  match r.result with
  | .ok _ => none
  | .error failure => some failure.error

/-- The trace of a run, if it ever began. -/
def Report.trace? (r : Report) : Option Trace :=
  match r.result with
  | .ok success => some success.trace
  | .error failure => failure.trace

/-- Of entries that have all ended, each is counted once, and none as skipped. -/
theorem Statistics.ofEntries_of_isSettled {entries : List Entry} (h : ∀ e ∈ entries, e.IsSettled) :
    (ofEntries entries).total = (ofEntries entries).successful + (ofEntries entries).failed
        + (ofEntries entries).cancelled ∧
      (ofEntries entries).skipped = 0 := by
  -- of the six counts, those of the three other states are zero
  have hnone : ∀ status, status ≠ .success → status ≠ .failed → status ≠ .cancelled →
      countStatus status entries = 0 := by
    intro status hsuccess hfailed hcancelled
    rw [countStatus, List.countP_eq_zero]
    intro e he
    rw [decide_eq_true_eq]
    rintro rfl
    rcases h e he with hstatus | hstatus | hstatus
    · exact hsuccess hstatus
    · exact hfailed hstatus
    · exact hcancelled hstatus
  have hskipped : (ofEntries entries).skipped = 0 :=
    hnone .skipped (by decide) (by decide) (by decide)
  have htotal := total_ofEntries entries
  rw [hskipped, hnone .pending (by decide) (by decide) (by decide),
    hnone .running (by decide) (by decide) (by decide)] at htotal
  exact ⟨htotal, hskipped⟩

namespace Execution

/-- How the nodes of a wave ended, by the number of the wave. -/
def outcomesAt (e : Execution) (k : Nat) : List (String × Ending) :=
  (e.allWaves.map Wave.outcomes).getD k []

/-- How all nodes ended that have been executed. -/
def outcomes (e : Execution) : List (String × Ending) := (e.allWaves.map Wave.outcomes).flatten

/-- The ids of the entries of the trace. -/
def tracedIds (e : Execution) : List String := e.wave.entries.map Entry.nodeId

/-- The error is that of a node of the wave of a number that failed, and no node of an earlier wave
did. -/
def FailsFirst (e : Execution) (k : Nat) (error : Error) : Prop :=
  (∃ p ∈ e.outcomesAt k, p.2.error? p.1 = some error ∧ ∃ message, error = .nodeFailed p.1 message) ∧
    ∀ j < k, ∀ p ∈ e.outcomesAt j, p.2.error? p.1 = none

/-- The outcomes of a wave are those of the wave at its number. -/
theorem outcomesAt_of_getElem? {e : Execution} {k : Nat} {w : Wave} (h : e.allWaves[k]? = some w) :
    e.outcomesAt k = w.outcomes := by
  rw [outcomesAt, List.getD_eq_getElem?_getD, List.getElem?_map, h]
  rfl

/-- Waves that have not begun have no outcomes. -/
theorem outcomesAt_of_le {e : Execution} {k : Nat} (h : e.allWaves.length ≤ k) :
    e.outcomesAt k = [] := by
  rw [outcomesAt, List.getD_eq_getElem?_getD, List.getElem?_map, List.getElem?_eq_none h]
  rfl

/-- An outcome of the execution is an outcome of one of its waves. -/
theorem mem_outcomes {e : Execution} {p : String × Ending} :
    p ∈ e.outcomes ↔ ∃ k, p ∈ e.outcomesAt k := by
  rw [outcomes, List.mem_flatten]
  constructor
  · rintro ⟨l, hl, hp⟩
    obtain ⟨k, hk⟩ := List.mem_iff_getElem?.1 hl
    refine ⟨k, ?_⟩
    rwa [outcomesAt, List.getD_eq_getElem?_getD, hk]
  · rintro ⟨k, hp⟩
    rw [outcomesAt, List.getD_eq_getElem?_getD] at hp
    cases hk : (e.allWaves.map Wave.outcomes)[k]? with
    | none =>
      rw [hk] at hp
      exact absurd hp List.not_mem_nil
    | some l =>
      rw [hk] at hp
      exact ⟨l, List.mem_of_getElem? hk, hp⟩

theorem length_allWaves (e : Execution) : e.allWaves.length = e.past.length + 1 := by
  rw [allWaves, List.length_append, List.length_singleton]

/-- The error that is found first is that of the first wave in which a node failed. -/
theorem firstError?_eq_none_iff {e : Execution} :
    e.firstError? = none ↔ ∀ p ∈ e.outcomes, p.2.error? p.1 = none := by
  rw [firstError?, List.findSome?_eq_none_iff]
  constructor
  · intro h p hp
    obtain ⟨l, hl, hp⟩ := List.mem_flatten.1 hp
    obtain ⟨w, hw, rfl⟩ := List.mem_map.1 hl
    have hnone := h w hw
    rw [Wave.firstError?_eq, List.findSome?_eq_none_iff] at hnone
    exact hnone p hp
  · intro h w hw
    rw [Wave.firstError?_eq, List.findSome?_eq_none_iff]
    exact fun p hp => h p (List.mem_flatten.2 ⟨_, List.mem_map_of_mem hw, hp⟩)

/-- The first error of an execution is that of the first wave with a failure in it. -/
theorem exists_of_firstError?_eq_some {e : Execution} {error : Error}
    (h : e.firstError? = some error) :
    ∃ k, (∃ p ∈ e.outcomesAt k, p.2.error? p.1 = some error) ∧
      ∀ j < k, ∀ p ∈ e.outcomesAt j, p.2.error? p.1 = none := by
  rw [firstError?, List.findSome?_eq_some_iff] at h
  obtain ⟨before, w, after, hall, hw, hbefore⟩ := h
  have hget : e.allWaves[before.length]? = some w := by
    rw [hall, List.getElem?_append_right (Nat.le_refl _), Nat.sub_self]
    rfl
  refine ⟨before.length, ?_, fun j hj p hp => ?_⟩
  · rw [outcomesAt_of_getElem? hget]
    rw [Wave.firstError?_eq] at hw
    exact List.exists_of_findSome?_eq_some hw
  · have hgetj : e.allWaves[j]? = some before[j] := by
      rw [hall, List.getElem?_append_left hj, List.getElem?_eq_getElem hj]
    rw [outcomesAt_of_getElem? hgetj] at hp
    have hnone := hbefore before[j] (List.getElem_mem hj)
    rw [Wave.firstError?_eq, List.findSome?_eq_none_iff] at hnone
    exact hnone p hp

end Execution

namespace Graph

variable {g : Graph} {o : Options} {e : Execution}

namespace Traced

/-- When the wave that is under way is over, all waves are, and the trace tells of all courses. -/
theorem all (h : g.Traced o e) (hover : e.wave.IsOver) {k : Nat} {w : Wave}
    (hw : e.allWaves[k]? = some w) :
    (w.outcomes.map Prod.fst).Perm w.ids ∧
      ∀ p ∈ w.outcomes, ∃ entry ∈ e.wave.entries, entry.nodeId = p.1 ∧ entry.Tells o.observer p.1 p.2 := by
  rcases List.mem_append.1 (List.mem_of_getElem? hw) with hpast | hnow
  · exact ⟨Wave.outcomes_perm (h.settled w hpast), h.told w hpast⟩
  · obtain rfl := List.mem_singleton.1 hnow
    have hperm := h.inLine.settled_perm hover
    rw [← h.logged.length_ids] at hperm
    refine ⟨Wave.outcomes_perm hperm, fun p hp => ?_⟩
    obtain ⟨q, hq, rfl⟩ := List.mem_map.1 hp
    exact h.logged.told q hq

/-- Every node of a wave so far is in the outcomes of that wave, and no other is. -/
theorem mem_outcomesAt (h : g.Traced o e) (hover : e.IsOver) {k : Nat} {id : String} :
    id ∈ (e.outcomesAt k).map Prod.fst ↔ g.InWave id k := by
  cases hw : e.allWaves[k]? with
  | some w =>
    rw [Execution.outcomesAt_of_getElem? hw, (h.all hover.1 hw).1.mem_iff, h.ids k w hw, mem_map_wave]
  | none =>
    have hle : e.allWaves.length ≤ k := List.getElem?_eq_none_iff.1 hw
    rw [Execution.outcomesAt_of_le hle]
    refine ⟨fun hid => absurd hid List.not_mem_nil, fun hwave => ?_⟩
    -- there are no more waves than have been executed
    rw [Execution.length_allWaves] at hle
    have hlast : g.schedule.waves.length ≤ e.past.length :=
      List.drop_eq_nil_iff.1 (h.waves.symm.trans hover.2)
    rw [← mem_map_wave, wave, List.getD_eq_getElem?_getD, List.getElem?_eq_none] at hwave
    · exact absurd hwave List.not_mem_nil
    · rw [List.length_cons]
      omega

/-- When an execution is over, those executed are exactly those that can be. -/
theorem mem_outcomes_iff (h : g.Traced o e) (hover : e.IsOver) {id : String} :
    id ∈ e.outcomes.map Prod.fst ↔ g.Runnable id := by
  rw [runnable_iff_exists_inWave, List.mem_map]
  constructor
  · rintro ⟨p, hp, rfl⟩
    obtain ⟨k, hk⟩ := Execution.mem_outcomes.1 hp
    exact ⟨k, (h.mem_outcomesAt hover).1 (List.mem_map_of_mem hk)⟩
  · rintro ⟨k, hwave⟩
    obtain ⟨p, hp, rfl⟩ := List.mem_map.1 ((h.mem_outcomesAt hover).2 hwave)
    exact ⟨p, Execution.mem_outcomes.2 ⟨k, hp⟩, rfl⟩

/-- No node is executed twice. -/
theorem nodup_outcomes (h : g.Traced o e) (hover : e.IsOver) :
    (e.outcomes.map Prod.fst).Nodup := by
  have hmem : ∀ {k : Nat} (hk : k < e.allWaves.length) (id : String),
      id ∈ e.allWaves[k].outcomes.map Prod.fst ↔ g.InWave id k := by
    intro k hk id
    have hw : e.allWaves[k]? = some e.allWaves[k] := List.getElem?_eq_getElem hk
    rw [(h.all hover.1 hw).1.mem_iff, h.ids k _ hw, mem_map_wave]
  rw [Execution.outcomes, List.map_flatten, List.map_map, List.nodup_flatten]
  constructor
  · intro l hl
    obtain ⟨w, hw, rfl⟩ := List.mem_map.1 hl
    obtain ⟨k, hk⟩ := List.mem_iff_getElem?.1 hw
    refine (h.all hover.1 hk).1.nodup_iff.2 ?_
    rw [h.ids k w hk]
    exact g.nodup_wave k
  · rw [List.pairwise_map, List.pairwise_iff_getElem]
    intro i j hi hj hlt id hidi hidj
    -- nobody is in two waves
    have heq := ((hmem hi id).1 hidi).unique ((hmem hj id).1 hidj)
    omega

/-- The trace tells of each outcome. -/
theorem tells_of_mem_outcomes (h : g.Traced o e) (hover : e.wave.IsOver) {p : String × Ending}
    (hp : p ∈ e.outcomes) :
    ∃ entry ∈ e.wave.entries, entry.nodeId = p.1 ∧ entry.Tells o.observer p.1 p.2 := by
  obtain ⟨l, hl, hp⟩ := List.mem_flatten.1 hp
  obtain ⟨w, hw, rfl⟩ := List.mem_map.1 hl
  obtain ⟨k, hk⟩ := List.mem_iff_getElem?.1 hw
  exact (h.all hover hk).2 p hp

/-- The trace has one entry for each node that was executed. -/
theorem tracedIds_perm (h : g.Traced o e) (hover : e.IsOver) :
    e.tracedIds.Perm (e.outcomes.map Prod.fst) := by
  refine (List.perm_ext_iff_of_nodup h.logged.nodup (h.nodup_outcomes hover)).2 fun id => ?_
  constructor
  · intro hid
    obtain ⟨k, _, hwave⟩ := h.known id hid
    exact (h.mem_outcomes_iff hover).2 hwave.runnable
  · intro hid
    obtain ⟨p, hp, rfl⟩ := List.mem_map.1 hid
    obtain ⟨entry, hentry, heq, _⟩ := h.tells_of_mem_outcomes hover.1 hp
    exact heq ▸ List.mem_map_of_mem hentry

end Traced

/-! ## The report -/

/-- The report has the trace with its statistics, and the last context if it is asked for, whether
the run has failed or not. -/
theorem trace?_reportOf (g : Graph) (o : Options) (e : Execution) :
    (g.reportOf o e).trace? = some (e.wave.world.trace.finish e.wave.world.moment
      (if o.settings.enableTrace then some e.wave.world.context else none)) := by
  rw [Report.trace?, reportOf]
  split
  · rename_i heq
    split at heq
    · cases heq
    · obtain rfl := Except.ok.inj heq
      rfl
  · rename_i heq
    split at heq
    · obtain rfl := Except.error.inj heq
      rfl
    · cases heq

/-- The error of a report is that of the nodes left over, or else the first one of the waves. -/
theorem error?_reportOf (g : Graph) (o : Options) (e : Execution) :
    (g.reportOf o e).error? = match g.schedule.stuck with
      | [] => e.firstError?
      | stuck => some (.deadlock (stuck.map Node.id)) := by
  rw [Report.error?, reportOf]
  cases g.schedule.stuck with
  | nil => cases e.firstError? <;> rfl
  | cons n stuck => rfl

/-- The nodes that cannot be executed make a run fail before all else. -/
theorem error?_of_stuck (o : Options) (e : Execution) (h : ∃ n ∈ g.nodes, ¬ g.Runnable n.id) :
    (g.reportOf o e).error? =
      some (.deadlock ((g.nodes.filter fun n => ¬ g.Runnable n.id).map Node.id)) := by
  obtain ⟨n, hn, hnot⟩ := h
  have hmem : n ∈ g.schedule.stuck := by
    rw [stuck_eq]
    exact List.mem_filter.2 ⟨hn, decide_eq_true hnot⟩
  rw [error?_reportOf, ← stuck_eq]
  split
  · rename_i hnil
    rw [hnil] at hmem
    exact absurd hmem List.not_mem_nil
  · rfl

/-- When all nodes can be executed, the first error of the execution is that of the run. -/
theorem error?_of_runnable (o : Options) (e : Execution) (h : ∀ n ∈ g.nodes, g.Runnable n.id) :
    (g.reportOf o e).error? = e.firstError? := by
  have hnil : g.schedule.stuck = [] := by
    rw [stuck_eq]
    exact List.filter_eq_nil_iff.2 fun n hn hnot => of_decide_eq_true hnot (h n hn)
  rw [error?_reportOf, hnil]

/-- A run is one of the executions, and what it reports is what that execution leaves. -/
theorem exists_execute_eq [Schema.Validator] (g : Graph) (context : Value) (mode : Mode)
    (o : Options) :
    ∃ e, g.Reaches context mode o e ∧ e.IsOver ∧ g.execute context mode o = g.reportOf o e := by
  obtain ⟨hreaches, hover⟩ := g.reaches_execution context mode o
  exact ⟨_, hreaches, hover, g.execute_eq context mode o⟩

/-- The first error of an execution is the failure of a node of the first wave in which one
failed. -/
theorem Traced.failsFirst (h : g.Traced o e) (hover : e.wave.IsOver) {error : Error}
    (herror : e.firstError? = some error) : ∃ k, e.FailsFirst k error := by
  obtain ⟨k, ⟨p, hp, hfails⟩, hfirst⟩ := Execution.exists_of_firstError?_eq_some herror
  refine ⟨k, ⟨p, hp, hfails, ?_⟩, hfirst⟩
  -- the entry of the failing node tells that the error is the failure of that very node
  obtain ⟨entry, _, _, htells⟩ := h.tells_of_mem_outcomes hover (Execution.mem_outcomes.2 ⟨k, hp⟩)
  obtain ⟨node, ending⟩ := p
  cases ending with
  | passed => cases hfails
  | failed err =>
    obtain rfl := Option.some.inj hfails
    obtain ⟨_, message, _, herr⟩ := htells
    exact ⟨message, herr⟩
  | aborted message => exact ⟨message, (Option.some.inj hfails).symm⟩

/-- Whatever is executed and however, exactly the nodes of the least set are that has each node
whose dependencies are all in it: each once, in the wave behind those of its dependencies. If a node
is left, the run fails with all that are left, in the order of the graph; if none is, it succeeds
unless a node failed, and then it fails as a node of the first wave did in which one failed. -/
theorem execute_runnable [Schema.Validator] (g : Graph) (context : Value) (mode : Mode)
    (o : Options) :
    (∃ e, g.Reaches context mode o e ∧ e.IsOver ∧ g.execute context mode o = g.reportOf o e) ∧
    ∀ e, g.Reaches context mode o e →
      (∃ e', Relation.ReflTransGen (Execution.Step o) e e' ∧ e'.IsOver) ∧
      (e.IsOver →
        (∀ id, id ∈ e.outcomes.map Prod.fst ↔ g.Runnable id) ∧
        (e.outcomes.map Prod.fst).Nodup ∧
        (∀ k id, id ∈ (e.outcomesAt k).map Prod.fst ↔ g.InWave id k) ∧
        e.tracedIds.Perm (e.outcomes.map Prod.fst) ∧
        ((∃ n ∈ g.nodes, ¬ g.Runnable n.id) →
          (g.reportOf o e).error? =
            some (.deadlock ((g.nodes.filter fun n => ¬ g.Runnable n.id).map Node.id))) ∧
        ((∀ n ∈ g.nodes, g.Runnable n.id) →
          ((g.reportOf o e).error? = none ↔ ∀ p ∈ e.outcomes, p.2.error? p.1 = none) ∧
          ∀ error, (g.reportOf o e).error? = some error → ∃ k, e.FailsFirst k error)) := by
  refine ⟨g.exists_execute_eq context mode o, fun e hreaches => ?_⟩
  have h := hreaches.traced
  refine ⟨h.exists_isOver, fun hover => ⟨fun _ => h.mem_outcomes_iff hover, h.nodup_outcomes hover,
    fun _ _ => h.mem_outcomesAt hover, h.tracedIds_perm hover, error?_of_stuck o e, fun hall => ?_⟩⟩
  rw [error?_of_runnable o e hall]
  exact ⟨Execution.firstError?_eq_none_iff, fun _ => h.failsFirst hover.1⟩

/-- A node that fails and one that names it twice, two nodes on a circle, and one that waits for
what is not there. -/
def tangled : Graph where
  nodes :=
    [.ofTool "circle" ["ring"] (Stock.tool .echo "echo" none none) .null {},
     .ofTool "late" ["first", "first"] (Stock.tool .echo "echo" none none) .null {},
     .ofTool "lost" ["nowhere", "first"] (Stock.tool .echo "echo" none none) .null {},
     .ofTool "first" [] (Stock.tool (.fail "boom") "fail" none none) .null {},
     .ofTool "ring" ["circle", "late"] (Stock.tool .echo "echo" none none) .null {}]
  nodup := by decide

theorem runnable_tangled {id : String} : tangled.Runnable id ↔ id ∈ ["first", "late"] := by
  have hwaves : tangled.schedule.waves.flatten.map Node.id = ["first", "late"] := by cbv
  rw [← mem_flatten_waves, hwaves]

/-- The tangled graph executes those two and reports the other three as a deadlock. -/
theorem execute_runnable_tangled :
    let e := tangled.execution .null .dag { planId := "p" }
    tangled.Reaches .null .dag { planId := "p" } e ∧ e.IsOver ∧
      "late" ∈ (e.outcomesAt 2).map Prod.fst ∧
      (∀ id, id ∈ e.outcomes.map Prod.fst ↔ id = "first" ∨ id = "late") ∧
      (tangled.reportOf { planId := "p" } e).error? = some (.deadlock ["circle", "lost", "ring"]) := by
  obtain ⟨hreaches, hover⟩ := tangled.reaches_execution .null .dag { planId := "p" }
  obtain ⟨hall, _, hwave, _, hstuck, _⟩ :=
    ((execute_runnable tangled .null .dag { planId := "p" }).2 _ hreaches).2 hover
  have hpending : tangled.schedule.stuck.map Node.id = ["circle", "lost", "ring"] := by cbv
  have hlate : (tangled.wave 2).map Node.id = ["late"] := by cbv
  refine ⟨hreaches, hover, (hwave 2 "late").2 (mem_map_wave.1 ?_), fun id => ?_, ?_⟩
  · rw [hlate]
    exact List.mem_singleton_self _
  · rw [hall, runnable_tangled, List.mem_cons, List.mem_singleton]
  · rw [hstuck, ← stuck_eq, hpending]
    refine ⟨_, List.mem_cons_self, fun hrunnable => ?_⟩
    exact absurd (runnable_tangled.1 hrunnable) (by decide)

/-! ## The trace -/

namespace Traced

/-- Every node of a wave that is past has an entry that has ended. -/
theorem exists_settled (h : g.Traced o e) {k : Nat} (hk : k < e.past.length) {id : String}
    (hwave : g.InWave id k) : ∃ entry ∈ e.wave.entries, entry.nodeId = id ∧ entry.IsSettled := by
  have hw : e.past[k]? = some e.past[k] := List.getElem?_eq_getElem hk
  obtain ⟨p, hp, rfl⟩ := List.mem_map.1 ((h.mem_outcomes hw).2 hwave)
  obtain ⟨entry, hentry, hid, htells⟩ := h.told _ (List.mem_of_getElem? hw) p hp
  exact ⟨entry, hentry, hid, htells.isSettled⟩

/-- What is appended is the entry of a node whose dependencies all have entries that have ended. -/
theorem tracedIds_step [Schema.Validator] (h : g.Traced o e) {e' : Execution}
    (hstep : Execution.Step o e e') :
    e'.tracedIds = e.tracedIds ∨ ∃ n ∈ g.nodes, e'.tracedIds = e.tracedIds ++ [n.id] ∧
      ∀ d ∈ n.deps, ∃ entry ∈ e.wave.entries, entry.nodeId = d ∧ entry.IsSettled := by
  cases hstep with
  | @move w hmove =>
    obtain ⟨_, _, htouch⟩ := Wave.logged_move (width_pos o) h.logged h.inLine hmove
    -- a move appends at most one entry, and only for a node of the present wave
    rcases htouch.ids with heq | ⟨node, hnode, -, heq⟩
    · exact .inl heq
    · have hwave := h.mem_wave_ids.1 hnode
      obtain ⟨n, hn, rfl⟩ := mem_ids.1 hwave.mem_ids
      refine .inr ⟨n, hn, heq, fun d hd => ?_⟩
      obtain ⟨j, hj, hdep⟩ := hwave.dep_lt hn hd
      exact h.exists_settled hj hdep
  | next _ _ => exact .inl rfl

/-- When the execution is over, every entry tells how its node ended. -/
theorem exists_outcome (h : g.Traced o e) (hover : e.IsOver) {entry : Entry}
    (hentry : entry ∈ e.wave.entries) :
    ∃ p ∈ e.outcomes, entry.nodeId = p.1 ∧ entry.Tells o.observer p.1 p.2 := by
  have hid : entry.nodeId ∈ e.tracedIds := List.mem_map_of_mem hentry
  obtain ⟨p, hp, heq⟩ := List.mem_map.1 ((h.tracedIds_perm hover).mem_iff.1 hid)
  obtain ⟨entry', hentry', hid', htells⟩ := h.tells_of_mem_outcomes hover.1 hp
  obtain rfl := List.inj_on_of_nodup_map h.logged.nodup hentry hentry' (heq.symm.trans hid'.symm)
  exact ⟨p, hp, heq.symm, htells⟩

/-- When the execution is over, every entry has ended. -/
theorem isSettled (h : g.Traced o e) (hover : e.IsOver) {entry : Entry}
    (hentry : entry ∈ e.wave.entries) : entry.IsSettled := by
  obtain ⟨_, _, _, htells⟩ := h.exists_outcome hover hentry
  exact htells.isSettled

end Traced

/-- At every point of every execution, the trace has at most one entry for each node, the entries of
one wave stand before those of the next, and an entry is appended only when the dependencies of its
node have entries that have ended. When the execution is over, the entries are those of the nodes
that have been executed, all have ended, and the statistics count each of them once and none as
skipped. -/
theorem trace_topological [Schema.Validator] (g : Graph) (context : Value) (mode : Mode)
    (o : Options) :
    (∃ e, g.Reaches context mode o e ∧ e.IsOver ∧ g.execute context mode o = g.reportOf o e) ∧
    ∀ e, g.Reaches context mode o e →
      e.tracedIds.Nodup ∧
      (e.tracedIds.Pairwise fun a b => ∃ j k, g.InWave a j ∧ g.InWave b k ∧ j ≤ k) ∧
      (∀ e', Execution.Step o e e' → e'.tracedIds = e.tracedIds ∨
        ∃ n ∈ g.nodes, e'.tracedIds = e.tracedIds ++ [n.id] ∧
          ∀ d ∈ n.deps, ∃ entry ∈ e.wave.entries,
            entry.nodeId = d ∧ entry.status.isTerminal = true) ∧
      (e.IsOver →
        e.tracedIds.Perm (e.outcomes.map Prod.fst) ∧
        (∀ entry ∈ e.wave.entries, entry.status.isTerminal = true) ∧
        ∃ trace statistics, (g.reportOf o e).trace? = some trace ∧
          trace.entries = e.wave.entries ∧ trace.statistics = some statistics ∧
          statistics.total = statistics.successful + statistics.failed + statistics.cancelled ∧
          statistics.skipped = 0) := by
  refine ⟨g.exists_execute_eq context mode o, fun e hreaches => ?_⟩
  have h := hreaches.traced
  refine ⟨h.logged.nodup, h.ordered, fun e' hstep => ?_, fun hover => ⟨h.tracedIds_perm hover,
    fun entry hentry => (h.isSettled hover hentry).isTerminal, ?_⟩⟩
  · rcases h.tracedIds_step hstep with heq | ⟨n, hn, heq, hdeps⟩
    · exact .inl heq
    · refine .inr ⟨n, hn, heq, fun d hd => ?_⟩
      obtain ⟨entry, hentry, hid, hsettled⟩ := hdeps d hd
      exact ⟨entry, hentry, hid, hsettled.isTerminal⟩
  -- all entries are settled by now, so the statistics count nothing else
  · exact ⟨_, _, g.trace?_reportOf o e, rfl, rfl,
      Statistics.ofEntries_of_isSettled fun _ hentry => h.isSettled hover hentry⟩

/-- The entries of the tangled graph are those of the two nodes that it executes, and the statistics
add up. -/
theorem trace_topological_tangled :
    let e := tangled.execution .null .dag { planId := "p" }
    tangled.Reaches .null .dag { planId := "p" } e ∧ e.IsOver ∧
      e.tracedIds.Nodup ∧ e.tracedIds.Perm (e.outcomes.map Prod.fst) ∧
      ∃ trace statistics, (tangled.reportOf { planId := "p" } e).trace? = some trace ∧
        trace.statistics = some statistics ∧
        statistics.total = statistics.successful + statistics.failed + statistics.cancelled := by
  obtain ⟨hreaches, hover⟩ := tangled.reaches_execution .null .dag { planId := "p" }
  obtain ⟨hnodup, _, _, hend⟩ :=
    (trace_topological tangled .null .dag { planId := "p" }).2 _ hreaches
  obtain ⟨hperm, _, trace, statistics, htrace, _, hstatistics, htotal, _⟩ := hend hover
  exact ⟨hreaches, hover, hnodup, hperm, trace, statistics, htrace, hstatistics, htotal⟩

end Graph

end Wavefront
