/-
Which nodes of a graph are executed, and in which wave.

Two answers are given without a schedule. The nodes that can be executed are the least set that has
each node whose dependencies are all in it; the wave of such a node is one more than the latest wave
of its dependencies. The schedule of the graph agrees with both, whatever the dependencies are: on a
circle, not there, or named twice. Its waves are the nodes by their waves, and what it leaves behind
is what is not in the least set, in the order of the graph.
-/
import Mathlib.Data.Fintype.EquivFin
import Mathlib.Data.Fintype.Sets
import Mathlib.Data.List.Nodup
import Mathlib.Order.Basic
import Mathlib.Order.Lattice
import Mathlib.Order.MinMax
import Mathlib.Tactic.Choose
import Wavefront.Proofs.Graph.Dependency

set_option autoImplicit false

namespace Wavefront

namespace Graph

/-- The ids of the nodes that can be executed: the least set that has the id of each node whose
dependencies are all in it. -/
inductive Runnable (g : Graph) : String → Prop
  | node {n : Node} (hn : n ∈ g.nodes) (hdeps : ∀ d ∈ n.deps, g.Runnable d) : g.Runnable n.id

/-- The wave of a node: one more than the latest of the waves of its dependencies, and the first if
it has none. -/
inductive InWave (g : Graph) : String → Nat → Prop
  | node {n : Node} (hn : n ∈ g.nodes) (wave : String → Nat)
      (hdeps : ∀ d ∈ n.deps, g.InWave d (wave d)) :
      g.InWave n.id ((n.deps.map wave).foldr max 0 + 1)

/-- The greatest of some numbers is at most `m` if each of them is. -/
theorem foldr_max_le_iff {l : List Nat} {m : Nat} : l.foldr max 0 ≤ m ↔ ∀ a ∈ l, a ≤ m := by
  induction l with
  | nil => simp
  | cons a l ih => rw [List.foldr_cons, Nat.max_le, ih, List.forall_mem_cons]

/-- Nodes with one id are one node. -/
theorem node_unique {g : Graph} {m n : Node} (hm : m ∈ g.nodes) (hn : n ∈ g.nodes)
    (h : m.id = n.id) : m = n := List.inj_on_of_nodup_map g.nodup hm hn h

variable {g : Graph} {id : String}

theorem InWave.mem_ids {k : Nat} (h : g.InWave id k) : id ∈ g.ids := by
  cases h with
  | node hn _ _ => exact List.mem_map_of_mem hn

/-- A node is in one wave only. -/
theorem InWave.unique {j k : Nat} (hj : g.InWave id j) (hk : g.InWave id k) : j = k := by
  induction hj generalizing k with
  | @node n hn wave hdeps ih =>
    generalize hid : n.id = id at hk
    cases hk with
    | @node m hm wave' hdeps' =>
      obtain rfl := node_unique hn hm hid
      rw [List.map_congr_left fun d hd => ih d hd (hdeps' d hd)]

theorem InWave.pos {k : Nat} (h : g.InWave id k) : 0 < k := by
  cases h with
  | node _ _ _ => exact Nat.succ_pos _

/-- Every dependency of a node is in an earlier wave. -/
theorem InWave.dep_lt {n : Node} (hn : n ∈ g.nodes) {k : Nat} (h : g.InWave n.id k) {d : String}
    (hd : d ∈ n.deps) : ∃ j, j < k ∧ g.InWave d j := by
  generalize hid : n.id = id at h
  cases h with
  | @node m hm wave hdeps =>
    obtain rfl := node_unique hn hm hid
    refine ⟨wave d, Nat.lt_succ_of_le ?_, hdeps d hd⟩
    exact foldr_max_le_iff.1 (Nat.le_refl _) _ (List.mem_map_of_mem hd)

/-- Whatever a node waits for is in an earlier wave. -/
theorem InWave.lt_of_transGen {a b : String} (hab : Relation.TransGen g.DependsOn a b) {k : Nat}
    (h : g.InWave a k) : ∃ j, j < k ∧ g.InWave b j := by
  induction hab with
  | single hdep =>
    obtain ⟨n, hn, rfl, hd⟩ := hdep
    exact h.dep_lt hn hd
  | tail _ hdep ih =>
    obtain ⟨j, hj, hwave⟩ := ih
    obtain ⟨n, hn, rfl, hd⟩ := hdep
    obtain ⟨i, hi, hwave⟩ := hwave.dep_lt hn hd
    exact ⟨i, Nat.lt_trans hi hj, hwave⟩

theorem InWave.runnable {k : Nat} (h : g.InWave id k) : g.Runnable id := by
  induction h with
  | node hn _ _ ih => exact .node hn ih

/-- The nodes that can be executed are those that are in a wave. -/
theorem runnable_iff_exists_inWave : g.Runnable id ↔ ∃ k, g.InWave id k := by
  constructor
  · intro h
    induction h with
    | node hn _ ih =>
      choose! wave hwave using ih
      exact ⟨_, .node hn wave hwave⟩
  · rintro ⟨k, h⟩
    exact h.runnable

/-- If all dependencies of a node are in one of the first `j` waves, it is in one of the first
`j + 1`. -/
theorem exists_inWave_le {n : Node} (hn : n ∈ g.nodes) {j : Nat}
    (hdeps : ∀ d ∈ n.deps, ∃ k, k ≤ j ∧ g.InWave d k) : ∃ k, k ≤ j + 1 ∧ g.InWave n.id k := by
  choose! wave hwave using hdeps
  refine ⟨_, Nat.succ_le_succ ?_, .node hn wave fun d hd => (hwave d hd).2⟩
  refine foldr_max_le_iff.2 fun a ha => ?_
  obtain ⟨d, hd, rfl⟩ := List.mem_map.1 ha
  exact (hwave d hd).1

end Graph

/-! ## The schedule -/

namespace Schedule

variable {g : Graph}

/-- What has been executed is in one of the first `j` waves, and what is left has not been. -/
structure Upto (g : Graph) (j : Nat) (executed : List String) (nodes : List Node) : Prop where
  executed_iff : ∀ id, id ∈ executed ↔ ∃ k, k ≤ j ∧ g.InWave id k
  nodes_eq : nodes = g.nodes.filter fun n => decide (n.id ∉ executed)

namespace Upto

variable {j : Nat} {executed : List String} {nodes : List Node}

theorem mem_nodes (h : Upto g j executed nodes) {n : Node} :
    n ∈ nodes ↔ n ∈ g.nodes ∧ n.id ∉ executed := by
  rw [h.nodes_eq, List.mem_filter, decide_eq_true_eq]

/-- The nodes that are ready are those of the next wave. -/
theorem mem_ready (h : Upto g j executed nodes) {n : Node} :
    n ∈ readyNodes executed nodes ↔ n ∈ g.nodes ∧ g.InWave n.id (j + 1) := by
  rw [mem_readyNodes, h.mem_nodes]
  constructor
  · rintro ⟨⟨hn, hnot⟩, hdeps⟩
    obtain ⟨k, hk, hwave⟩ := Graph.exists_inWave_le hn fun d hd => (h.executed_iff d).1 (hdeps d hd)
    obtain rfl : k = j + 1 := by
      -- an earlier wave than this would have executed the node by now
      refine Nat.le_antisymm hk (Nat.lt_of_not_le fun hle => hnot ?_)
      exact (h.executed_iff n.id).2 ⟨k, hle, hwave⟩
    exact ⟨hn, hwave⟩
  · rintro ⟨hn, hwave⟩
    refine ⟨⟨hn, fun hmem => ?_⟩, fun d hd => ?_⟩
    · obtain ⟨k, hk, hwave'⟩ := (h.executed_iff n.id).1 hmem
      have hkj := hwave.unique hwave'
      omega
    · obtain ⟨k, hk, hdep⟩ := hwave.dep_lt hn hd
      exact (h.executed_iff d).2 ⟨k, Nat.le_of_lt_succ hk, hdep⟩

/-- One wave further on: what was ready has been executed, and no other node. -/
theorem next (h : Upto g j executed nodes) :
    Upto g (j + 1) (executed ++ (readyNodes executed nodes).map Node.id)
      (laterNodes executed nodes) := by
  have hready : ∀ id, id ∈ (readyNodes executed nodes).map Node.id ↔ g.InWave id (j + 1) := by
    intro id
    constructor
    · intro hid
      obtain ⟨n, hn, rfl⟩ := List.mem_map.1 hid
      exact (h.mem_ready.1 hn).2
    · intro hwave
      obtain ⟨n, hn, rfl⟩ := Graph.mem_ids.1 hwave.mem_ids
      exact List.mem_map_of_mem (h.mem_ready.2 ⟨hn, hwave⟩)
  constructor
  · intro id
    rw [List.mem_append, h.executed_iff, hready]
    constructor
    · rintro (⟨k, hk, hwave⟩ | hwave)
      · exact ⟨k, Nat.le_succ_of_le hk, hwave⟩
      · exact ⟨j + 1, Nat.le_refl _, hwave⟩
    · rintro ⟨k, hk, hwave⟩
      rcases Nat.lt_or_eq_of_le hk with hlt | rfl
      · exact .inl ⟨k, Nat.le_of_lt_succ hlt, hwave⟩
      · exact .inr hwave
  · rw [laterNodes]
    conv_lhs => rw [h.nodes_eq]
    rw [List.filter_filter]
    refine List.filter_congr fun n hn => ?_
    -- the nodes that are left are told by their ids, since those that were executed are known by
    -- their ids alone
    have hisReady : n.isReady executed = true ∧ n.id ∉ executed ↔ g.InWave n.id (j + 1) := by
      have hmem := h.mem_ready (n := n)
      rw [readyNodes, List.mem_filter, h.mem_nodes] at hmem
      constructor
      · rintro ⟨hisReady, hnot⟩
        exact (hmem.1 ⟨⟨hn, hnot⟩, hisReady⟩).2
      · intro hwave
        obtain ⟨⟨_, hnot⟩, hisReady⟩ := hmem.2 ⟨hn, hwave⟩
        exact ⟨hisReady, hnot⟩
    rw [← hready] at hisReady
    by_cases hnew : n.id ∈ executed
    · simp [hnew]
    · cases hr : n.isReady executed with
      | true => simp [hisReady.1 ⟨hr, hnew⟩]
      | false =>
        have hlater : n.id ∉ (readyNodes executed nodes).map Node.id := fun hmem => by
          rw [(hisReady.2 hmem).1] at hr
          cases hr
        simp [hnew, hlater]

/-- When no node is ready, all nodes that can be executed have been. -/
theorem executed_of_runnable (h : Upto g j executed nodes) (hready : readyNodes executed nodes = [])
    {id : String} (hid : g.Runnable id) : id ∈ executed := by
  induction hid with
  | @node n hn _ ih =>
    by_contra hnot
    have hmem : n ∈ readyNodes executed nodes := mem_readyNodes.2 ⟨h.mem_nodes.2 ⟨hn, hnot⟩, ih⟩
    rw [hready] at hmem
    exact List.not_mem_nil hmem

end Upto

/-- The waves that follow are the nodes by their waves, and no node is stuck that can be
executed. -/
theorem ofNodes_spec {j : Nat} {executed : List String} {nodes : List Node}
    (h : Upto g j executed nodes) :
    (∀ k n, n ∈ (ofNodes executed nodes).waves.getD k [] ↔
      n ∈ g.nodes ∧ g.InWave n.id (j + k + 1)) ∧
    ∃ all : List String, (∀ id, id ∈ all ↔ g.Runnable id) ∧
      (ofNodes executed nodes).stuck = g.nodes.filter fun n => decide (n.id ∉ all) := by
  -- along the waves, with the number of those that have been
  induction executed, nodes using Schedule.ofNodes.induct generalizing j with
  | @case1 executed nodes ready hready =>
    rw [ofNodes, dif_pos hready]
    have hall : ∀ id, id ∈ executed ↔ g.Runnable id := by
      refine fun id => ⟨fun hid => ?_, h.executed_of_runnable hready⟩
      obtain ⟨k, _, hwave⟩ := (h.executed_iff id).1 hid
      exact hwave.runnable
    refine ⟨fun k n => ⟨fun hn => absurd hn List.not_mem_nil, ?_⟩, executed, hall, h.nodes_eq⟩
    rintro ⟨_, hwave⟩
    obtain ⟨k', hk', hwave'⟩ := (h.executed_iff n.id).1 ((hall n.id).2 hwave.runnable)
    have hk := hwave.unique hwave'
    omega
  | @case2 executed nodes ready hready ih =>
    rw [ofNodes, dif_neg hready]
    obtain ⟨hwaves, hstuck⟩ := ih h.next
    refine ⟨fun k n => ?_, hstuck⟩
    cases k with
    | zero => exact h.mem_ready
    | succ k =>
      rw [List.getD_cons_succ, hwaves, Nat.add_right_comm j 1 k, Nat.add_assoc j k 1]

/-- Nodes that are ready make a wave when no other node is. -/
theorem waves_append_of_ready {executed : List String} {nodes later : List Node} (hne : nodes ≠ [])
    (hready : ∀ n ∈ nodes, n.isReady executed = true)
    (hlater : ∀ n ∈ later, n.isReady executed = false) :
    (ofNodes executed (nodes ++ later)).waves
      = nodes :: (ofNodes (executed ++ nodes.map Node.id) later).waves := by
  have hfirst : readyNodes executed (nodes ++ later) = nodes := by
    rw [readyNodes, List.filter_append, List.filter_eq_self.2 hready,
      List.filter_eq_nil_iff.2 fun n hn => by simp [hlater n hn], List.append_nil]
  have hrest : laterNodes executed (nodes ++ later) = later := by
    rw [laterNodes, List.filter_append, List.filter_eq_nil_iff.2 fun n hn => by simp [hready n hn],
      List.filter_eq_self.2 fun n hn => by simp [hlater n hn], List.nil_append]
  rw [ofNodes, dif_neg (by rwa [hfirst]), hfirst, hrest]

/-- Nodes that are all ready make the only wave. -/
theorem waves_of_ready {executed : List String} {nodes : List Node} (hne : nodes ≠ [])
    (hready : ∀ n ∈ nodes, n.isReady executed = true) : (ofNodes executed nodes).waves = [nodes] := by
  have hwaves : (ofNodes executed (nodes ++ [])).waves
      = nodes :: (ofNodes (executed ++ nodes.map Node.id) []).waves :=
    waves_append_of_ready hne hready fun _ hn => absurd hn List.not_mem_nil
  rw [List.append_nil] at hwaves
  rw [hwaves, ofNodes]
  rfl

end Schedule

namespace Graph

variable {g : Graph}

/-- Before the first wave nothing has been executed. -/
theorem upto_zero (g : Graph) : Schedule.Upto g 0 [] g.nodes := by
  constructor
  · intro id
    refine ⟨fun hid => absurd hid List.not_mem_nil, ?_⟩
    rintro ⟨k, hk, hwave⟩
    have hpos := hwave.pos
    omega
  · exact (List.filter_eq_self.2 fun _ _ => by simp).symm

/-- The nodes of a wave, by its number. There is no wave of number zero. -/
def wave (g : Graph) (k : Nat) : List Node := ([] :: g.schedule.waves).getD k []

theorem exists_wave_eq {nodes : List Node} (h : nodes ∈ g.schedule.waves) : ∃ k, g.wave k = nodes := by
  obtain ⟨k, hk⟩ := List.mem_iff_getElem?.1 (List.mem_cons_of_mem [] h)
  exact ⟨k, by rw [wave, List.getD_eq_getElem?_getD, hk, Option.getD_some]⟩

/-- The waves of the schedule are the nodes by their waves. -/
theorem mem_wave {k : Nat} {n : Node} : n ∈ g.wave k ↔ n ∈ g.nodes ∧ g.InWave n.id k := by
  cases k with
  | zero =>
    refine ⟨fun hn => absurd hn List.not_mem_nil, fun h => ?_⟩
    exact absurd h.2.pos (Nat.lt_irrefl 0)
  | succ k => rw [wave, List.getD_cons_succ, schedule, (Schedule.ofNodes_spec g.upto_zero).1, Nat.zero_add]

/-- The ids of a wave are those of that number. -/
theorem mem_map_wave {k : Nat} {id : String} : id ∈ (g.wave k).map Node.id ↔ g.InWave id k := by
  constructor
  · intro h
    obtain ⟨n, hn, rfl⟩ := List.mem_map.1 h
    exact (mem_wave.1 hn).2
  · intro h
    obtain ⟨n, hn, rfl⟩ := mem_ids.1 h.mem_ids
    exact List.mem_map_of_mem (mem_wave.2 ⟨hn, h⟩)

/-- The nodes of all waves and those left behind are the nodes of the graph. -/
theorem flatten_waves_perm (g : Graph) :
    (g.schedule.waves.flatten ++ g.schedule.stuck).Perm g.nodes := by
  have hgoal : ∀ (executed : List String) (nodes : List Node),
      ((Schedule.ofNodes executed nodes).waves.flatten
        ++ (Schedule.ofNodes executed nodes).stuck).Perm nodes := by
    intro executed nodes
    induction executed, nodes using Schedule.ofNodes.induct with
    | case1 executed nodes ready hready =>
      rw [Schedule.ofNodes, dif_pos hready]
      exact List.Perm.refl nodes
    | case2 executed nodes ready hready ih =>
      rw [Schedule.ofNodes, dif_neg hready, List.flatten_cons, List.append_assoc]
      refine (List.Perm.append_left _ ih).trans ?_
      exact List.filter_append_perm _ nodes
  exact hgoal [] g.nodes

/-- No two nodes of the waves have one id. -/
theorem nodup_flatten_waves (g : Graph) : (g.schedule.waves.flatten.map Node.id).Nodup := by
  have hnodup := ((g.flatten_waves_perm.map Node.id).nodup_iff).2 g.nodup
  rw [List.map_append] at hnodup
  exact (List.nodup_append.1 hnodup).1

/-- A node that can be executed is in some wave of the schedule, and only such nodes are. -/
theorem mem_flatten_waves {id : String} :
    id ∈ g.schedule.waves.flatten.map Node.id ↔ g.Runnable id := by
  rw [List.mem_map, runnable_iff_exists_inWave]
  constructor
  · rintro ⟨n, hn, rfl⟩
    obtain ⟨l, hl, hmem⟩ := List.mem_flatten.1 hn
    -- waves are counted from 1, so an empty one stands in front
    obtain ⟨k, hk, rfl⟩ := List.mem_iff_getElem.1 (List.mem_cons_of_mem [] hl)
    have hn' : n ∈ g.wave k := by
      rwa [wave, List.getD_eq_getElem?_getD, List.getElem?_eq_getElem hk]
    exact ⟨k, (mem_wave.1 hn').2⟩
  · rintro ⟨k, hwave⟩
    obtain ⟨n, hn, rfl⟩ := List.mem_map.1 (mem_map_wave.2 hwave)
    rw [wave, List.getD_eq_getElem?_getD] at hn
    cases hk : ([] :: g.schedule.waves)[k]? with
    | none =>
      rw [hk] at hn
      exact absurd hn List.not_mem_nil
    | some l =>
      rw [hk] at hn
      rcases List.mem_cons.1 (List.mem_of_getElem? hk) with rfl | hl
      · exact absurd hn List.not_mem_nil
      · exact ⟨n, List.mem_flatten.2 ⟨l, hl, hn⟩, rfl⟩

/-- In a graph that has no circle and whose dependencies are all there, every node can be
executed. -/
theorem runnable_of_acyclic (hclosed : g.Closed)
    (hacyclic : ∀ id, ¬ Relation.TransGen g.DependsOn id id) {n : Node} (hn : n ∈ g.nodes) :
    g.Runnable n.id := by
  let r (a b : { id // id ∈ g.ids }) : Prop := Relation.TransGen g.DependsOn b a
  have : IsTrans _ r := ⟨fun _ _ _ hab hbc => hbc.trans hab⟩
  have : Std.Irrefl r := ⟨fun a => hacyclic a⟩
  have hrunnable : ∀ a : { id // id ∈ g.ids }, g.Runnable a := by
    refine (Finite.wellFounded_of_trans_of_irrefl r).fix fun a ih => ?_
    obtain ⟨m, hm, hid⟩ := mem_ids.1 a.2
    rw [← hid]
    refine .node hm fun d hd => ih ⟨d, hclosed m hm d hd⟩ ?_
    exact .single ⟨m, hm, hid, hd⟩
  exact hrunnable ⟨n.id, mem_ids.2 ⟨n, hn, rfl⟩⟩

/-- A graph that has a circle has nodes that cannot be executed. -/
theorem acyclic_of_runnable (h : ∀ id ∈ g.ids, g.Runnable id) (id : String) :
    ¬ Relation.TransGen g.DependsOn id id := by
  intro hcircle
  obtain ⟨_, hdep, _⟩ := Relation.TransGen.head'_iff.1 hcircle
  obtain ⟨k, hwave⟩ := runnable_iff_exists_inWave.1 (h id hdep.source_mem_ids)
  obtain ⟨j, hj, hwave'⟩ := hwave.lt_of_transGen hcircle
  have heq := hwave.unique hwave'
  omega

/-- If every node can be executed, the waves have all nodes. -/
theorem flatten_waves_perm_of_runnable (h : ∀ n ∈ g.nodes, g.Runnable n.id) :
    g.schedule.waves.flatten.Perm g.nodes := by
  have hperm := g.flatten_waves_perm
  have hnil : g.schedule.stuck = [] := by
    refine List.eq_nil_iff_forall_not_mem.2 fun n hn => ?_
    have hnodup := (hperm.map Node.id).nodup_iff.2 g.nodup
    rw [List.map_append, List.nodup_append] at hnodup
    have hids := mem_flatten_waves.2 (h n (hperm.subset (List.mem_append_right _ hn)))
    exact hnodup.2.2 n.id hids n.id (List.mem_map_of_mem hn) rfl
  rwa [hnil, List.append_nil] at hperm

/-- Whether a node can be executed is decided by the schedule. -/
instance (g : Graph) : DecidablePred g.Runnable :=
  fun _ => decidable_of_iff _ mem_flatten_waves

/-- The schedule leaves behind what cannot be executed, in the order of the graph. -/
theorem stuck_eq : g.schedule.stuck = g.nodes.filter fun n => ¬ g.Runnable n.id := by
  obtain ⟨all, hall, hstuck⟩ := (Schedule.ofNodes_spec g.upto_zero).2
  rw [schedule, hstuck]
  refine List.filter_congr fun n _ => ?_
  rw [decide_eq_decide, hall]

end Graph

end Wavefront
