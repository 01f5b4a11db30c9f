/-
Dependencies of a graph, and when its schedule leaves nothing behind.

A node is left behind when it waits for something that never comes. If every dependency is there and
from no node waiting goes on for ever, then some node that is left is ready: one that waits for
nothing else that is left. So the waves go on until all nodes have been executed.
-/
import Wavefront.Graph.Schedule
import Wavefront.Proofs.Digraph.Search

set_option autoImplicit false

namespace Wavefront

namespace Graph

/-- A node of the graph waits for an id. -/
def DependsOn (g : Graph) (a b : String) : Prop := ∃ n ∈ g.nodes, n.id = a ∧ b ∈ n.deps

/-- Every dependency is that of a node of the graph. -/
def Closed (g : Graph) : Prop := ∀ n ∈ g.nodes, ∀ d ∈ n.deps, d ∈ g.ids

theorem mem_ids {g : Graph} {a : String} : a ∈ g.ids ↔ ∃ n ∈ g.nodes, n.id = a := List.mem_map

/-- A dependency is a target of an edge. -/
theorem dependsOn_iff_mem_edges {g : Graph} {a b : String} :
    g.DependsOn a b ↔ ∃ deps, (a, deps) ∈ g.edges ∧ b ∈ deps := by
  constructor
  · rintro ⟨n, hn, rfl, hb⟩
    exact ⟨n.deps, List.mem_map_of_mem hn, hb⟩
  · rintro ⟨deps, h, hb⟩
    obtain ⟨n, hn, heq⟩ := List.mem_map.1 h
    obtain ⟨rfl, rfl⟩ := Prod.mk.inj heq
    exact ⟨n, hn, rfl, hb⟩

theorem map_fst_edges (g : Graph) : g.edges.map Prod.fst = g.ids := by
  rw [edges, ids, List.map_map]
  rfl

/-- What the edges of a graph are that was made without an error. -/
theorem exists_edges {x : Except Error Graph} {edges : Digraph.Edges String}
    (h : x.toOption.map Graph.edges = some edges) : ∃ g, x = .ok g ∧ g.edges = edges := by
  cases x with
  | error err => cases h
  | ok g => exact ⟨g, rfl, Option.some.inj h⟩

theorem DependsOn.source_mem_ids {g : Graph} {a b : String} (h : g.DependsOn a b) : a ∈ g.ids := by
  obtain ⟨n, hn, hid, -⟩ := h
  exact mem_ids.2 ⟨n, hn, hid⟩

/-- From where a way leads to a node there is a node. -/
theorem mem_ids_of_way {g : Graph} {a b : String} (h : Relation.ReflTransGen g.DependsOn a b)
    (hb : b ∈ g.ids) : a ∈ g.ids := by
  rcases Relation.ReflTransGen.cases_head h with rfl | ⟨c, hac, -⟩
  · exact hb
  · exact hac.source_mem_ids

/-- A graph is closed if all that is depended on is there. -/
theorem closed_iff {g : Graph} : g.Closed ↔ ∀ a b, g.DependsOn a b → b ∈ g.ids := by
  constructor
  · rintro h a b ⟨n, hn, -, hb⟩
    exact h n hn b hb
  · exact fun h n hn d hd => h n.id d ⟨n, hn, rfl, hd⟩

/-- A graph has the nodes that it is made of. -/
theorem nodes_of_ofNodes {nodes : List Node} {g : Graph} (h : ofNodes nodes = .ok g) :
    g.nodes = nodes := by
  rw [ofNodes] at h
  split at h
  · cases h
  · obtain rfl := Except.ok.inj h
    rfl

end Graph

/-! ## Schedules -/

/-- A node is ready when everything that it waits for has been executed. -/
theorem mem_readyNodes {executed : List String} {nodes : List Node} {n : Node} :
    n ∈ readyNodes executed nodes ↔ n ∈ nodes ∧ ∀ d ∈ n.deps, d ∈ executed := by
  rw [readyNodes, List.mem_filter, Node.isReady, List.all_eq_true]
  simp only [decide_eq_true_eq]

/-- What is not ready is left for later. -/
theorem mem_laterNodes {executed : List String} {nodes : List Node} {n : Node} :
    n ∈ laterNodes executed nodes ↔ n ∈ nodes ∧ n ∉ readyNodes executed nodes := by
  rw [laterNodes, readyNodes, List.mem_filter, List.mem_filter]
  cases n.isReady executed <;> simp

/-- If all that nodes wait for has been executed or is among them, and from none of them waiting
goes on for ever, then there is none or one of them is ready. -/
theorem eq_nil_of_readyNodes_eq_nil {r : String → String → Prop} {executed : List String}
    {nodes : List Node} (hr : ∀ n ∈ nodes, ∀ d ∈ n.deps, r n.id d)
    (hgrounded : ∀ n ∈ nodes, Digraph.Grounded r n.id)
    (hclosed : ∀ n ∈ nodes, ∀ d ∈ n.deps, d ∈ executed ∨ d ∈ nodes.map Node.id)
    (hready : readyNodes executed nodes = []) : nodes = [] := by
  have hnone : ∀ id, Digraph.Grounded r id → ∀ n ∈ nodes, n.id ≠ id := by
    intro id hid
    -- down the dependencies, which come to an end: at the last of them nothing is waited for any
    -- more
    induction hid with
    | intro id _ ih =>
      rintro n hn rfl
      have hnot : n ∉ readyNodes executed nodes := by
        rw [hready]
        exact List.not_mem_nil
      rw [mem_readyNodes, not_and] at hnot
      have hpending := hnot hn
      push Not at hpending
      obtain ⟨d, hd, hunexecuted⟩ := hpending
      rcases hclosed n hn d hd with hexecuted | hamong
      · exact hunexecuted hexecuted
      · obtain ⟨m, hm, rfl⟩ := List.mem_map.1 hamong
        exact ih m.id (hr n hn m.id hd) m hm rfl
  rcases nodes with _ | ⟨n, nodes⟩
  · rfl
  · exact absurd rfl (hnone n.id (hgrounded n List.mem_cons_self) n List.mem_cons_self)

/-- Where all that is waited for is there and waiting ends, nothing is left behind, at whatever wave
one begins to look. -/
theorem Schedule.stuck_ofNodes {r : String → String → Prop} {executed : List String}
    {nodes : List Node} (hr : ∀ n ∈ nodes, ∀ d ∈ n.deps, r n.id d)
    (hgrounded : ∀ n ∈ nodes, Digraph.Grounded r n.id)
    (hclosed : ∀ n ∈ nodes, ∀ d ∈ n.deps, d ∈ executed ∨ d ∈ nodes.map Node.id) :
    (Schedule.ofNodes executed nodes).stuck = [] := by
  induction executed, nodes using Schedule.ofNodes.induct with
  | case1 executed nodes ready hready =>
    rw [Schedule.ofNodes, dif_pos hready]
    exact eq_nil_of_readyNodes_eq_nil hr hgrounded hclosed hready
  | case2 executed nodes ready hready ih =>
    rw [Schedule.ofNodes, dif_neg hready]
    have hsub : ∀ n ∈ laterNodes executed nodes, n ∈ nodes := fun n hn => (mem_laterNodes.1 hn).1
    -- what an earlier node waits for has been executed by now, or it is among the later ones as
    -- well
    refine ih (fun n hn => hr n (hsub n hn)) (fun n hn => hgrounded n (hsub n hn)) ?_
    intro n hn d hd
    rcases hclosed n (hsub n hn) d hd with hexecuted | hamong
    · exact .inl (List.mem_append_left _ hexecuted)
    · obtain ⟨m, hm, rfl⟩ := List.mem_map.1 hamong
      by_cases hm' : m ∈ readyNodes executed nodes
      · exact .inl (List.mem_append_right _ (List.mem_map.2 ⟨m, hm', rfl⟩))
      · exact .inr (List.mem_map.2 ⟨m, mem_laterNodes.2 ⟨hm, hm'⟩, rfl⟩)

/-- A graph whose dependencies are all there, and from whose nodes waiting does not go on for ever,
leaves no node behind. -/
theorem Graph.stuck_schedule {g : Graph} (hclosed : g.Closed)
    (hgrounded : ∀ id ∈ g.ids, Digraph.Grounded g.DependsOn id) : g.schedule.stuck = [] := by
  refine Schedule.stuck_ofNodes (r := g.DependsOn) ?_ ?_ ?_
  · exact fun n hn d hd => ⟨n, hn, rfl, hd⟩
  · exact fun n hn => hgrounded n.id (Graph.mem_ids.2 ⟨n, hn, rfl⟩)
  · exact fun n hn d hd => .inr (hclosed n hn d hd)

end Wavefront
