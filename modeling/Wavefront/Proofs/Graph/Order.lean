/-
The order of a graph respects the dependencies.

The order is put together by a traversal and then gone through: whatever the traversal has made, no
node may stand before one that it waits for. So of the traversal nothing is used but that it has
entered what it has left, which is what the search for vertices that name themselves goes by.

The works of a graph are those of its nodes in this order, and so each of them comes behind those of
all dependencies that are in the graph.
-/
import Wavefront.Proofs.Digraph.Search
import Wavefront.Proofs.Graph.Dependency
import Wavefront.Plan.Expansion

set_option autoImplicit false

namespace Wavefront

namespace Digraph

variable {α : Type} [DecidableEq α] {edges : Edges α}

/-- A traversal has entered all that it has left. -/
theorem left_subset_entered {visits : List (Visit α)} {t : Traversal α}
    (hvisits : ∀ a, .leave a ∈ visits → a ∈ t.entered) (hleft : t.left ⊆ t.entered) :
    (traverse edges visits t).left ⊆ (traverse edges visits t).entered := by
  -- a leaving is put on the list only when its vertex is entered
  induction visits, t using traverse.induct edges with
  | case1 t =>
    rw [traverse]
    exact hleft
  | case2 a rest t ih =>
    rw [traverse]
    refine ih (fun b hb => hvisits b (List.mem_cons_of_mem _ hb)) ?_
    exact List.cons_subset.2 ⟨hvisits a List.mem_cons_self, hleft⟩
  | case3 a rest t hskip ih =>
    rw [traverse, dif_pos hskip]
    exact ih (fun b hb => hvisits b (List.mem_cons_of_mem _ hb)) hleft
  | case4 a rest t henter ih =>
    rw [traverse, dif_neg henter]
    refine ih (fun b hb => ?_) (List.subset_cons_of_subset a hleft)
    rcases List.mem_append.1 hb with hb | hb
    · obtain ⟨_, _, hvisit⟩ := List.mem_map.1 hb
      cases hvisit
    rcases List.mem_cons.1 hb with hb | hb
    · obtain rfl := Visit.leave.inj hb
      exact List.mem_cons_self
    · exact List.mem_cons_of_mem a (hvisits b (List.mem_cons_of_mem _ hb))

/-- If nothing is unmet, whatever a vertex waits for is the vertex itself or stands before it. -/
theorem mem_of_unmet?_eq_none {done list : List α} (h : unmet? edges done list = none)
    {before after : List α} {a : α} (heq : list = before ++ a :: after) {b : α}
    (hb : b ∈ awaited edges a) : b = a ∨ b ∈ before ∨ b ∈ done := by
  -- what the look has passed counts as done, so the part before `a` moves over one by one
  induction before generalizing done list with
  | nil =>
    subst heq
    rw [List.nil_append, unmet?] at h
    split at h
    · cases h
    · rename_i hfind
      have hmem : ¬b = a → b ∈ done := by simpa using List.find?_eq_none.1 hfind b hb
      by_cases hba : b = a
      · exact .inl hba
      · exact .inr (.inr (hmem hba))
  | cons first before ih =>
    subst heq
    rw [List.cons_append, unmet?] at h
    split at h
    · cases h
    · rcases ih h rfl with rfl | hbefore | hdone
      · exact .inl rfl
      · exact .inr (.inl (List.mem_cons_of_mem _ hbefore))
      · rcases List.mem_cons.1 hdone with rfl | hdone
        · exact .inr (.inl List.mem_cons_self)
        · exact .inr (.inr hdone)

/-- In the order every vertex comes behind all that it waits for. -/
theorem mem_before_of_order {ids before after : List α} {a : α} (h : order edges = .ok ids)
    (heq : ids = before ++ a :: after) {b : α} (hb : b ∈ awaited edges a) : b ∈ before := by
  unfold order at h
  simp only at h
  split at h
  · cases h
  rename_i hself
  split at h
  · cases h
  rename_i hunmet
  obtain rfl := Except.ok.inj h
  have hentered : a ∈ (traversal edges).entered := by
    refine left_subset_entered (fun c hc => ?_) (List.nil_subset _) ?_
    · obtain ⟨_, _, hvisit⟩ := List.mem_map.1 hc
      cases hvisit
    · show a ∈ (traversal edges).left
      rw [heq]
      exact List.mem_append_right _ List.mem_cons_self
  -- no vertex that has been entered waits for itself
  have hne : b ≠ a := by
    rintro rfl
    have hnot := List.find?_eq_none.1 hself b (List.mem_reverse.2 hentered)
    exact hnot (decide_eq_true hb)
  rcases mem_of_unmet?_eq_none hunmet heq hb with hba | hbefore | hdone
  · exact absurd hba hne
  · exact hbefore
  · exact absurd hdone List.not_mem_nil

end Digraph

namespace Graph

variable {g : Graph}

theorem node?_eq_some {id : String} {n : Node} (h : g.node? id = some n) : n ∈ g.nodes ∧ n.id = id :=
  ⟨List.mem_of_find?_eq_some h, by simpa using List.find?_some h⟩

/-- In the graph a node waits for those of its dependencies that are there. -/
theorem awaited_edges {n : Node} (hn : n ∈ g.nodes) :
    Digraph.awaited g.edges n.id = n.deps.filter (· ∈ g.ids) := by
  have hnodup : (g.edges.map (·.1)).Nodup := (map_fst_edges g).symm ▸ g.nodup
  have hentry : (n.id, n.deps) ∈ g.edges := List.mem_map.2 ⟨n, hn, rfl⟩
  have hids : g.edges.map (·.1) = g.ids := map_fst_edges g
  rw [Digraph.awaited, Digraph.targets?_of_mem hnodup hentry, Option.getD_some, hids]

/-- The nodes in the order of the graph. -/
def inOrder (g : Graph) (ids : List String) : List Node := ids.filterMap g.node?

/-- The dependencies of a node that are in the graph come before it in the order. -/
theorem mem_earlier_of_order {ids : List String} (h : g.order = .ok ids) {earlier later : List Node}
    {n : Node} (hsplit : g.inOrder ids = earlier ++ n :: later) {d : String} (hd : d ∈ n.deps)
    (hin : d ∈ g.ids) : d ∈ earlier.map Node.id := by
  obtain ⟨before, rest, rfl, hbefore, hrest⟩ := List.filterMap_eq_append_iff.1 hsplit
  -- ids without a node come to nothing, so the nodes stand as their ids do
  obtain ⟨between, id, after, rfl, hbetween, hid, hafter⟩ := List.filterMap_eq_cons_iff.1 hrest
  obtain ⟨hn, rfl⟩ := node?_eq_some hid
  have horder : Digraph.order g.edges = .ok (before ++ between ++ n.id :: after) := by
    rw [List.append_assoc]
    rw [order] at h
    split at h
    · rename_i heq
      rw [heq, Except.ok.inj h]
    · cases h
  have hmem : d ∈ before ++ between := by
    refine Digraph.mem_before_of_order horder rfl ?_
    rw [awaited_edges hn]
    exact List.mem_filter.2 ⟨hd, decide_eq_true hin⟩
  obtain ⟨m, hm, hmid⟩ := mem_ids.1 hin
  have hnode : ∃ m, g.node? d = some m := Option.isSome_iff_exists.1
    (List.find?_isSome.2 ⟨m, hm, decide_eq_true hmid⟩)
  obtain ⟨m, hm⟩ := hnode
  rcases List.mem_append.1 hmem with hmem | hmem
  · obtain rfl := (node?_eq_some hm).2
    rw [← hbefore]
    exact List.mem_map_of_mem (List.mem_filterMap.2 ⟨m.id, hmem, hm⟩)
  · cases (hbetween d hmem).symm.trans hm

/-- The works of a graph are those of its nodes in their order. -/
theorem works_eq_ok {s : Settings} {works : List (Action Value)} (h : g.works s = .ok works) :
    ∃ ids, g.order = .ok ids ∧ works = (g.inOrder ids).map fun n => n.task.work s n.id := by
  rw [Graph.works] at h
  cases horder : g.order with
  | error e =>
    rw [horder] at h
    cases h
  | ok ids =>
    rw [horder] at h
    obtain rfl := Except.ok.inj h
    exact ⟨ids, rfl, (List.map_filterMap ..).symm⟩

end Graph

end Wavefront
