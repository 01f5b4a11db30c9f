/-
No order that a plan declares is lost in its graph.

A step waits for what it names and for what the steps around it name. Most steps have no node that
this could be written at, or have several; the expansion writes it at every node that a station
makes, by the ids of steps, and resolves the ids to the nodes that steps end with. The nodes of a
step are all reached from those, so whatever a step makes comes behind whatever the steps that it
waits for make. The one exception is inside a conditional, where the graph has one node for all.
-/
import Wavefront.Proofs.Plan.Compiled
import Wavefront.Tool.Stock

set_option autoImplicit false

namespace Wavefront

namespace Plan

variable {p : Plan} {tools : Registry} {context : Value} {e : Expansion} {g : Graph}

namespace Compiled

/-- What is declared for a place is declared for the stations that make its nodes. -/
theorem exists_maker (hc : p.Compiled context e g) {S T : Place} (hS : S ∈ p.places)
    (hT : T ∈ p.places) (hawaited : T.id ∈ S.awaited)
    (happart : S.home = none ∨ S.home ≠ T.home) {n : String} (hn : n ∈ S.nodes context) :
    ∃ Q ∈ p.places, Q.home = none ∧ n ∈ Q.step.madeIds context ∧ T.id ∈ Q.declared := by
  -- a step that stands by itself has nodes of its own stations, and one inside a conditional has
  -- that of the conditional
  cases hhome : S.home with
  | none =>
    rw [Place.nodes_of_home_none hhome] at hn
    obtain ⟨Q, hQ, hmade⟩ := (Place.mem_nodes hhome).1 hn
    obtain ⟨hwithin, hQnone⟩ := Place.mem_stations.1 hQ
    refine ⟨Q, mem_places_of_mem_within hS hwithin, hQnone, hmade, ?_⟩
    exact List.mem_append_left _ (Place.subset_awaited_of_mem_within hwithin hawaited)
  | some h =>
    rw [Place.nodes_of_home_some hhome, List.mem_singleton] at hn
    obtain ⟨C, hC, hCnone, hkind, hid, hinside⟩ := exists_home hS hhome
    refine ⟨C, hC, hCnone, ?_, ?_⟩
    · rw [hn, ← hid]
      exact Step.id_mem_madeIds_of_conditional hkind
    · refine (hc.sound.mem_declared hC hCnone).2 ⟨S, hS, ?_, hawaited, ?_⟩
      · rw [Place.root_of_home_some hhome, hid]
      · -- nothing inside the conditional is known by the id of a step outside of it
        intro R hR hne hRhome hknown
        have hsame := hc.sound.place_unique hR hT
          (Place.mem_ownIds_of_mem_known hknown (hc.sound.id_ne_empty hT)) T.step.id_mem_ownIds
        rw [hsame] at hRhome
        rcases happart with hnone | hapart
        · rw [hhome] at hnone
          cases hnone
        · exact hapart hRhome.symm

/-- Every node of a place is reached from one that the place ends with. -/
theorem reached_from_place (hc : p.Compiled context e g) {T : Place} (hT : T ∈ p.places)
    {m : String} (hm : m ∈ T.nodes context) :
    ∃ x ∈ T.exits context, Relation.ReflTransGen g.DependsOn x m := by
  cases hhome : T.home with
  | none =>
    rw [Place.nodes_of_home_none hhome] at hm
    rw [Place.exits_of_home_none hhome]
    exact hc.reached_from_exits hT hhome hm
  | some h =>
    rw [Place.nodes_of_home_some hhome] at hm
    rw [Place.exits_of_home_some hhome]
    exact ⟨m, hm, .refl⟩

end Compiled

/-- What a step makes comes behind all that is made by a step it waits for, unless a conditional
stands around both. -/
theorem compile_keeps_order (h : p.compile tools context = .ok g) {S T : Place}
    (hS : S ∈ p.places) (hT : T ∈ p.places) (hawaited : T.id ∈ S.awaited)
    (happart : S.home = none ∨ S.home ≠ T.home) :
    ∀ n ∈ S.nodes context, ∀ m ∈ T.nodes context,
      n ∈ g.ids ∧ m ∈ g.ids ∧ Relation.TransGen g.DependsOn n m := by
  intro n hn m hm
  obtain ⟨e, -, -, hc⟩ := compiled_of_compile h
  refine ⟨hc.mem_ids_of_mem_nodes hS hn, hc.mem_ids_of_mem_nodes hT hm, ?_⟩
  obtain ⟨Q, hQ, hhome, hmade, hdeclared⟩ := hc.exists_maker hS hT hawaited happart hn
  obtain ⟨x, hx, hway⟩ := hc.reached_from_place hT hm
  have hfirst : g.DependsOn n x := by
    refine hc.dependsOn_of_declared hQ hhome hmade hdeclared ?_
    rw [hc.resolve_id hT]
    exact hx
  exact .head' hfirst hway

/-- A loop over two items, and behind it a group with a conditional. -/
def loopBeforeGroup : Plan where
  version := "1"
  steps := [
    .loop {
      id := "l"
      items := .array [.null, .null]
      binder := "x"
      body := { id := "", tool := "echo" } },
    .parallel { id := "p", dependsOn := ["l"] } [
      .conditional { id := "c" } "true" [.tool { id := "t", tool := "echo" }] []]]

/-- A step in the branch comes behind each item of the loop that only the group names. -/
theorem compile_keeps_order_loopBeforeGroup :
    ∃ g, loopBeforeGroup.compile .standard (.object []) = .ok g
      ∧ "c" ∈ g.ids ∧ "l_iter_1" ∈ g.ids ∧ Relation.TransGen g.DependsOn "c" "l_iter_1" := by
  obtain ⟨g, hg⟩ := exists_eq_ok_of_isOk (x := loopBeforeGroup.compile .standard (.object []))
    (by cbv)
  let S : Place := ⟨.tool { id := "t", tool := "echo" }, ["l"], some "c"⟩
  let T : Place :=
    ⟨.loop {
      id := "l"
      items := .array [.null, .null]
      binder := "x"
      body := { id := "", tool := "echo" } }, [], none⟩
  have hS : S ∈ loopBeforeGroup.places := by
    simp [S, places, loopBeforeGroup, Step.placesAll, Step.places]
  have hT : T ∈ loopBeforeGroup.places := by
    simp [T, places, loopBeforeGroup, Step.placesAll, Step.places]
  have hn : "c" ∈ S.nodes (.object []) := List.mem_singleton_self "c"
  have hm : "l_iter_1" ∈ T.nodes (.object []) := by
    have hnodes : T.nodes (.object []) = ["l_iter_0", "l_iter_1", "l_agg"] := by cbv
    rw [hnodes]
    decide
  refine ⟨g, hg, compile_keeps_order hg hS hT ?_ ?_ "c" hn "l_iter_1" hm⟩
  · exact List.mem_singleton_self "l"
  · exact .inr (by simp [S, T])

end Plan

end Wavefront
