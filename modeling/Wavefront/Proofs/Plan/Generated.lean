/-
Ids that are made up: when the nodes of a plan all have different ids.

The check of a plan compares the ids that steps and bodies have been given. The expansion makes up
some more: one for every item of a loop that is known, and one for every node that gathers results.
No two of them are the same, as those of one step have different endings and the ending tells what
is in front of it. But a step may have been given an id that is made up for another one. If both
become ids of nodes, there is no graph, and this is all that can go wrong with a plan that passes
the check and whose tools are registered.

For a loop it depends on the context which ids are made up. So the same plan may have a graph in one
context and none in another.
-/
import Mathlib.Data.List.Duplicate
import Mathlib.Data.List.Perm.Basic
import Wavefront.Proofs.Plan.Compiled
import Wavefront.Proofs.Plan.Tools
import Wavefront.Proofs.Run.Unrolled

set_option autoImplicit false

namespace Wavefront

/-! ## Endings -/

theorem underscore_not_mem_toString (i : Nat) : '_' ∉ (toString i).toList := by
  intro h
  exact absurd (isDigit_of_mem_toString h) (by decide)

/-- The id of an iteration, cut before its number. -/
theorem toList_iterationId_eq (id : String) (i : Nat) :
    (iterationId id i).toList = (id.toList ++ "_iter".toList) ++ '_' :: (toString i).toList := by
  rw [toList_iterationId, List.append_assoc]
  rfl

/-- The made up id of a gathering node ends with letters behind an underscore, not with a numeral.
-/
theorem toList_gatheredId (id : String) :
    (gatheredId id).toList = id.toList ++ '_' :: "agg".toList := by
  rw [gatheredId, String.toList_append]
  rfl

/-- The id of a node that gathers results is that of no iteration, of whatever step. -/
theorem iterationId_ne_gatheredId_of (id other : String) (i : Nat) :
    iterationId id i ≠ gatheredId other := by
  intro h
  have hlist := congrArg String.toList h
  rw [toList_iterationId_eq, toList_gatheredId] at hlist
  have hending := (Text.eq_of_append_cons_eq (underscore_not_mem_toString i) (by decide) hlist).2
  have hletter : 'a' ∈ (toString i).toList := by
    rw [hending]
    decide
  exact absurd (isDigit_of_mem_toString hletter) (by decide)

/-- An id that is made up for a step. -/
def MadeUpFor (id n : String) : Prop := n = gatheredId id ∨ ∃ i, n = iterationId id i

/-- An id is made up for one step only. -/
theorem MadeUpFor.unique {id other n : String} (h : MadeUpFor id n) (hother : MadeUpFor other n) :
    id = other := by
  rcases h with rfl | ⟨i, rfl⟩
  · rcases hother with h | ⟨j, h⟩
    · have hlist := congrArg String.toList h
      rw [toList_gatheredId, toList_gatheredId] at hlist
      exact String.toList_injective (List.append_cancel_right hlist)
    · exact absurd h.symm (iterationId_ne_gatheredId_of other id j)
  · rcases hother with h | ⟨j, h⟩
    · exact absurd h (iterationId_ne_gatheredId_of id other i)
    · have hlist := congrArg String.toList h
      rw [toList_iterationId_eq, toList_iterationId_eq] at hlist
      have hfront := (Text.eq_of_append_cons_eq (underscore_not_mem_toString i)
        (underscore_not_mem_toString j) hlist).1
      exact String.toList_injective (List.append_cancel_right hfront)

/-! ## Ids of nodes -/

namespace Step

/-- The step's own id, if the step makes a node that has it. -/
def plainIds (context : Value) : Step → List String
  | loop s =>
      match s.known? context with
      | some _ => []
      | none => [s.id]
  | parallel _ _ => []
  | step => [step.id]

/-- The ids that are made up for nodes of the step. -/
def generatedIds (context : Value) : Step → List String
  | loop s =>
      match s.known? context with
      | some items => s.iterationIds items ++ [gatheredId s.id]
      | none => []
  | parallel shell _ =>
      match shell.output with
      | some _ => [gatheredId shell.id]
      | none => []
  | _ => []

/-- The nodes that a step makes have its own id or one that is made up. -/
theorem madeIds_eq_append (context : Value) (s : Step) :
    s.madeIds context = s.plainIds context ++ s.generatedIds context := by
  cases s with
  | loop s =>
    rw [madeIds, made, plainIds, generatedIds]
    cases s.known? context with
    | none => rfl
    | some items => simp [Function.comp_def]
  | parallel shell steps =>
    rw [madeIds, made, plainIds, generatedIds]
    cases shell.output with
    | none => rfl
    | some output => rfl
  | tool s => rfl
  | reduce s => rfl
  | conditional shell condition yes no => rfl
  | final s => rfl

/-- At most one node of a step has its own id. -/
theorem plainIds_sublist (context : Value) (s : Step) : (s.plainIds context).Sublist [s.id] := by
  cases s with
  | loop s =>
    rw [plainIds]
    cases s.known? context with
    | none => exact List.Sublist.refl _
    | some items => exact List.nil_sublist _
  | parallel shell steps => exact List.nil_sublist _
  | tool s => exact List.Sublist.refl _
  | reduce s => exact List.Sublist.refl _
  | conditional shell condition yes no => exact List.Sublist.refl _
  | final s => exact List.Sublist.refl _

/-- What is made up for a step can be told from its form. -/
theorem madeUpFor_of_mem_generatedIds {context : Value} {s : Step} {n : String}
    (h : n ∈ s.generatedIds context) : MadeUpFor s.id n := by
  -- only loops over known items and groups with an output make up ids
  cases s with
  | loop s =>
    rw [generatedIds] at h
    cases hknown : s.known? context with
    | none =>
      rw [hknown] at h
      exact absurd h List.not_mem_nil
    | some items =>
      rw [hknown] at h
      rcases List.mem_append.1 h with h | h
      · obtain ⟨item, -, rfl⟩ := List.mem_map.1 h
        exact .inr ⟨item.2, rfl⟩
      · exact .inl (List.mem_singleton.1 h)
  | parallel shell steps =>
    rw [generatedIds] at h
    cases houtput : shell.output with
    | none =>
      rw [houtput] at h
      exact absurd h List.not_mem_nil
    | some output =>
      rw [houtput] at h
      exact .inl (List.mem_singleton.1 h)
  | tool s => exact absurd h List.not_mem_nil
  | reduce s => exact absurd h List.not_mem_nil
  | conditional shell condition yes no => exact absurd h List.not_mem_nil
  | final s => exact absurd h List.not_mem_nil

/-- No id is made up twice for one step. -/
theorem nodup_generatedIds (context : Value) (s : Step) : (s.generatedIds context).Nodup := by
  cases s with
  | loop s =>
    rw [generatedIds]
    cases s.known? context with
    | none => exact List.nodup_nil
    | some items =>
      refine List.nodup_append.2 ⟨s.nodup_iterationIds items, List.nodup_singleton _, ?_⟩
      rintro id hid other hother rfl
      obtain rfl := List.mem_singleton.1 hother
      exact s.gatheredId_not_mem items hid
  | parallel shell steps =>
    rw [generatedIds]
    cases shell.output with
    | none => exact List.nodup_nil
    | some output => exact List.nodup_singleton _
  | tool s => exact List.nodup_nil
  | reduce s => exact List.nodup_nil
  | conditional shell condition yes no => exact List.nodup_nil
  | final s => exact List.nodup_nil

end Step

/-! ## Graphs -/

namespace Graph

/-- What comes up again is in the list, and stands before it or twice in it. -/
theorem duplicate_of_repeated? {α : Type} [DecidableEq α] {seen list : List α} {a : α}
    (h : repeated? seen list = some a) : a ∈ list ∧ (a ∈ seen ∨ List.Duplicate a list) := by
  induction list generalizing seen with
  | nil => cases h
  | cons b rest ih =>
    by_cases hb : b ∈ seen
    · rw [repeated?, if_pos hb] at h
      obtain rfl := Option.some.inj h
      exact ⟨List.mem_cons_self, .inl hb⟩
    · rw [repeated?, if_neg hb] at h
      obtain ⟨hmem, hseen⟩ := ih h
      refine ⟨List.mem_cons_of_mem b hmem, ?_⟩
      rcases hseen with hseen | hdup
      · rcases List.mem_cons.1 hseen with rfl | hseen
        · exact .inr (List.Mem.duplicate_cons_self hmem)
        · exact .inl hseen
      · exact .inr (hdup.duplicate_cons b)

/-- Nodes that have no graph have an id in common. -/
theorem ofNodes_eq_error {nodes : List Node} {err : Error} (h : ofNodes nodes = .error err) :
    ∃ n, err = .graph (.duplicateNode n) ∧ List.Duplicate n (nodes.map Node.id) := by
  rw [ofNodes] at h
  split at h
  · rename_i n hn
    obtain rfl := Except.error.inj h
    exact ⟨n, rfl, (duplicate_of_repeated? hn).2.resolve_left List.not_mem_nil⟩
  · cases h

/-- Nodes have a graph if and only if they have different ids. -/
theorem exists_ofNodes_iff {nodes : List Node} :
    (∃ g, ofNodes nodes = .ok g) ↔ (nodes.map Node.id).Nodup := by
  constructor
  · rintro ⟨g, hg⟩
    rw [← nodes_of_ofNodes hg]
    exact g.nodup
  · intro h
    cases hnodes : ofNodes nodes with
    | ok g => exact ⟨g, rfl⟩
    | error err =>
      obtain ⟨n, -, hn⟩ := ofNodes_eq_error hnodes
      exact absurd h hn.not_nodup

end Graph

/-! ## Plans -/

namespace Plan

variable {p : Plan} {tools : Registry} {context : Value}

/-- The places of the plan that make nodes. -/
def stations (p : Plan) : List Place :=
  (p.steps.map fun s => (⟨s, [], none⟩ : Place)).flatMap Place.stations

theorem stations_sublist (p : Plan) : p.stations.Sublist p.places := by
  rw [places, Place.placesAll_eq_flatMap]
  exact List.Sublist.flatMap_right _ fun P _ => List.filter_sublist

/-- The id of a node that one step has been given, and that is made up for another one. -/
def Clashes (p : Plan) (context : Value) (n : String) : Prop :=
  (∃ S ∈ p.stations, n ∈ S.step.plainIds context) ∧ ∃ S ∈ p.stations, n ∈ S.step.generatedIds context

/-- No two stations have the same id. -/
theorem Sound.nodup_stations (hp : p.Sound) : (p.stations.map Place.id).Nodup := by
  have hsteps := hp.nodup_steps
  rw [← map_step_places, List.map_map] at hsteps
  exact ((stations_sublist p).map Place.id).nodup hsteps

/-- No two nodes have the same id of a step. -/
theorem Sound.nodup_plainIds (hp : p.Sound) (context : Value) :
    (p.stations.flatMap fun S => S.step.plainIds context).Nodup := by
  apply List.Sublist.nodup _ hp.nodup_stations
  rw [List.map_eq_flatMap]
  exact List.Sublist.flatMap_right _ fun S _ => S.step.plainIds_sublist context

/-- No id is made up twice, be it for one step or for two. -/
theorem Sound.nodup_generatedIds (hp : p.Sound) (context : Value) :
    (p.stations.flatMap fun S => S.step.generatedIds context).Nodup := by
  rw [List.nodup_flatMap]
  refine ⟨fun S _ => S.step.nodup_generatedIds context, ?_⟩
  refine (List.pairwise_map.1 hp.nodup_stations).imp fun {S Q} hne n hS hQ => hne ?_
  exact (Step.madeUpFor_of_mem_generatedIds hS).unique (Step.madeUpFor_of_mem_generatedIds hQ)

/-- Of the ids of nodes those come up twice that clash. -/
theorem Sound.duplicate_iff (hp : p.Sound) {n : String} :
    List.Duplicate n (p.stations.flatMap fun S => S.step.madeIds context) ↔ p.Clashes context n := by
  have hperm := List.flatMap_append_perm p.stations (fun S => S.step.plainIds context)
    (fun S => S.step.generatedIds context)
  have hmade : (p.stations.flatMap fun S => S.step.madeIds context)
      = p.stations.flatMap fun S => S.step.plainIds context ++ S.step.generatedIds context :=
    congrArg p.stations.flatMap (funext fun S => S.step.madeIds_eq_append context)
  -- in each of the two parts an id comes up at most once
  have hplain := List.nodup_iff_count_le_one.1 (hp.nodup_plainIds context) n
  have hgenerated := List.nodup_iff_count_le_one.1 (hp.nodup_generatedIds context) n
  rw [List.duplicate_iff_two_le_count, hmade, ← hperm.count_eq, List.count_append, Clashes,
    ← List.mem_flatMap, ← List.mem_flatMap, ← List.count_pos_iff, ← List.count_pos_iff]
  omega

/-- The graph of a plan is that of its expansion. -/
theorem expand_of_expandAll {e : Expansion}
    (he : Step.expandAll tools context [] p.steps = .ok e) : p.expand tools context = e.graph := by
  rw [expand, he]
  rfl

/-- The ids of the drafts of a plan are those that its stations make. -/
theorem drafts_perm {e : Expansion} (he : Step.expandAll tools context [] p.steps = .ok e) :
    ((e.drafts.map e.finish).map Node.id).Perm
      (p.stations.flatMap fun S => S.step.madeIds context) := by
  rw [List.map_map]
  exact (covers_expandAll he).ids

/-- If no step has an id that is made up for a step, then there is nothing that clashes. -/
theorem not_clashes_of_not_madeUpFor
    (h : ∀ s ∈ p.allSteps, ∀ t ∈ p.allSteps, ¬ MadeUpFor t.id s.id) (n : String) :
    ¬ p.Clashes context n := by
  rintro ⟨⟨S, hS, hplain⟩, Q, hQ, hgenerated⟩
  have hSmem : S.step ∈ p.allSteps := step_mem_allSteps ((stations_sublist p).subset hS)
  have hQmem : Q.step ∈ p.allSteps := step_mem_allSteps ((stations_sublist p).subset hQ)
  obtain rfl := List.mem_singleton.1 ((S.step.plainIds_sublist context).subset hplain)
  exact h S.step hSmem Q.step hQmem (Step.madeUpFor_of_mem_generatedIds hgenerated)

/-- Where all tools are registered, only ids that clash keep a plan from having a graph. -/
theorem Sound.exists_expand_iff (hp : p.Sound) (htools : p.Equipped tools) :
    (∃ g, p.expand tools context = .ok g) ↔ ∀ n, ¬ p.Clashes context n := by
  obtain ⟨e, he⟩ := (Step.exists_expandAll_iff p.steps []).2 htools
  rw [expand_of_expandAll he, Expansion.graph, Graph.exists_ofNodes_iff, (drafts_perm he).nodup_iff,
    List.nodup_iff_forall_not_duplicate]
  exact forall_congr' fun n => not_congr hp.duplicate_iff

/-- What is reported then is an id that clashes. -/
theorem Sound.clashes_of_expand (hp : p.Sound) (htools : p.Equipped tools) {err : Error}
    (herr : p.expand tools context = .error err) :
    ∃ n, err = .graph (.duplicateNode n) ∧ p.Clashes context n := by
  obtain ⟨e, he⟩ := (Step.exists_expandAll_iff p.steps []).2 htools
  rw [expand_of_expandAll he] at herr
  obtain ⟨n, rfl, hn⟩ := Graph.ofNodes_eq_error herr
  refine ⟨n, rfl, hp.duplicate_iff.1 ?_⟩
  rw [List.duplicate_iff_two_le_count] at hn ⊢
  rwa [← (drafts_perm he).count_eq]

/-- Take a plan that passes the check and whose tools are registered. In a context it has a graph if
and only if no id of a node that a step has been given is made up there for another step; and if
there is no graph, then it is such an id that is reported. So if no step has an id of that form, the
plan has a graph in every context. -/
theorem expand_iff_not_clashes (hcheck : check p.toValue = .ok ()) (htools : p.Equipped tools) :
    (∀ context, ((∃ g, p.expand tools context = .ok g) ↔ ∀ n, ¬ p.Clashes context n) ∧
      ∀ err, p.expand tools context = .error err →
        ∃ n, err = .graph (.duplicateNode n) ∧ p.Clashes context n) ∧
    ((∀ s ∈ p.allSteps, ∀ t ∈ p.allSteps, ¬ MadeUpFor t.id s.id) →
      ∀ context, ∃ g, p.expand tools context = .ok g) := by
  have hsound := sound_of_check hcheck
  refine ⟨?_, ?_⟩
  · intro context
    exact ⟨hsound.exists_expand_iff htools, fun err => hsound.clashes_of_expand htools⟩
  · intro hids context
    exact (hsound.exists_expand_iff htools).2 (not_clashes_of_not_madeUpFor hids)

/-- A loop, and a step with the id that is made up for the node that gathers the results of the
loop. -/
def takenId : Plan where
  version := "1"
  steps := [
    .loop {
      id := "l"
      items := .string "xs"
      binder := "x"
      body := { id := "", tool := "echo", input := .string "{{x}}" } },
    .tool { id := gatheredId "l", tool := "echo" }]

theorem check_takenId : check takenId.toValue = .ok () := by cbv

theorem exists_expand_takenId : ∃ g, takenId.expand .standard (.object []) = .ok g :=
  exists_eq_ok_of_isOk (by cbv)

/-- The same plan has no clash in one context and one in another. -/
theorem expand_iff_not_clashes_takenId :
    check takenId.toValue = .ok () ∧ takenId.Equipped .standard ∧
    (∀ n, ¬ takenId.Clashes (.object []) n) ∧
    ∃ n, takenId.Clashes (.object [("xs", .array [.null])]) n := by
  obtain ⟨g, hg⟩ := exists_expand_takenId
  have htools := equipped_of_expand hg
  have hgraph := (expand_iff_not_clashes check_takenId htools).1
  obtain ⟨err, herr⟩ := exists_eq_error_of_isOk
    (x := takenId.expand .standard (.object [("xs", .array [.null])])) (by cbv)
  obtain ⟨n, -, hn⟩ := (hgraph _).2 err herr
  exact ⟨check_takenId, htools, (hgraph _).1.1 ⟨g, hg⟩, n, hn⟩

/-- The plan passes the check and its tools are registered. It has a graph in one context and none
in another. -/
theorem takenId_clashes :
    check takenId.toValue = .ok () ∧ takenId.Equipped .standard ∧
    (∃ g, takenId.expand .standard (.object []) = .ok g) ∧
    ¬ ∃ g, takenId.expand .standard (.object [("xs", .array [.null])]) = .ok g := by
  obtain ⟨g, hg⟩ := exists_expand_takenId
  refine ⟨check_takenId, equipped_of_expand hg, ⟨g, hg⟩, ?_⟩
  rintro ⟨g', hg'⟩
  obtain ⟨err, herr⟩ := exists_eq_error_of_isOk
    (x := takenId.expand .standard (.object [("xs", .array [.null])])) (by cbv)
  cases hg'.symm.trans herr

end Plan

end Wavefront
