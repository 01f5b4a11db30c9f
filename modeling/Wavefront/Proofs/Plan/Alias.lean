/-
What becomes of ids that are inside a conditional.

A step may name a step of a branch, or the body of a loop there. Outside of the conditional that
leads to its node, and inside it is settled when the branch is expanded, so it is not lifted. Then
every dependency of the graph is the id of one of its nodes.

There is one kind of id for which this fails. An inline reducer inside a conditional comes up in the
check of the plan like a body of any other step, so it may be named, but the conditional is not
known by it. It is then kept as it is, wherever it is named.
-/
import Wavefront.Proofs.Plan.Compiled
import Wavefront.Tool.Stock

set_option autoImplicit false

namespace Wavefront

/-- What steps name inside conditionals is resolved as it is meant. -/
structure Plan.ResolvesInside (p : Plan) (e : Expansion) (g : Graph) : Prop where
  /-- Named from outside, what is inside a conditional leads to its node. -/
  outside : ∀ S ∈ p.places, ∀ d ∈ S.step.dependsOn, ∀ T ∈ p.places, ∀ h, T.home = some h →
    d ∈ T.step.ownIds → S.home ≠ some h → e.resolve d = [h]
  /-- Named from inside, it is not declared for that node. -/
  inside : ∀ S ∈ p.places, ∀ d ∈ S.step.dependsOn, ∀ T ∈ p.places, ∀ h, T.home = some h →
    d ∈ T.step.ownIds → S.home = some h →
    ∀ draft ∈ e.drafts, draft.node.id = h → d ∉ draft.declared
  closed : ∀ n ∈ g.nodes, ∀ d ∈ n.deps, d ∈ g.ids

namespace Plan

variable {p : Plan} {tools : Registry} {context : Value} {e : Expansion} {g : Graph}

/-- No step names an inline reducer that is inside a conditional. -/
def NamesNoInnerReducer (p : Plan) : Prop :=
  ∀ S ∈ p.places, ∀ d ∈ S.step.dependsOn, ∀ T ∈ p.places, T.home ≠ none →
    T.step.kind = "reduce" → d ∉ T.step.bodyIds

/-- Of all that belongs to places only inline reducers inside conditionals are not known. -/
theorem mem_known_or_innerReducer {T : Place} {d : String} (hd : d ∈ T.step.ownIds) :
    d ∈ T.known ∨ T.home ≠ none ∧ T.step.kind = "reduce" ∧ d ∈ T.step.bodyIds := by
  cases hhome : T.home with
  | none =>
    left
    rwa [Place.known_of_home_none hhome]
  | some h =>
    rw [Place.known_of_home_some hhome]
    rcases Step.mem_innerIds hd with hinner | hreducer
    · exact .inl hinner
    · exact .inr ⟨Option.some_ne_none h, hreducer⟩

/-- An inline reducer inside a conditional is known of no place. -/
theorem Sound.unknown_of_innerReducer (hp : p.Sound) {T : Place} (hT : T ∈ p.places)
    (hhome : T.home ≠ none) (hkind : T.step.kind = "reduce") {d : String}
    (hd : d ∈ T.step.bodyIds) : ∀ Q ∈ p.places, d ∉ Q.known := by
  intro Q hQ hdQ
  have hown := Place.mem_ownIds_of_mem_known hdQ (Step.ne_empty_of_mem_bodyIds hd)
  obtain rfl : Q = T := hp.place_unique hQ hT hown (Step.mem_ownIds_of_mem_bodyIds hd)
  obtain ⟨h, hhome⟩ := Option.ne_none_iff_exists'.1 hhome
  rw [Place.known_of_home_some hhome, Step.innerIds_of_reduce hkind, List.mem_singleton] at hdQ
  -- the id of the step would come up twice
  have hnodup : Q.step.ownIds.Nodup := (List.nodup_flatMap.1 hp.nodup).1 Q hQ
  rw [hdQ] at hd
  exact (List.nodup_cons.1 hnodup).1 hd

namespace Compiled

/-- From outside, what is known inside a conditional leads to its node. -/
theorem resolve_of_outside (hc : p.Compiled context e g) {T : Place} (hT : T ∈ p.places)
    {h : String} (hhome : T.home = some h) {d : String} (hd : d ∈ T.known) (hne : d ≠ "") :
    e.resolve d = [h] := by
  rw [hc.resolve_of_mem_known hT hd hne, Place.exits_of_home_some hhome]

/-- What is known inside a conditional is not declared for it. -/
theorem not_declared_of_inside (hc : p.Compiled context e g) {C T : Place} (hC : C ∈ p.places)
    (hChome : C.home = none) (hT : T ∈ p.places) (hhome : T.home = some C.id) {d : String}
    (hd : d ∈ T.known) (hne : d ≠ "") : d ∉ C.declared := by
  intro hdeclared
  obtain ⟨Q, hQ, hroot, hdQ, hnot⟩ := (hc.sound.mem_declared hC hChome).1 hdeclared
  rcases hc.sound.station_unique hC hQ hroot with rfl | ⟨hkind, hinside⟩
  · -- the conditional would wait for what is inside it, and that for the conditional's own
    have hin : T ∈ C.inside := hc.sound.mem_inside_of_home hC hT hhome
    have hdT : d ∈ T.awaited :=
      Place.subset_awaited_of_mem_within (Place.inside_subset_within C hin) hdQ
    exact hc.sound.acyclic T.id
      (waits_owner hT hT hdT (Place.mem_ownIds_of_mem_known hd hne))
  · have hQhome : Q.home = some C.id := Place.home_of_mem_inside hChome hkind hinside
    refine hnot T hT ?_ (hhome.trans hQhome.symm) hd
    rw [hhome]
    exact Option.some_ne_none _

/-- As long as nothing names an inline reducer inside a conditional, every dependency is a node. -/
theorem resolvesInside_of_names (hc : p.Compiled context e g) (h : p.NamesNoInnerReducer) :
    p.ResolvesInside e g := by
  have hknown : ∀ S ∈ p.places, ∀ d ∈ S.step.dependsOn, ∀ T ∈ p.places, d ∈ T.step.ownIds →
      d ∈ T.known := by
    intro S hS d hd T hT hown
    rcases mem_known_or_innerReducer hown with hknown | ⟨hhome, hkind, hbody⟩
    · exact hknown
    · exact absurd hbody (h S hS d hd T hT hhome hkind)
  have hne : ∀ S ∈ p.places, ∀ d ∈ S.step.dependsOn, d ≠ "" := fun S hS d hd =>
    hc.sound.awaited_ne_empty hS (List.mem_append_right _ hd)
  -- named from outside, named from inside, and then all dependencies together
  refine ⟨?_, ?_, ?_⟩
  · intro S hS d hd T hT h hhome hown _
    exact hc.resolve_of_outside hT hhome (hknown S hS d hd T hT hown) (hne S hS d hd)
  · intro S hS d hd T hT h hhome hown _ draft hdraft hid hdeclared
    obtain ⟨C, hC, hChome, hkind, hCid, -⟩ := exists_home hT hhome
    obtain ⟨R, hR, hmade, hiff⟩ := hc.covers.stems draft hdraft
    obtain ⟨hR, hRhome⟩ := mem_stations.1 hR
    have hmadeR : C.id ∈ R.step.madeIds context := by
      rw [hCid, ← hid]
      exact List.mem_map.2 ⟨_, hmade, rfl⟩
    have hmadeC : C.id ∈ C.step.madeIds context := Step.id_mem_madeIds_of_conditional hkind
    -- the node of the conditional has been drafted for the conditional and for nothing else
    obtain rfl : C = R := hc.maker_unique hC hChome hR hRhome hmadeC hmadeR
    rw [← hCid] at hhome
    exact hc.not_declared_of_inside hC hChome hT hhome (hknown S hS d hd T hT hown)
      (hne S hS d hd) ((hiff d).1 hdeclared)
  · refine hc.closed_of_known fun Q hQ d hd => ?_
    obtain ⟨S, hS, hdS⟩ := exists_names hQ hd
    obtain ⟨T, hT, hown⟩ := Plan.mem_ids.1 (awaited_mem_ids hc.sound.known hQ d hd)
    exact ⟨T, hT, hknown S hS d hdS T hT hown⟩

/-- Where every id inside a conditional is resolved, none of an inline reducer there is named. -/
theorem names_of_resolvesInside (hc : p.Compiled context e g) (h : p.ResolvesInside e g) :
    p.NamesNoInnerReducer := by
  intro S hS d hd T hT hhome hkind hbody
  have hown : d ∈ T.step.ownIds := Step.mem_ownIds_of_mem_bodyIds hbody
  have hunknown := hc.sound.unknown_of_innerReducer hT hhome hkind hbody
  obtain ⟨home, hThome⟩ := Option.ne_none_iff_exists'.1 hhome
  obtain ⟨C, hC, hChome, hCkind, hCid, -⟩ := exists_home hT hThome
  by_cases hSC : S.home = some home
  · -- inside the conditional it is lifted
    have hmade : (C.id, []) ∈ C.step.made context := by
      rw [Step.made_of_conditional hCkind]
      exact List.mem_singleton_self _
    obtain ⟨draft, hdraft, heq, -, hiff⟩ :=
      hc.covers.drafted C (mem_stations.2 ⟨hC, hChome⟩) _ hmade
    refine h.inside S hS d hd T hT home hThome hown hSC draft hdraft ?_ ((hiff d).2 ?_)
    · rw [← hCid]
      exact (Prod.mk.inj heq).1
    · refine (hc.sound.mem_declared hC hChome).2
        ⟨S, hS, ?_, List.mem_append_right _ hd, fun R hR _ _ => hunknown R hR⟩
      rw [Place.root_of_home_some hSC, hCid]
  · -- outside of it, it is kept as it is
    have hresolve := h.outside S hS d hd T hT home hThome hown hSC
    rw [hc.resolve_of_unknown hunknown, List.cons.injEq] at hresolve
    refine hunknown C hC ?_
    rw [hresolve.1, ← hCid]
    exact C.id_mem_known

end Compiled

/-- What steps name inside conditionals is resolved as it is meant if and only if no step names an
inline reducer there. -/
theorem compile_resolvesInside_iff (h : p.compile tools context = .ok g) :
    (∃ e, Step.expandAll tools context [] p.steps = .ok e ∧ e.graph = .ok g
      ∧ p.ResolvesInside e g) ↔ p.NamesNoInnerReducer := by
  obtain ⟨e, he, hg, hc⟩ := compiled_of_compile h
  constructor
  · rintro ⟨e', he', -, hresolves⟩
    obtain rfl : e = e' := Except.ok.inj (he.symm.trans he')
    exact hc.names_of_resolvesInside hresolves
  · intro hnames
    exact ⟨e, he, hg, hc.resolvesInside_of_names hnames⟩

/-- A conditional with a loop in its branch. A step of the branch and one outside wait for the body
of the loop. -/
def bodyInBranch : Plan where
  version := "1"
  steps := [
    .conditional { id := "c" } "true" [
      .loop {
        id := "l"
        items := .array [.null]
        binder := "x"
        body := { id := "b", tool := "echo" } },
      .tool { id := "t", tool := "echo", dependsOn := ["b"] }] [],
    .tool { id := "f", tool := "echo", dependsOn := ["b"] }]

/-- A plan that names the body of a loop inside a branch, which resolves. -/
theorem compile_resolvesInside_iff_bodyInBranch :
    ∃ g, bodyInBranch.compile .standard (.object []) = .ok g
      ∧ ∃ e, Step.expandAll .standard (.object []) [] bodyInBranch.steps = .ok e
        ∧ e.graph = .ok g ∧ bodyInBranch.ResolvesInside e g := by
  obtain ⟨g, hg⟩ := exists_eq_ok_of_isOk (x := bodyInBranch.compile .standard (.object []))
    (by cbv)
  have hnames : bodyInBranch.NamesNoInnerReducer := by
    simp [NamesNoInnerReducer, places, bodyInBranch, Step.placesAll, Step.places, Step.kind]
  exact ⟨g, hg, (compile_resolvesInside_iff hg).2 hnames⟩

/-- A conditional with an inline reducer in its branch, for which a step outside waits. -/
def reducerInBranch : Plan where
  version := "1"
  steps := [
    .conditional { id := "c" } "true" [
      .reduce {
        id := "r"
        input := .array [.null]
        binder := "x"
        reducer := .inline { id := "i", tool := "echo" }
        output := "o" }] [],
    .tool { id := "f", tool := "echo", dependsOn := ["i"] }]

/-- The plan passes the check, and a node of its graph waits for what is the id of no node. -/
theorem reducerInBranch_not_closed :
    ∃ g, reducerInBranch.compile .standard (.object []) = .ok g
      ∧ (∃ T ∈ reducerInBranch.places, T.home = some "c" ∧ "i" ∈ T.step.bodyIds)
      ∧ g.DependsOn "f" "i" ∧ ¬ g.DependsOn "f" "c" ∧ "i" ∉ g.ids := by
  have hedges : (reducerInBranch.compile .standard (.object [])).toOption.map Graph.edges
      = some [("c", []), ("f", ["i"])] := by
    cbv
  obtain ⟨g, hg, hedges⟩ := Graph.exists_edges hedges
  let R : Place := ⟨.reduce {
    id := "r"
    input := .array [.null]
    binder := "x"
    reducer := .inline { id := "i", tool := "echo" }
    output := "o" }, [], some "c"⟩
  have hR : R ∈ reducerInBranch.places := by
    simp [R, places, reducerInBranch, Step.placesAll, Step.places]
  refine ⟨g, hg, ⟨R, hR, rfl, List.mem_singleton_self "i"⟩, ?_, ?_, ?_⟩
  · simp [Graph.dependsOn_iff_mem_edges, hedges]
  · simp [Graph.dependsOn_iff_mem_edges, hedges]
  · simp [← Graph.map_fst_edges, hedges]

end Plan

end Wavefront
