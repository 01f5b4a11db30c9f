/-
Documents that pass the check, and what it objects to in those that do not.

What the check is to find out is said of the document as it stands, before anything is read from it:
where steps stand in it, which ids belong to them, and which of these wait for which. A step waits
for what it names, for what the steps around it name and for the steps directly inside it; a body
waits for the step that it belongs to. In a document that passes, no id comes up twice, nothing is
named that is not there, and waiting does not go in a circle.

Where one of the last two fails it is reported, whatever else may be wrong with the document: every
unknown id by itself, and a circle as a circle, unless some id comes up twice. In that case it is
not settled whose the id is, and that is reported.
-/
import Wavefront.Proofs.Plan.Reload

set_option autoImplicit false

namespace Wavefront

namespace Survey

/-! ## Where steps stand -/

/-- A step stands somewhere in the value, and there it inherits what the steps around it name: these
ids, behind those of the scope that the value stands in. -/
inductive Stands : Value → List String → Fields → List String → Prop
  | here (S : Fields) (scope : List String) : Stands (.object S) scope S scope
  | inside {E S : Fields} {v : Value} {scope inherited : List String} (hv : v ∈ members E)
      (h : Stands v (scope ++ dependsOn E) S inherited) : Stands (.object E) scope S inherited

variable {v : Value} {scope inherited : List String} {S : Fields}

/-- What stands inside a step is met on the walk through it. -/
theorem Stands.mem_visited (h : Stands v scope S inherited) : S ∈ visited v := by
  induction h with
  | here S scope =>
    rw [visited_object]
    exact List.mem_cons_self
  | inside hv _ ih =>
    rw [visited_object]
    exact List.mem_cons_of_mem _ (List.mem_flatMap.2 ⟨_, hv, ih⟩)

/-- All steps that the survey goes through stand somewhere. -/
theorem exists_stands_of_mem_visited (scope : List String) (h : S ∈ visited v) :
    ∃ inherited, Stands v scope S inherited := by
  -- along the walk the scope grows by what the steps around name
  induction v using visitedInduction generalizing scope with
  | object fields ih =>
    rw [visited_object] at h
    rcases List.mem_cons.1 h with rfl | h
    · exact ⟨scope, .here S scope⟩
    · obtain ⟨v, hv, hS⟩ := List.mem_flatMap.1 h
      obtain ⟨inherited, hstands⟩ := ih v hv (scope ++ dependsOn fields) hS
      exact ⟨inherited, .inside hv hstands⟩
  | other v hv =>
    rw [visited_of_not_object hv] at h
    exact absurd h List.not_mem_nil

/-- What the survey of a step declares is declared wherever the step stands. -/
theorem Stands.exists_place (h : Stands v scope S inherited) (path : String) :
    ∃ place, ∀ d ∈ (surveyStep place inherited (.object S)).survey.declared,
      d ∈ (surveyStep path scope v).survey.declared := by
  induction h generalizing path with
  | here S scope => exact ⟨path, fun d hd => hd⟩
  | @inside E S v scope inherited hv _ ih =>
    obtain ⟨inner, hinner, -⟩ := exists_place_of_mem_members hv path (scope ++ dependsOn E)
    obtain ⟨place, hplace⟩ := ih inner
    refine ⟨place, ?_⟩
    intro d hd
    rw [declared_surveyStep_object]
    exact List.mem_append_left _ (hinner d (hplace d hd))

/-- A step that has an id is declared as waiting for what it names, for what it inherits and for its
members. -/
theorem Stands.exists_declared (h : Stands v scope S inherited) {id : String}
    (hid : usableText? S "id" = some id) (path : String) :
    ∃ d ∈ (surveyStep path scope v).survey.declared, d.id = id ∧ d.dependsOn = dependsOn S ∧
      (∀ b ∈ inherited, b ∈ d.implied) ∧
      ∀ M child, .object M ∈ members S → usableText? M "id" = some child → child ∈ d.implied := by
  obtain ⟨place, hplace⟩ := h.exists_place path
  have hdeclared := declared_surveyStep_object S place inherited
  rw [hid] at hdeclared
  refine ⟨⟨id, place, dependsOn S,
    inherited ++ typedMemberIds S place (inherited ++ dependsOn S)⟩, hplace _ ?_, rfl, rfl, ?_, ?_⟩
  · rw [hdeclared]
    exact List.mem_append_right _ (List.mem_singleton_self _)
  · intro b hb
    exact List.mem_append_left _ hb
  · intro M child hM hchild
    obtain ⟨inner, -, hids⟩ := exists_place_of_mem_members hM place (inherited ++ dependsOn S)
    apply List.mem_append_right
    apply hids
    rw [ids_surveyStep_of_usable hchild]
    exact List.mem_singleton_self _

/-- A body that has an id is declared as waiting for its step. -/
theorem Stands.exists_declared_body (h : Stands v scope S inherited) {id b : String}
    (hid : usableText? S "id" = some id) (hb : b ∈ bodyId (bodyOf? S)) (path : String) :
    ∃ d ∈ (surveyStep path scope v).survey.declared, d.id = b ∧ id ∈ d.implied := by
  obtain ⟨place, hplace⟩ := h.exists_place path
  obtain ⟨inner, htyped⟩ := declared_typedSurvey S place (inherited ++ dependsOn S)
  rw [hid] at htyped
  refine ⟨⟨b, inner, [], [id]⟩, hplace _ ?_, rfl, List.mem_singleton_self _⟩
  rw [declared_surveyStep_object, htyped]
  exact List.mem_append_left _ (List.mem_append_left _ (List.mem_map.2 ⟨b, hb, rfl⟩))

/-- In a value that is accepted every step has an id. -/
theorem exists_id_of_accepts (h : Accepts v) (hS : S ∈ visited v) :
    ∃ id, usableText? S "id" = some id := by
  induction v using visitedInduction with
  | object fields ih =>
    obtain ⟨tag, htag⟩ := accepts_object.1 h
    rw [visited_object] at hS
    rcases List.mem_cons.1 hS with rfl | hS
    · exact htag.id
    · obtain ⟨v, hv, hS⟩ := List.mem_flatMap.1 hS
      exact ih v hv (Accepts.of_mem_members htag hv) hS
  | other v hv =>
    rw [visited_of_not_object hv] at hS
    exact absurd hS List.not_mem_nil

/-! ## Circles -/

/-- If waiting goes in a circle, some circle is reported. -/
theorem exists_circleIssue {known : List String} {declared : List Declared} {a : String}
    (h : Relation.TransGen (Digraph.Edge (waits known declared)) a a) :
    ∃ path cycle, ⟨path, .circularDependency cycle⟩ ∈ circleIssues known declared := by
  cases hcycles : Digraph.cyclesFrom (waits known declared) (declared.map (·.id)) with
  | nil =>
    obtain ⟨b, hab, -⟩ := Relation.TransGen.head'_iff.1 h
    obtain ⟨-, d, hd, rfl, -⟩ := exists_declared_of_edge hab
    have hgrounded := Digraph.grounded_of_cyclesFrom_eq_nil hcycles (List.mem_map.2 ⟨d, hd, rfl⟩)
    exact absurd h hgrounded.not_transGen_self
  | cons cycle cycles =>
    refine ⟨placeOf declared (cycle.headD "") ++ ".depends_on", cycle, ?_⟩
    rw [circleIssues, hcycles]
    exact List.mem_cons_self

end Survey

/-! ## Documents -/

namespace Plan

open Survey

variable {document : Value} {a b : String}

/-- A step stands somewhere in the document, and there it inherits these ids. -/
def Stands (document : Value) (S : Survey.Fields) (inherited : List String) : Prop :=
  ∃ v ∈ itemsAt "steps" (document.object?.getD []), Survey.Stands v [] S inherited

/-- All ids of the document: those of its steps and those of their bodies, unless they are empty. -/
def documentIds (document : Value) : List String := (visited document).flatMap ownIds

/-- What waits for what in the document, by ids. -/
inductive WaitsIn (document : Value) : String → String → Prop
  /-- A step waits for what it names. -/
  | named {S : Survey.Fields} {inherited : List String} {id d : String}
      (hS : Stands document S inherited) (hid : usableText? S "id" = some id)
      (hd : d ∈ dependsOn S) : WaitsIn document id d
  /-- A step waits for what any step around it names. -/
  | inherited {S : Survey.Fields} {inherited : List String} {id d : String}
      (hS : Stands document S inherited) (hid : usableText? S "id" = some id)
      (hd : d ∈ inherited) : WaitsIn document id d
  /-- A step waits for the steps directly inside it. -/
  | member {S M : Survey.Fields} {inherited : List String} {id child : String}
      (hS : Stands document S inherited) (hid : usableText? S "id" = some id)
      (hM : .object M ∈ members S) (hchild : usableText? M "id" = some child) :
      WaitsIn document id child
  /-- A body waits for its step. -/
  | body {S : Survey.Fields} {inherited : List String} {id b : String}
      (hS : Stands document S inherited) (hid : usableText? S "id" = some id)
      (hb : b ∈ bodyId (bodyOf? S)) : WaitsIn document b id

/-- The walk meets what stands in the document, and nothing else. -/
theorem mem_visited_iff {S : Survey.Fields} :
    S ∈ visited document ↔ ∃ inherited, Stands document S inherited := by
  constructor
  · intro h
    obtain ⟨v, hv, hS⟩ := List.mem_flatMap.1 h
    obtain ⟨inherited, hstands⟩ := exists_stands_of_mem_visited [] hS
    exact ⟨inherited, v, hv, hstands⟩
  · rintro ⟨inherited, v, hv, hstands⟩
    exact List.mem_flatMap.2 ⟨v, hv, hstands.mem_visited⟩

theorem ids_surveyed_document (document : Value) :
    (surveyed document).ids = documentIds document :=
  ids_surveyed (document.object?.getD [])

/-- A step that stands in the document has its id among those of the document. -/
theorem id_mem_documentIds {S : Survey.Fields} {inherited : List String}
    (hS : Stands document S inherited) {id : String} (hid : usableText? S "id" = some id) :
    id ∈ documentIds document := by
  refine List.mem_flatMap.2 ⟨S, mem_visited_iff.2 ⟨inherited, hS⟩, ?_⟩
  rw [ownIds, hid]
  exact List.mem_append_left _ (List.mem_singleton_self _)

/-- A document with an id has steps. -/
theorem steps_ne_nil_of_mem (h : a ∈ documentIds document) :
    itemsAt "steps" (document.object?.getD []) ≠ [] := by
  intro hnil
  rw [documentIds, visited, hnil] at h
  exact absurd h List.not_mem_nil

/-- What waits is an id of the document. -/
theorem WaitsIn.source_mem (h : WaitsIn document a b) : a ∈ documentIds document := by
  cases h with
  | named hS hid _ => exact id_mem_documentIds hS hid
  | inherited hS hid _ => exact id_mem_documentIds hS hid
  | member hS hid _ _ => exact id_mem_documentIds hS hid
  | @body S inherited id b hS hid hb =>
    refine List.mem_flatMap.2 ⟨S, mem_visited_iff.2 ⟨inherited, hS⟩, ?_⟩
    exact List.mem_append_right _ hb

/-- A step that has an id is declared as waiting for what it names, for what it inherits and for its
members. -/
theorem Stands.exists_declared {S : Survey.Fields} {inherited : List String}
    (h : Stands document S inherited) {id : String} (hid : usableText? S "id" = some id) :
    ∃ d ∈ (surveyed document).declared, d.id = id ∧ d.dependsOn = dependsOn S ∧
      (∀ b ∈ inherited, b ∈ d.implied) ∧
      ∀ M child, .object M ∈ members S → usableText? M "id" = some child → child ∈ d.implied := by
  obtain ⟨v, hv, hstands⟩ := h
  obtain ⟨path, hpath, -⟩ := exists_place_of_mem "steps" "" [] 0 hv
  obtain ⟨d, hd, hwaits⟩ := hstands.exists_declared hid path
  exact ⟨d, hpath d hd, hwaits⟩

/-- What waits is declared as waiting. -/
theorem WaitsIn.exists_declared (h : WaitsIn document a b) :
    ∃ d ∈ (surveyed document).declared, d.id = a ∧ b ∈ d.dependsOn ++ d.implied := by
  cases h with
  | named hS hid hd =>
    obtain ⟨d, hmem, hdid, hdepends, -⟩ := hS.exists_declared hid
    exact ⟨d, hmem, hdid, List.mem_append_left _ (hdepends ▸ hd)⟩
  | inherited hS hid hd =>
    obtain ⟨d, hmem, hdid, -, hinherited, -⟩ := hS.exists_declared hid
    exact ⟨d, hmem, hdid, List.mem_append_right _ (hinherited b hd)⟩
  | member hS hid hM hchild =>
    obtain ⟨d, hmem, hdid, -, -, hmembers⟩ := hS.exists_declared hid
    exact ⟨d, hmem, hdid, List.mem_append_right _ (hmembers _ _ hM hchild)⟩
  | body hS hid hb =>
    obtain ⟨v, hv, hstands⟩ := hS
    obtain ⟨path, hpath, -⟩ := exists_place_of_mem "steps" "" [] 0 hv
    obtain ⟨d, hmem, hdid, howner⟩ := hstands.exists_declared_body hid hb path
    exact ⟨d, hpath d hmem, hdid, List.mem_append_right _ howner⟩

/-- If no id comes up twice, a way of waiting to an id of the document is one in the graph that is
searched for circles. -/
theorem edges_of_waitsIn (hnodup : (documentIds document).Nodup)
    (h : Relation.TransGen (WaitsIn document) a b) (hb : b ∈ documentIds document) :
    Relation.TransGen
      (Digraph.Edge (waits (surveyed document).ids (surveyed document).declared)) a b := by
  have hedge : ∀ {a b : String}, WaitsIn document a b → b ∈ documentIds document →
      Digraph.Edge (waits (surveyed document).ids (surveyed document).declared) a b := by
    intro a b hwaits hb
    obtain ⟨d, hd, rfl, hmem⟩ := hwaits.exists_declared
    rw [← ids_surveyed_document] at hnodup hb
    exact edge_waits ((declared_surveyed_perm document).nodup_iff.2 hnodup) hd hmem hb
  -- of the ids on the way only the last has to be looked for: what waits is one of the document
  induction h with
  | single hwaits => exact .single (hedge hwaits hb)
  | tail _ hwaits ih => exact (ih hwaits.source_mem).tail (hedge hwaits hb)

/-- A circle goes through ids of the document. -/
theorem source_mem_of_circle (h : Relation.TransGen (WaitsIn document) a a) :
    a ∈ documentIds document := by
  obtain ⟨b, hab, -⟩ := Relation.TransGen.head'_iff.1 h
  exact hab.source_mem

/-! ### Documents that pass -/

/-- What is made sure of by the check of a document. -/
structure InOrder (document : Value) : Prop where
  /-- Every step has an id. -/
  named : ∀ S ∈ visited document, ∃ id, usableText? S "id" = some id
  /-- No two steps or bodies have the same id. -/
  nodup : (documentIds document).Nodup
  /-- All ids that steps name are there. -/
  known : ∀ S ∈ visited document, ∀ d ∈ dependsOn S, d ∈ documentIds document
  /-- Waiting does not go in a circle. -/
  acyclic : ∀ a, ¬ Relation.TransGen (WaitsIn document) a a

/-- A document that passes is in order. -/
theorem inOrder_of_check (h : check document = .ok ()) : InOrder document := by
  obtain ⟨fields, rfl, hchecked⟩ := exists_object_of_check h
  have hclean := clean_of_issues_eq_nil hchecked.issues
  have hnodup := hclean.nodup
  rw [ids_surveyed_document] at hnodup
  have hnamed : ∀ S ∈ visited (.object fields), ∃ id, usableText? S "id" = some id := by
    intro S hS
    obtain ⟨v, hv, hS⟩ := List.mem_flatMap.1 hS
    exact exists_id_of_accepts (hchecked.accepts v hv) hS
  refine ⟨hnamed, hnodup, ?_, ?_⟩
  · intro S hS d hd
    obtain ⟨id, hid⟩ := hnamed S hS
    obtain ⟨inherited, hstands⟩ := mem_visited_iff.1 hS
    obtain ⟨e, he, -, hdepends, -⟩ := hstands.exists_declared hid
    rw [← ids_surveyed_document]
    exact hclean.known e he d (hdepends ▸ hd)
  · intro a hcircle
    exact hclean.acyclic a (edges_of_waitsIn hnodup hcircle (source_mem_of_circle hcircle))

/-! ### Documents that do not -/

/-- The check refuses the document, and this problem is among those that it reports. -/
def RefusedFor (document : Value) (problem : Problem) : Prop :=
  ∃ issues path, check document = .error (.validation issues) ∧ ⟨path, problem⟩ ∈ issues

/-- All issues of the steps are reported, whatever else there is to report. -/
theorem refusedFor_of_mem_issues {problem : Problem} {path : String}
    (hsteps : itemsAt "steps" (document.object?.getD []) ≠ [])
    (h : ⟨path, problem⟩ ∈ (surveyed document).issues) : RefusedFor document problem := by
  cases document with
  | object fields =>
    change itemsAt "steps" fields ≠ [] at hsteps
    have hreported : ⟨path, problem⟩ ∈ issues (.object fields) := by
      -- behind the issues of the version and of the mode
      apply List.mem_append_right
      obtain ⟨v, hv⟩ := List.exists_mem_of_ne_nil _ hsteps
      have hfield : Fields.get? "steps" fields = some (.array (itemsAt "steps" fields)) :=
        get?_of_mem_itemsAt hv
      rw [hfield, checkSteps.eq_2 _ hsteps]
      exact h
    refine ⟨issues (.object fields), path, ?_, hreported⟩
    rw [check]
    split
    · rename_i hnone
      rw [hnone] at hreported
      exact absurd hreported List.not_mem_nil
    · rfl
  | null => exact absurd rfl hsteps
  | bool b => exact absurd rfl hsteps
  | number n => exact absurd rfl hsteps
  | string s => exact absurd rfl hsteps
  | array items => exact absurd rfl hsteps

/-- A step that has an id and names one that is not there is reported. -/
theorem refusedFor_unknown {S : Survey.Fields} {inherited : List String}
    (hS : Stands document S inherited) {id d : String} (hid : usableText? S "id" = some id)
    (hd : d ∈ dependsOn S) (hunknown : d ∉ documentIds document) :
    RefusedFor document (.unknownDependency d) := by
  obtain ⟨e, he, -, hdepends, -⟩ := hS.exists_declared hid
  rw [← ids_surveyed_document] at hunknown
  obtain ⟨path, hpath⟩ := exists_unknownIssue he (hdepends ▸ hd) hunknown
  apply refusedFor_of_mem_issues (steps_ne_nil_of_mem (id_mem_documentIds hS hid))
  exact List.mem_append_left _ (List.mem_append_right _ hpath)

/-- An id that comes up twice is reported. -/
theorem refusedFor_duplicate (hsteps : itemsAt "steps" (document.object?.getD []) ≠ [])
    (h : ¬ (documentIds document).Nodup) :
    ∃ id first, RefusedFor document (.duplicateId id first) := by
  by_contra hnone
  push Not at hnone
  apply h
  rw [← ids_surveyed_document]
  refine (@nodup_of_issuesOf (surveyed document).declared [] (surveyed document).findings ?_).1
  intro path id first hmem
  apply hnone id first
  apply refusedFor_of_mem_issues hsteps
  exact List.mem_append_left _ (List.mem_append_left _ hmem)

/-- A circle is reported, unless it is not settled whose the ids are. -/
theorem refusedFor_circle (hnodup : (documentIds document).Nodup)
    (h : Relation.TransGen (WaitsIn document) a a) :
    ∃ cycle, RefusedFor document (.circularDependency cycle) := by
  have hcircle := edges_of_waitsIn hnodup h (source_mem_of_circle h)
  obtain ⟨path, cycle, hmem⟩ := exists_circleIssue hcircle
  refine ⟨cycle, refusedFor_of_mem_issues ?_ (List.mem_append_right _ hmem)⟩
  exact steps_ne_nil_of_mem (source_mem_of_circle h)

/-- A document that passes the check is in order. One in which a step names an id that is not there,
or in which waiting goes in a circle, is refused for that, or in the second case for an id that
comes up twice; it need not be right in any other respect. -/
theorem check_finds_disorder (document : Value) :
    (check document = .ok () → InOrder document)
      ∧ (∀ S inherited id d, Stands document S inherited → usableText? S "id" = some id →
          d ∈ dependsOn S → d ∉ documentIds document →
          RefusedFor document (.unknownDependency d))
      ∧ ∀ a, Relation.TransGen (WaitsIn document) a a →
          (∃ cycle, RefusedFor document (.circularDependency cycle))
            ∨ ∃ id first, RefusedFor document (.duplicateId id first) := by
  refine ⟨inOrder_of_check, ?_, ?_⟩
  · intro S inherited id d hS hid hd hunknown
    exact refusedFor_unknown hS hid hd hunknown
  · intro a hcircle
    -- of two steps with one id only the later is searched, so the circle need not be found then
    by_cases hnodup : (documentIds document).Nodup
    · exact .inl (refusedFor_circle hnodup hcircle)
    · have hsteps := steps_ne_nil_of_mem (source_mem_of_circle hcircle)
      exact .inr (refusedFor_duplicate hsteps hnodup)

/-- The fields of a step that names these ids. -/
def memberFields (names : List String) : Survey.Fields :=
  [("depends_on", .array (names.map .string)), ("id", .string "m"), ("tool", .string "t")]

/-- The fields of the group that it is in. -/
def groupFields (names member : List String) : Survey.Fields :=
  [("depends_on", .array (names.map .string)), ("id", .string "g"),
    ("steps", .array [.object (memberFields member)]), ("type", .string "parallel")]

/-- The fields of a loop that names these ids and has a body with an id. -/
def loopFields (names : List String) : Survey.Fields :=
  [("as", .string "x"), ("depends_on", .array (names.map .string)), ("id", .string "l"),
    ("over", .string "c"), ("step", .object [("id", .string "b"), ("tool", .string "t")]),
    ("type", .string "loop")]

/-- A document with the group and the loop. -/
def groupAndLoop (group member loop : List String) : Value :=
  .object [("steps", .array [.object (groupFields group member), .object (loopFields loop)]),
    ("version", .string "1")]

/-- The group may wait for the body of the loop. It may not wait for an id that is not there, and
its member may not wait for the loop if the loop waits for the group. -/
theorem check_finds_disorder_groupAndLoop :
    InOrder (groupAndLoop ["b"] [] [])
      ∧ RefusedFor (groupAndLoop ["z"] [] []) (.unknownDependency "z")
      ∧ ((∃ cycle, RefusedFor (groupAndLoop [] ["l"] ["g"]) (.circularDependency cycle))
        ∨ ∃ id first, RefusedFor (groupAndLoop [] ["l"] ["g"]) (.duplicateId id first)) := by
  have hitems : ∀ group member loop,
      itemsAt "steps" ((groupAndLoop group member loop).object?.getD [])
        = [.object (groupFields group member), .object (loopFields loop)] := by
    intro group member loop
    cbv
  have hgroup : ∀ group member loop,
      Stands (groupAndLoop group member loop) (groupFields group member) [] := by
    intro group member loop
    exact ⟨_, hitems group member loop ▸ List.mem_cons_self, .here _ _⟩
  refine ⟨?_, ?_, ?_⟩
  · apply (check_finds_disorder _).1
    cbv
  · have hids : documentIds (groupAndLoop ["z"] [] []) = ["g", "m", "l", "b"] := by
      rw [← ids_surveyed_document]
      cbv
    have hnames : dependsOn (groupFields ["z"] []) = ["z"] := by cbv
    apply (check_finds_disorder _).2.1 _ _ "g" "z" (hgroup ["z"] [] [])
    · cbv
    · simp [hnames]
    · simp [hids]
  · have hmembers : members (groupFields [] ["l"]) = [.object (memberFields ["l"])] := by cbv
    have hmember : .object (memberFields ["l"]) ∈ members (groupFields [] ["l"]) :=
      hmembers ▸ List.mem_cons_self
    -- the group waits for its member, that for the loop, and the loop for the group
    have hdown : WaitsIn (groupAndLoop [] ["l"] ["g"]) "g" "m" :=
      .member (hgroup [] ["l"] ["g"]) (by cbv) hmember (by cbv)
    have hacross : WaitsIn (groupAndLoop [] ["l"] ["g"]) "m" "l" := by
      have hnames : dependsOn (memberFields ["l"]) = ["l"] := by cbv
      have hnone : dependsOn (groupFields [] ["l"]) = [] := by cbv
      have hstands : Stands (groupAndLoop [] ["l"] ["g"]) (memberFields ["l"]) [] := by
        refine ⟨_, hitems [] ["l"] ["g"] ▸ List.mem_cons_self, .inside hmember ?_⟩
        rw [hnone]
        exact .here _ _
      exact .named hstands (by cbv) (by simp [hnames])
    have hback : WaitsIn (groupAndLoop [] ["l"] ["g"]) "l" "g" := by
      have hnames : dependsOn (loopFields ["g"]) = ["g"] := by cbv
      have hstands : Stands (groupAndLoop [] ["l"] ["g"]) (loopFields ["g"]) [] :=
        ⟨_, hitems [] ["l"] ["g"] ▸ List.mem_cons_of_mem _ List.mem_cons_self, .here _ _⟩
      exact .named hstands (by cbv) (by simp [hnames])
    exact (check_finds_disorder _).2.2 "g" (.head hdown (.head hacross (.single hback)))

end Plan

end Wavefront
