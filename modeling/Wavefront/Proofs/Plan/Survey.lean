/-
What it says of a survey that it has no issues.

The findings of a survey without issues are ids only, and no id twice. Every id that a step names is
among them, and from no step does waiting go on for ever. These four facts are all that is used of
the check of a document later on; `Survey.Clean` has them together.

Of the surveys of single fields nothing but two things is needed. They have no ids and declare
nothing, and if nothing is wrong with them then the field is what the step needs it to be.
-/
import Mathlib.Data.List.Nodup
import Wavefront.Plan.Check
import Wavefront.Proofs.Digraph.Search

set_option autoImplicit false

namespace Wavefront.Survey

/-! ## Surveys put together -/

/-- Findings come in the order of the surveys. -/
@[simp] theorem findings_append (s t : Survey) : (s ++ t).findings = s.findings ++ t.findings := rfl

/-- Declarations come in the order of the surveys. -/
@[simp] theorem declared_append (s t : Survey) : (s ++ t).declared = s.declared ++ t.declared := rfl

/-- Ids come in the order of the surveys. -/
@[simp] theorem ids_append (s t : Survey) : (s ++ t).ids = s.ids ++ t.ids :=
  List.filterMap_append

@[simp] theorem ids_of_nil (declared : List Declared) : ids ⟨[], declared⟩ = [] := rfl

/-- An id that is found comes first. -/
@[simp] theorem ids_of_id (id path : String) (rest : List Finding) (declared : List Declared) :
    ids ⟨.id id path :: rest, declared⟩ = id :: ids ⟨rest, declared⟩ := rfl

@[simp] theorem ids_problem (path : String) (p : Problem) : (problem path p).ids = [] := rfl

@[simp] theorem declared_problem (path : String) (p : Problem) : (problem path p).declared = [] :=
  rfl

/-- A check notes no id. -/
@[simp] theorem ids_check (holds : Bool) (path : String) (p : Problem) :
    (check holds path p).ids = [] := by
  cases holds <;> rfl

/-- A check declares nothing. -/
@[simp] theorem declared_check (holds : Bool) (path : String) (p : Problem) :
    (check holds path p).declared = [] := by
  cases holds <;> rfl

/-- None of the findings is a problem. -/
def Flawless (s : Survey) : Prop := ∀ i, Finding.issue i ∉ s.findings

/-- Two surveys are flawless together if each of them is. -/
@[simp] theorem flawless_append (s t : Survey) : (s ++ t).Flawless ↔ s.Flawless ∧ t.Flawless := by
  simp only [Flawless, findings_append, List.mem_append, not_or, forall_and]

/-- A problem is a flaw. -/
@[simp] theorem not_flawless_problem (path : String) (p : Problem) : ¬ (problem path p).Flawless :=
  fun h => h ⟨path, p⟩ List.mem_cons_self

/-- A check is flawless if it holds. -/
@[simp] theorem flawless_check (holds : Bool) (path : String) (p : Problem) :
    (check holds path p).Flawless ↔ holds = true := by
  cases holds with
  | true => exact iff_of_true (fun i hi => absurd hi List.not_mem_nil) rfl
  | false => exact iff_of_false (not_flawless_problem path p) Bool.false_ne_true

/-! ## Single fields

None of these surveys has an id or declares anything. -/

section Fields

variable (fields : Fields) (path field : String)

/-- Fields are looked at without an id being noted or anything being declared: this lemma and those
below it say so of each kind of field. -/
@[simp] theorem ids_requireText : (requireText fields path field).ids = [] := by
  unfold requireText
  split <;> simp

@[simp] theorem declared_requireText : (requireText fields path field).declared = [] := by
  unfold requireText
  split <;> simp

@[simp] theorem ids_allowText : (allowText fields path field).ids = [] := by
  unfold allowText
  split <;> simp

@[simp] theorem declared_allowText : (allowText fields path field).declared = [] := by
  unfold allowText
  split <;> simp

@[simp] theorem ids_allowNumber (least : Nat) (most : Option Nat) :
    (allowNumber fields path field least most).ids = [] := by
  unfold allowNumber
  split <;> simp

@[simp] theorem declared_allowNumber (least : Nat) (most : Option Nat) :
    (allowNumber fields path field least most).declared = [] := by
  unfold allowNumber
  split <;> simp

@[simp] theorem ids_requireReference : (requireReference fields path field).ids = [] := by
  unfold requireReference
  split <;> simp

@[simp] theorem declared_requireReference : (requireReference fields path field).declared = [] := by
  unfold requireReference
  split <;> simp

@[simp] theorem ids_surveyCommon : (surveyCommon fields path).ids = [] := by
  unfold surveyCommon
  split <;> simp

@[simp] theorem declared_surveyCommon : (surveyCommon fields path).declared = [] := by
  unfold surveyCommon
  split <;> simp

@[simp] theorem ids_surveyType : (surveyType fields path).ids = [] := by
  unfold surveyType
  split
  · rfl
  · split <;> simp

@[simp] theorem declared_surveyType : (surveyType fields path).declared = [] := by
  unfold surveyType
  split
  · rfl
  · split <;> simp

/-- A row of checks notes no id and declares nothing. -/
theorem foldl_check_ids_declared (items : List (Value × Nat)) (s : Survey) (p : Problem) :
    (items.foldl (fun s (item, j) =>
        s ++ check item.isString (itemPath path field j) p) s).ids = s.ids
      ∧ (items.foldl (fun s (item, j) =>
        s ++ check item.isString (itemPath path field j) p) s).declared = s.declared := by
  induction items generalizing s with
  | nil => exact ⟨rfl, rfl⟩
  | cons item items ih => simpa using ih (s ++ check item.1.isString (itemPath path field item.2) p)

@[simp] theorem ids_surveyDependsOn : (surveyDependsOn fields path).ids = [] := by
  unfold surveyDependsOn
  split
  · rfl
  · exact (foldl_check_ids_declared path _ _ _ _).1
  · exact ids_problem _ _

@[simp] theorem declared_surveyDependsOn : (surveyDependsOn fields path).declared = [] := by
  unfold surveyDependsOn
  split
  · rfl
  · exact (foldl_check_ids_declared path _ _ _ _).2
  · exact declared_problem _ _

/-- A text that is needed and has nothing wrong with it is usable. -/
theorem usableText?_of_requireText {s : String}
    (hfield : Wavefront.Fields.get? field fields = some (.string s))
    (h : (requireText fields path field).Flawless) : usableText? fields field = some s ∧ s ≠ "" := by
  simp only [requireText, hfield, flawless_check, Bool.not_eq_true'] at h
  refine ⟨?_, ?_⟩
  · simp only [usableText?, hfield, h, Bool.false_eq_true, if_false]
  · rintro rfl
    exact absurd h (by decide)

end Fields

/-! ## Members -/

namespace Members

/-- The steps that have been found, which may be none. -/
def found : Members → OfSteps
  | steps _ s => s
  | absent | malformed => {}

/-- The ids of the members are those of the steps that were found. -/
theorem ids_eq (m : Members) : m.ids = m.found.ids := by cases m <;> rfl

/-- A field of steps notes the ids that its steps note. -/
@[simp] theorem ids_survey (m : Members) (path : String) (needed : Bool) :
    (m.survey path needed).ids = m.found.survey.ids := by
  cases m <;> simp [survey, found]

/-- A field of steps declares what its steps declare. -/
@[simp] theorem declared_survey (m : Members) (path : String) (needed : Bool) :
    (m.survey path needed).declared = m.found.survey.declared := by
  cases m <;> simp [survey, found]

/-- The steps of a flawless field are flawless. -/
theorem flawless_found {m : Members} {path : String} {needed : Bool}
    (h : (m.survey path needed).Flawless) : m.found.survey.Flawless := by
  cases m with
  | absent => exact fun i hi => absurd hi List.not_mem_nil
  | malformed => exact absurd h (not_flawless_problem _ _)
  | steps isEmpty s =>
    rw [survey, flawless_append] at h
    exact h.2

end Members

/-! ## Issues that are reported -/

/-- A problem that has been found is reported. -/
theorem mem_issuesOf {i : Issue} {findings : List Finding} (seen : List (String × String))
    (h : .issue i ∈ findings) : i ∈ issuesOf seen findings := by
  induction findings generalizing seen with
  | nil => exact absurd h List.not_mem_nil
  | cons finding rest ih =>
    cases finding with
    | issue first =>
      rcases List.mem_cons.1 h with heq | h
      · cases heq
        exact List.mem_cons_self
      · exact List.mem_cons_of_mem _ (ih seen h)
    | id id path =>
      rcases List.mem_cons.1 h with heq | h
      · cases heq
      rw [issuesOf]
      split
      · exact List.mem_cons_of_mem _ (ih seen h)
      · exact ih _ h

/-- If no id is reported as having come up before, none comes up twice. -/
theorem nodup_of_issuesOf (declared : List Declared) {seen : List (String × String)}
    {findings : List Finding}
    (h : ∀ path id first, ⟨path, .duplicateId id first⟩ ∉ issuesOf seen findings) :
    (ids ⟨findings, declared⟩).Nodup ∧
      ∀ id ∈ ids ⟨findings, declared⟩, ∀ entry ∈ seen, entry.1 ≠ id := by
  -- the ids seen so far grow along the list, so the second half of the claim carries the induction
  induction findings generalizing seen with
  | nil => exact ⟨List.nodup_nil, fun id hid => absurd hid List.not_mem_nil⟩
  | cons finding rest ih =>
    cases finding with
    | issue i => exact ih fun path id first hmem => h path id first (List.mem_cons_of_mem i hmem)
    | id id path =>
      rw [issuesOf] at h
      split at h
      -- an id that is found among those seen would be reported
      · exact absurd List.mem_cons_self (h _ id _)
      · rename_i hnew
        obtain ⟨hnodup, hunseen⟩ := ih h
        rw [ids_of_id]
        constructor
        · refine List.nodup_cons.2 ⟨?_, hnodup⟩
          intro hid
          exact hunseen id hid (id, path) List.mem_cons_self rfl
        · intro a ha entry hentry
          rcases List.mem_cons.1 ha with rfl | ha
          · simpa using List.find?_eq_none.1 hnew entry hentry
          · exact hunseen a ha entry (List.mem_cons_of_mem _ hentry)

/-- An id that is declared as waited for and has not come up is reported. -/
theorem exists_unknownIssue {known : List String} {declared : List Declared} {d : Declared}
    (hd : d ∈ declared) {id : String} (hid : id ∈ d.dependsOn) (hunknown : id ∉ known) :
    ∃ path, ⟨path, .unknownDependency id⟩ ∈ unknownIssues known declared := by
  obtain ⟨j, hj⟩ := List.mem_iff_getElem?.1 hid
  refine ⟨itemPath d.path "depends_on" j, List.mem_flatMap.2 ⟨d, hd, ?_⟩⟩
  exact List.mem_filterMap.2 ⟨(id, j), List.mem_zipIdx_iff_getElem?.2 hj, if_neg hunknown⟩

/-- What is declared for an id, as far as it is known, are the edges of the graph of waiting. -/
theorem edge_waits {known : List String} {declared : List Declared}
    (hnodup : (declared.map (·.id)).Nodup) {d : Declared} (hd : d ∈ declared) {b : String}
    (hb : b ∈ d.dependsOn ++ d.implied) (hknown : b ∈ known) :
    Digraph.Edge (waits known declared) d.id b := by
  refine ⟨(d.dependsOn ++ d.implied).filter (· ∈ known), ?_,
    List.mem_filter.2 ⟨hb, decide_eq_true hknown⟩⟩
  refine Digraph.targets?_of_mem ?_ ?_
  -- the first entry for the id counts, and there is only one
  · rw [waits, List.map_map, List.map_reverse, List.nodup_reverse]
    exact hnodup
  · exact List.mem_map.2 ⟨d, List.mem_reverse.2 hd, rfl⟩

/-- A survey that has nothing to object to. -/
structure Clean (s : Survey) : Prop where
  flawless : s.Flawless
  nodup : s.ids.Nodup
  known : ∀ d ∈ s.declared, ∀ id ∈ d.dependsOn, id ∈ s.ids
  grounded : ∀ d ∈ s.declared, Digraph.Grounded (Digraph.Edge (waits s.ids s.declared)) d.id

/-- A survey without issues is clean. -/
theorem clean_of_issues_eq_nil {s : Survey} (h : s.issues = []) : s.Clean := by
  rw [issues, List.append_eq_nil_iff, List.append_eq_nil_iff] at h
  -- what is found along the way, ids not known, and circles: none of the three is there
  obtain ⟨⟨hfindings, hunknown⟩, hcircles⟩ := h
  rw [circleIssues, List.map_eq_nil_iff] at hcircles
  refine ⟨?_, ?_, ?_, ?_⟩
  · intro i hi
    have hmem := mem_issuesOf [] hi
    rw [hfindings] at hmem
    exact List.not_mem_nil hmem
  · refine (@nodup_of_issuesOf s.declared [] s.findings ?_).1
    intro path id first
    rw [hfindings]
    exact List.not_mem_nil
  · intro d hd id hid
    by_contra hnotin
    obtain ⟨path, hmem⟩ := exists_unknownIssue hd hid hnotin
    rw [hunknown] at hmem
    exact List.not_mem_nil hmem
  · intro d hd
    exact Digraph.grounded_of_cyclesFrom_eq_nil hcircles (List.mem_map.2 ⟨d, hd, rfl⟩)

/-! ## Surveys without issues -/

/-- Where no id comes up twice and nothing is wrong, the findings have no issue. -/
theorem issuesOf_eq_nil {findings : List Finding} {declared : List Declared}
    {seen : List (String × String)} (hflawless : Flawless ⟨findings, declared⟩)
    (hnodup : (ids ⟨findings, declared⟩).Nodup)
    (hunseen : ∀ id ∈ ids ⟨findings, declared⟩, ∀ entry ∈ seen, entry.1 ≠ id) :
    issuesOf seen findings = [] := by
  induction findings generalizing seen with
  | nil => rfl
  | cons finding rest ih =>
    have hrest : Flawless ⟨rest, declared⟩ := fun i hi => hflawless i (List.mem_cons_of_mem _ hi)
    cases finding with
    | issue i => exact absurd List.mem_cons_self (hflawless i)
    | id id path =>
      rw [ids_of_id] at hnodup hunseen
      obtain ⟨hnotin, hnodup⟩ := List.nodup_cons.1 hnodup
      -- the id is not reported, and is seen from here on
      have hnew : seen.find? (fun entry => entry.1 = id) = none := by
        rw [List.find?_eq_none]
        intro entry hentry heq
        exact hunseen id List.mem_cons_self entry hentry (of_decide_eq_true heq)
      rw [issuesOf, hnew]
      refine ih hrest hnodup fun a ha entry hentry => ?_
      rcases List.mem_cons.1 hentry with rfl | hentry
      · rintro rfl
        exact hnotin ha
      · exact hunseen a (List.mem_cons_of_mem id ha) entry hentry

/-- Where every id that is named is known, none is reported as unknown. -/
theorem unknownIssues_eq_nil {known : List String} {declared : List Declared}
    (h : ∀ d ∈ declared, ∀ id ∈ d.dependsOn, id ∈ known) : unknownIssues known declared = [] := by
  rw [unknownIssues, List.flatMap_eq_nil_iff]
  intro d hd
  rw [List.filterMap_eq_nil_iff]
  intro pair hpair
  have hid := List.mem_of_getElem? (List.mem_zipIdx_iff_getElem?.1 hpair)
  exact if_pos (h d hd pair.1 hid)

/-- An edge of the graph of waiting has been declared. -/
theorem exists_declared_of_edge {known : List String} {declared : List Declared} {a b : String}
    (h : Digraph.Edge (waits known declared) a b) :
    b ∈ known ∧ ∃ d ∈ declared, d.id = a ∧ b ∈ d.dependsOn ++ d.implied := by
  obtain ⟨targets, htargets, hb⟩ := h
  obtain ⟨entry, hfind, rfl⟩ := Option.map_eq_some_iff.1 htargets
  obtain ⟨d, hd, rfl⟩ := List.mem_map.1 (List.mem_of_find?_eq_some hfind)
  obtain ⟨hb, hknown⟩ := List.mem_filter.1 hb
  have hid : d.id = a := by simpa using List.find?_some hfind
  exact ⟨of_decide_eq_true hknown, d, List.mem_reverse.1 hd, hid, hb⟩

/-- The four parts of being clean are enough: then there is no issue. -/
theorem issues_eq_nil {s : Survey} (hflawless : s.Flawless) (hnodup : s.ids.Nodup)
    (hknown : ∀ d ∈ s.declared, ∀ id ∈ d.dependsOn, id ∈ s.ids)
    (hacyclic : ∀ a, ¬ Relation.TransGen (Digraph.Edge (waits s.ids s.declared)) a a) :
    s.issues = [] := by
  rw [issues, issuesOf_eq_nil hflawless hnodup fun _ _ _ h => absurd h List.not_mem_nil,
    unknownIssues_eq_nil hknown, circleIssues, Digraph.cyclesFrom_eq_nil_of_acyclic hacyclic]
  rfl

/-- In a survey without issues waiting does not go in a circle. -/
theorem Clean.acyclic {s : Survey} (h : s.Clean) (a : String) :
    ¬ Relation.TransGen (Digraph.Edge (waits s.ids s.declared)) a a := by
  intro hcycle
  -- a circle would go through an id that has been declared, from where waiting ends
  obtain ⟨b, hab, -⟩ := Relation.TransGen.head'_iff.1 hcycle
  obtain ⟨-, d, hd, rfl, -⟩ := exists_declared_of_edge hab
  exact (h.grounded d hd).not_transGen_self hcycle

end Wavefront.Survey
