/-
Places: the steps of a plan where they stand.

What a step waits for is written in two ways: by the step itself, and by every step around it. And
what a step is known by in a graph depends on whether a conditional stands around it, for all that
is inside the outermost conditional is done by the one node of that conditional. A place is a step
with these two things. Every statement about what is declared in a plan is a statement about its
places.

Places inside places are reached by one induction, `Place.induction`, whatever kinds of steps they
belong to; the two functions over a plan that have to agree, the survey and the expansion, are both
followed along it.
-/
import Mathlib.Data.List.Basic
import Mathlib.Data.List.Nodup
import Wavefront.Plan.Expansion

set_option autoImplicit false

namespace Wavefront

/-- A step where it stands in a plan. -/
structure Place where
  step : Step
  /-- What the steps around it wait for. -/
  inherited : List String
  /-- The id of the outermost conditional around it, if there is one. -/
  home : Option String

namespace Place

/-- The id of the step. -/
def id (P : Place) : String := P.step.id

/-- All that is declared as what the step waits for, by itself or by the steps around it. -/
def awaited (P : Place) : List String := P.inherited ++ P.step.dependsOn

/-- The outermost conditional around what is directly inside the step. -/
def innerHome (P : Place) : Option String :=
  match P.step with
  | .conditional shell _ _ _ => some (P.home.getD shell.id)
  | _ => P.home

/-- The places directly inside. -/
def members (P : Place) : List Place :=
  P.step.children.map fun s => ⟨s, P.awaited, P.innerHome⟩

end Place

namespace Step

mutual

/-- The places of a step and of all steps inside it. -/
def places (inherited : List String) (home : Option String) : Step → List Place
  | parallel shell steps =>
      ⟨parallel shell steps, inherited, home⟩
        :: placesAll (inherited ++ shell.dependsOn) home steps
  | conditional shell condition yes no =>
      ⟨conditional shell condition yes no, inherited, home⟩
        :: (placesAll (inherited ++ shell.dependsOn) (some (home.getD shell.id)) yes
          ++ placesAll (inherited ++ shell.dependsOn) (some (home.getD shell.id)) no)
  | step => [⟨step, inherited, home⟩]

/-- The places of steps that stand side by side. -/
def placesAll (inherited : List String) (home : Option String) : List Step → List Place
  | [] => []
  | step :: steps => places inherited home step ++ placesAll inherited home steps

end

end Step

/-- The places of a plan. -/
def Plan.places (p : Plan) : List Place := Step.placesAll [] none p.steps

namespace Step

mutual

/-- What holds of a step as soon as it holds of the steps directly inside holds of every step. -/
theorem childrenInduction {motive : Step → Prop}
    (h : ∀ s, (∀ t ∈ s.children, motive t) → motive s) : ∀ s, motive s
  | .tool s => h (.tool s) fun _ ht => absurd ht List.not_mem_nil
  | .loop s => h (.loop s) fun _ ht => absurd ht List.not_mem_nil
  | .reduce s => h (.reduce s) fun _ ht => absurd ht List.not_mem_nil
  | .final s => h (.final s) fun _ ht => absurd ht List.not_mem_nil
  | .parallel shell steps => h (.parallel shell steps) (childrenInductionAll h steps)
  | .conditional shell condition yes no =>
      h (.conditional shell condition yes no)
        (List.forall_mem_append.2 ⟨childrenInductionAll h yes, childrenInductionAll h no⟩)

/-- What goes from the members of a step to the step holds of all steps of a list. -/
theorem childrenInductionAll {motive : Step → Prop}
    (h : ∀ s, (∀ t ∈ s.children, motive t) → motive s) :
    ∀ steps : List Step, ∀ t ∈ steps, motive t
  | [] => fun _ ht => absurd ht List.not_mem_nil
  | s :: steps => List.forall_mem_cons.2 ⟨childrenInduction h s, childrenInductionAll h steps⟩

end

/-- The steps of a list and inside its members, member by member. -/
theorem nestedList_eq_flatMap (steps : List Step) : nestedList steps = steps.flatMap nested := by
  induction steps with
  | nil => rfl
  | cons s steps ih => rw [nestedList, ih, List.flatMap_cons]

/-- A step and what is inside it are the step and what is inside its children. -/
theorem nested_eq (s : Step) : s.nested = s :: s.children.flatMap nested := by
  cases s with
  | parallel shell steps => rw [nested, nestedList_eq_flatMap, children]
  | conditional shell condition yes no =>
    rw [nested, nestedList_eq_flatMap, nestedList_eq_flatMap, children, List.flatMap_append]
  | tool s => rfl
  | loop s => rfl
  | reduce s => rfl
  | final s => rfl

/-- A step inside another one has all steps inside it there. -/
theorem nested_sublist {s t : Step} (hs : s ∈ t.nested) : s.nested.Sublist t.nested := by
  induction t using childrenInduction with
  | h t ih =>
    rw [nested_eq t] at hs ⊢
    rcases List.mem_cons.1 hs with rfl | hs
    · rw [nested_eq s]
    · obtain ⟨c, hc, hs⟩ := List.mem_flatMap.1 hs
      have hinside : c.nested.Sublist (t.children.flatMap nested) :=
        List.sublist_flatten_of_mem (List.mem_map_of_mem hc)
      exact ((ih c hc hs).trans hinside).cons t

/-- What is inside a step of the list stands there in one piece. -/
theorem nested_sublist_nestedList {s : Step} {steps : List Step} (hs : s ∈ nestedList steps) :
    s.nested.Sublist (nestedList steps) := by
  rw [nestedList_eq_flatMap] at hs ⊢
  obtain ⟨t, ht, hs⟩ := List.mem_flatMap.1 hs
  exact (nested_sublist hs).trans (List.sublist_flatten_of_mem (List.mem_map_of_mem ht))

/-- A step of this kind is a conditional. -/
theorem exists_eq_conditional {s : Step} (h : s.kind = "conditional") :
    ∃ shell condition yes no, s = conditional shell condition yes no := by
  cases s with
  | conditional shell condition yes no => exact ⟨shell, condition, yes, no, rfl⟩
  | tool s => simp [kind] at h
  | loop s => simp [kind] at h
  | parallel shell steps => simp [kind] at h
  | reduce s => simp [kind] at h
  | final s => simp [kind] at h

end Step

namespace Place

/-- The place and all places inside it. -/
def within (P : Place) : List Place := P.step.places P.inherited P.home

/-! ## Places inside places -/

/-- The places of a list of steps, step by step. -/
theorem placesAll_eq_flatMap (inherited : List String) (home : Option String)
    (steps : List Step) :
    Step.placesAll inherited home steps
      = (steps.map fun s => (⟨s, inherited, home⟩ : Place)).flatMap within := by
  induction steps with
  | nil => rfl
  | cons s steps ih =>
    rw [Step.placesAll, ih, List.map_cons, List.flatMap_cons]
    rfl

/-- A place and what is inside it are the place and what is inside its members. -/
theorem within_eq (P : Place) : P.within = P :: P.members.flatMap within := by
  obtain ⟨step, inherited, home⟩ := P
  cases step with
  | parallel shell steps =>
    rw [within, Step.places, placesAll_eq_flatMap]
    rfl
  | conditional shell condition yes no =>
    rw [within, Step.places, placesAll_eq_flatMap, placesAll_eq_flatMap, ← List.flatMap_append,
      ← List.map_append]
    rfl
  | tool s => rfl
  | loop s => rfl
  | reduce s => rfl
  | final s => rfl

/-- A member waits for what the place waits for, and has its inner home. -/
theorem mem_members {P Q : Place} :
    Q ∈ P.members ↔ ∃ s ∈ P.step.children, Q = ⟨s, P.awaited, P.innerHome⟩ := by
  simp only [members, List.mem_map, eq_comm]

/-- What is within a place is the place or within a member. -/
theorem mem_within {P Q : Place} :
    Q ∈ P.within ↔ Q = P ∨ ∃ M ∈ P.members, Q ∈ M.within := by
  rw [within_eq, List.mem_cons, List.mem_flatMap]

/-- A place is within itself. -/
theorem self_mem_within (P : Place) : P ∈ P.within := mem_within.2 (.inl rfl)

/-- What is within a member is within the place. -/
theorem mem_within_of_member {P M Q : Place} (hM : M ∈ P.members) (hQ : Q ∈ M.within) :
    Q ∈ P.within :=
  mem_within.2 (.inr ⟨M, hM, hQ⟩)

/-- What holds of a place as soon as it holds of its members holds of every place. -/
theorem induction {motive : Place → Prop}
    (h : ∀ P, (∀ Q ∈ P.members, motive Q) → motive P) (P : Place) : motive P := by
  obtain ⟨step, inherited, home⟩ := P
  induction step using Step.childrenInduction generalizing inherited home with
  | h s ih =>
    refine h _ fun Q hQ => ?_
    obtain ⟨t, ht, rfl⟩ := mem_members.1 hQ
    exact ih t ht _ _

/-- What goes over from a place to its members goes over to all that is inside it. -/
theorem within_induction {motive : Place → Prop}
    (hstep : ∀ Q, motive Q → ∀ R ∈ Q.members, motive R) {P : Place} (hP : motive P) :
    ∀ Q ∈ P.within, motive Q := by
  induction P using Place.induction with
  | h P ih =>
    intro Q hQ
    rcases mem_within.1 hQ with rfl | ⟨M, hM, hQM⟩
    · exact hP
    · exact ih M hM (hstep P hP M hM) Q hQM

/-- Being within goes on and on. -/
theorem within_trans {P Q R : Place} (hQ : Q ∈ P.within) (hR : R ∈ Q.within) : R ∈ P.within := by
  induction P using Place.induction with
  | h P ih =>
    rcases mem_within.1 hQ with rfl | ⟨M, hM, hQM⟩
    · exact hR
    · exact mem_within_of_member hM (ih M hM hQM)

/-- A member is within the place. -/
theorem member_mem_within {P M : Place} (hM : M ∈ P.members) : M ∈ P.within :=
  mem_within_of_member hM (self_mem_within M)

/-- The steps of the places are the steps inside, in the same order. -/
theorem map_step_within (P : Place) : P.within.map (·.step) = P.step.nested := by
  induction P using Place.induction with
  | h P ih =>
    rw [within_eq, List.map_cons, List.map_flatMap, Step.nested_eq, members, List.flatMap_map]
    congr 1
    refine List.flatMap_congr fun s hs => ?_
    exact ih ⟨s, P.awaited, P.innerHome⟩ (mem_members.2 ⟨s, hs, rfl⟩)

/-- The places of steps are those of all steps inside them. -/
theorem map_step_placesAll (inherited : List String) (home : Option String) (steps : List Step) :
    (Step.placesAll inherited home steps).map (·.step) = Step.nestedList steps := by
  rw [placesAll_eq_flatMap, Step.nestedList_eq_flatMap, List.map_flatMap, List.flatMap_map]
  exact List.flatMap_congr fun s _ => map_step_within ⟨s, inherited, home⟩

/-- What is inside a step also waits for all that the step waits for. -/
theorem awaited_subset_of_mem_within {P Q : Place} (hQ : Q ∈ P.within) :
    Q = P ∨ P.awaited ⊆ Q.inherited := by
  refine within_induction (motive := fun Q => Q = P ∨ P.awaited ⊆ Q.inherited) ?_ (.inl rfl) Q hQ
  intro Q hmotive R hR
  obtain ⟨s, -, rfl⟩ := mem_members.1 hR
  right
  rcases hmotive with rfl | hsub
  · exact List.Subset.refl _
  · exact List.Subset.trans hsub (List.subset_append_left _ _)

/-- Whatever a place waits for, all within it wait for too. -/
theorem subset_awaited_of_mem_within {P Q : Place} (hQ : Q ∈ P.within) :
    P.awaited ⊆ Q.awaited := by
  rcases awaited_subset_of_mem_within hQ with rfl | hsub
  · exact List.Subset.refl _
  · exact List.Subset.trans hsub (List.subset_append_left _ _)

/-! ## Homes -/

/-- The id of the step that stands for this one outside of all conditionals. -/
def root (P : Place) : String := P.home.getD P.id

/-- A place outside of conditionals is its own root. -/
theorem root_of_home_none {P : Place} (h : P.home = none) : P.root = P.id := by
  rw [root, h, Option.getD_none]

/-- The root of a place inside a conditional is the conditional. -/
theorem root_of_home_some {P : Place} {h : String} (hP : P.home = some h) : P.root = h := by
  rw [root, hP, Option.getD_some]

/-- Inside a conditional its root is the home. -/
theorem innerHome_eq_root {P : Place} (h : P.step.kind = "conditional") :
    P.innerHome = some P.root := by
  obtain ⟨shell, condition, yes, no, hstep⟩ := Step.exists_eq_conditional h
  rw [innerHome, hstep, root, id, hstep, Step.id]

/-- Other steps pass their own home on. -/
theorem innerHome_eq_home {P : Place} (h : P.step.kind ≠ "conditional") :
    P.innerHome = P.home := by
  obtain ⟨step, inherited, home⟩ := P
  cases step with
  | conditional shell condition yes no => simp [Step.kind] at h
  | tool s => rfl
  | loop s => rfl
  | parallel shell steps => rfl
  | reduce s => rfl
  | final s => rfl

/-- Members have the inner home. -/
theorem home_of_mem_members {P Q : Place} (hQ : Q ∈ P.members) : Q.home = P.innerHome := by
  obtain ⟨s, -, rfl⟩ := mem_members.1 hQ
  rfl

/-- Members inherit all that the place waits for. -/
theorem inherited_of_mem_members {P Q : Place} (hQ : Q ∈ P.members) : Q.inherited = P.awaited := by
  obtain ⟨s, -, rfl⟩ := mem_members.1 hQ
  rfl

/-- A member that is outside of all conditionals is one of a group that is outside of them. -/
theorem of_home_of_mem_members {P M : Place} (hM : M ∈ P.members) (hhome : M.home = none) :
    P.home = none ∧ P.step.kind ≠ "conditional" := by
  rw [home_of_mem_members hM] at hhome
  have hkind : P.step.kind ≠ "conditional" := by
    intro hkind
    rw [innerHome_eq_root hkind] at hhome
    cases hhome
  rw [innerHome_eq_home hkind] at hhome
  exact ⟨hhome, hkind⟩

/-- A home is passed on: of nested conditionals the outermost one counts. -/
theorem innerHome_of_home_some {P : Place} {h : String} (hP : P.home = some h) :
    P.innerHome = some h := by
  by_cases hkind : P.step.kind = "conditional"
  · rw [innerHome_eq_root hkind, root_of_home_some hP]
  · rw [innerHome_eq_home hkind, hP]

/-- Inside a conditional the home does not change any more. -/
theorem home_of_mem_within {P Q : Place} {h : String} (hP : P.home = some h) (hQ : Q ∈ P.within) :
    Q.home = some h := by
  refine within_induction (motive := fun Q => Q.home = some h) ?_ hP Q hQ
  intro Q hmotive R hR
  rw [home_of_mem_members hR, innerHome_of_home_some hmotive]

/-- The places strictly inside a place. -/
def inside (P : Place) : List Place := P.members.flatMap within

/-- What is inside a place is within a member. -/
theorem mem_inside {P Q : Place} : Q ∈ P.inside ↔ ∃ M ∈ P.members, Q ∈ M.within := by
  rw [inside, List.mem_flatMap]

/-- What is inside is within. -/
theorem inside_subset_within (P : Place) : P.inside ⊆ P.within := by
  rw [within_eq]
  exact List.subset_cons_self P P.inside

/-- What is inside an outermost conditional has that conditional as its home. -/
theorem home_of_mem_inside {C Q : Place} (hC : C.home = none) (hkind : C.step.kind = "conditional")
    (hQ : Q ∈ C.inside) : Q.home = some C.id := by
  obtain ⟨M, hM, hQM⟩ := mem_inside.1 hQ
  refine home_of_mem_within ?_ hQM
  rw [home_of_mem_members hM, innerHome_eq_root hkind, root_of_home_none hC]

/-- The steps strictly inside a step. -/
theorem map_step_inside (P : Place) : P.inside.map (·.step) = P.step.children.flatMap Step.nested := by
  have h := map_step_within P
  rw [within_eq, Step.nested_eq, List.map_cons] at h
  exact List.tail_eq_of_cons_eq h

/-- A member of something within is inside. -/
theorem mem_inside_of_member_of_mem_within {P Q R : Place} (hQ : Q ∈ P.within)
    (hR : R ∈ Q.members) : R ∈ P.inside := by
  rcases mem_within.1 hQ with rfl | ⟨M, hM, hQM⟩
  · exact mem_inside.2 ⟨R, hR, self_mem_within R⟩
  · exact mem_inside.2 ⟨M, hM, within_trans hQM (member_mem_within hR)⟩

/-- What is inside a place waits for what the place waits for, and else only for what is named
inside it. -/
theorem awaited_of_mem_within {P Q : Place} (hQ : Q ∈ P.within) :
    ∀ d ∈ Q.awaited, d ∈ P.awaited ∨ ∃ R ∈ P.inside, d ∈ R.step.dependsOn := by
  refine (within_induction (motive := fun Q => Q ∈ P.within
    ∧ ∀ d ∈ Q.awaited, d ∈ P.awaited ∨ ∃ R ∈ P.inside, d ∈ R.step.dependsOn) ?_ ?_ Q hQ).2
  · rintro Q ⟨hQ, hmotive⟩ R hR
    have hinside : R ∈ P.inside := mem_inside_of_member_of_mem_within hQ hR
    refine ⟨inside_subset_within P hinside, fun d hd => ?_⟩
    rcases List.mem_append.1 hd with hd | hd
    · rw [inherited_of_mem_members hR] at hd
      exact hmotive d hd
    · exact .inr ⟨R, hinside, hd⟩
  · exact ⟨self_mem_within P, fun d hd => .inl hd⟩

end Place

/-! ## The places of a plan -/

namespace Plan

variable {p : Plan}

/-- The places of a plan are those within its steps. -/
theorem mem_places {Q : Place} :
    Q ∈ p.places ↔ ∃ s ∈ p.steps, Q ∈ (⟨s, [], none⟩ : Place).within := by
  simp only [places, Place.placesAll_eq_flatMap, List.mem_flatMap, List.mem_map,
    exists_exists_and_eq_and]

/-- Whatever is within a place of the plan is one. -/
theorem mem_places_of_mem_within {Q R : Place} (hQ : Q ∈ p.places) (hR : R ∈ Q.within) :
    R ∈ p.places := by
  obtain ⟨s, hs, hQs⟩ := mem_places.1 hQ
  exact mem_places.2 ⟨s, hs, Place.within_trans hQs hR⟩

/-- Whatever is inside a place of the plan is one. -/
theorem mem_places_of_mem_inside {Q R : Place} (hQ : Q ∈ p.places) (hR : R ∈ Q.inside) :
    R ∈ p.places :=
  mem_places_of_mem_within hQ (Place.inside_subset_within Q hR)

/-- What holds of the steps of a plan and goes over to members holds of all places. -/
theorem places_induction {motive : Place → Prop} (htop : ∀ s ∈ p.steps, motive ⟨s, [], none⟩)
    (hstep : ∀ Q ∈ p.places, motive Q → ∀ R ∈ Q.members, motive R) : ∀ Q ∈ p.places, motive Q := by
  intro Q hQ
  obtain ⟨s, hs, hQs⟩ := mem_places.1 hQ
  have htopmem : (⟨s, [], none⟩ : Place) ∈ p.places :=
    mem_places.2 ⟨s, hs, Place.self_mem_within _⟩
  refine (Place.within_induction (motive := fun Q => Q ∈ p.places ∧ motive Q) ?_
    ⟨htopmem, htop s hs⟩ Q hQs).2
  rintro Q ⟨hQ, hmotive⟩ R hR
  exact ⟨mem_places_of_mem_within hQ (Place.member_mem_within hR), hstep Q hQ hmotive R hR⟩

/-- The places of a plan are its steps, where they stand. -/
theorem map_step_places (p : Plan) : p.places.map (·.step) = p.allSteps :=
  Place.map_step_placesAll [] none p.steps

/-- The step of a place is one of the plan. -/
theorem step_mem_allSteps {Q : Place} (hQ : Q ∈ p.places) : Q.step ∈ p.allSteps := by
  rw [← map_step_places]
  exact List.mem_map.2 ⟨Q, hQ, rfl⟩

/-- A place that has a home is inside that conditional. -/
theorem exists_home {Q : Place} (hQ : Q ∈ p.places) {h : String} (hhome : Q.home = some h) :
    ∃ C ∈ p.places, C.home = none ∧ C.step.kind = "conditional" ∧ C.id = h ∧ Q ∈ C.inside := by
  revert h
  refine places_induction (motive := fun Q => ∀ {h : String}, Q.home = some h →
    ∃ C ∈ p.places, C.home = none ∧ C.step.kind = "conditional" ∧ C.id = h ∧ Q ∈ C.inside)
    ?_ ?_ Q hQ
  · intro s hs h hhome
    cases hhome
  · intro Q hQ hmotive R hR h hhome
    rw [Place.home_of_mem_members hR] at hhome
    cases hQhome : Q.home with
    | some h' =>
      -- the conditional is further out
      rw [Place.innerHome_of_home_some hQhome] at hhome
      obtain ⟨C, hC, hCnone, hkind, hid, hinside⟩ := hmotive hQhome
      refine ⟨C, hC, hCnone, hkind, hid.trans (Option.some.inj hhome), ?_⟩
      exact Place.mem_inside_of_member_of_mem_within (Place.inside_subset_within C hinside) hR
    | none =>
      by_cases hkind : Q.step.kind = "conditional"
      · rw [Place.innerHome_eq_root hkind, Place.root_of_home_none hQhome] at hhome
        refine ⟨Q, hQ, hQhome, hkind, Option.some.inj hhome, ?_⟩
        exact Place.mem_inside.2 ⟨R, hR, Place.self_mem_within R⟩
      · rw [Place.innerHome_eq_home hkind, hQhome] at hhome
        cases hhome

end Plan

end Wavefront
