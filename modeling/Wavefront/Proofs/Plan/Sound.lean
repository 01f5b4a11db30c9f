/-
Sound plans: what the check of a plan document stands for, said of the plan itself.

In a sound plan no id is used twice, be it that of a step or of a body, nothing is waited for that
is not there, and waiting does not go in a circle. The last is about a relation between ids: a step
waits for all that is declared for it, for what stands directly inside it, and a body for the step
that carries it out. That the check establishes all this is `Plan.sound_of_check`.
-/
import Mathlib.Data.List.Flatten
import Mathlib.Data.List.Pairwise
import Wavefront.Proofs.Digraph.Search
import Wavefront.Proofs.Plan.Place

set_option autoImplicit false

namespace Wavefront

/-- If no member comes up twice, none comes from two places. -/
theorem eq_of_mem_flatMap {α β : Type} {l : List α} {f : α → List β} (h : (l.flatMap f).Nodup)
    {a b : α} (ha : a ∈ l) (hb : b ∈ l) {x : β} (hxa : x ∈ f a) (hxb : x ∈ f b) : a = b := by
  by_contra hne
  have hpairwise := (List.nodup_flatMap.1 h).2
  have hsymm : Std.Symm (Function.onFun List.Disjoint f) := ⟨fun _ _ h => List.disjoint_symm h⟩
  exact hpairwise.forall ha hb hne hxa hxb

namespace Step

/-- The tool step that a step carries out for every item, if it has one of its own. -/
def body? : Step → Option ToolStep
  | loop s => some s.body
  | reduce s =>
      match s.reducer with
      | .inline body => some body
      | .named _ => none
  | tool _ | parallel _ _ | conditional _ _ _ _ | final _ => none

/-- The id of the body, unless there is none or it is empty. -/
def bodyIds (s : Step) : List String := (s.body?.map (·.id)).toList.filter (· ≠ "")

/-- The ids that belong to a step: its own and that of its body. -/
def ownIds (s : Step) : List String := s.id :: s.bodyIds

theorem id_mem_ownIds (s : Step) : s.id ∈ s.ownIds := List.mem_cons_self

theorem mem_ownIds_of_mem_bodyIds {s : Step} {b : String} (hb : b ∈ s.bodyIds) : b ∈ s.ownIds :=
  List.mem_cons_of_mem s.id hb

theorem ne_empty_of_mem_bodyIds {s : Step} {b : String} (hb : b ∈ s.bodyIds) : b ≠ "" := by
  rw [bodyIds, List.mem_filter, decide_eq_true_eq] at hb
  exact hb.2

end Step

namespace Plan

/-- All ids of a plan. -/
def ids (p : Plan) : List String := p.places.flatMap (·.step.ownIds)

/-- What waits for what, by ids. -/
inductive Waits (p : Plan) : String → String → Prop
  /-- A step waits for all that is declared for it. -/
  | awaited {P : Place} (hP : P ∈ p.places) {d : String} (hd : d ∈ P.awaited) : Waits p P.id d
  /-- A step waits for the steps directly inside it. -/
  | member {P M : Place} (hP : P ∈ p.places) (hM : M ∈ P.members) : Waits p P.id M.id
  /-- A body waits for its step. -/
  | body {P : Place} (hP : P ∈ p.places) {b : String} (hb : b ∈ P.step.bodyIds) : Waits p b P.id

/-- What a plan has to be like for its graph to be what it says. -/
structure Sound (p : Plan) : Prop where
  nodup : p.ids.Nodup
  nonempty : "" ∉ p.ids
  known : ∀ P ∈ p.places, ∀ d ∈ P.step.dependsOn, d ∈ p.ids
  grounded : ∀ id ∈ p.ids, Digraph.Grounded p.Waits id
  /-- A parallel step has steps inside. -/
  members_ne_nil : ∀ P ∈ p.places, P.step.kind = "parallel" → P.members ≠ []

variable {p : Plan}

theorem mem_ids {id : String} : id ∈ p.ids ↔ ∃ P ∈ p.places, id ∈ P.step.ownIds := by
  rw [ids, List.mem_flatMap]

theorem id_mem_ids {P : Place} (hP : P ∈ p.places) : P.id ∈ p.ids :=
  mem_ids.2 ⟨P, hP, P.step.id_mem_ownIds⟩

/-- What waits is an id of the plan. -/
theorem Waits.source_mem_ids {a b : String} (h : p.Waits a b) : a ∈ p.ids := by
  cases h with
  | awaited hP _ => exact id_mem_ids hP
  | member hP _ => exact id_mem_ids hP
  | body hP hb => exact mem_ids.2 ⟨_, hP, Step.mem_ownIds_of_mem_bodyIds hb⟩

/-- A step waits, over the steps in between, for every step inside it. -/
theorem waits_of_mem_inside {P Q : Place} (hP : P ∈ p.places) (hQ : Q ∈ P.inside) :
    Relation.TransGen p.Waits P.id Q.id := by
  obtain ⟨M, hM, hQM⟩ := Place.mem_inside.1 hQ
  have hfirst : Relation.TransGen p.Waits P.id M.id := .single (.member hP hM)
  have hMp : M ∈ p.places := mem_places_of_mem_within hP (Place.member_mem_within hM)
  refine (Place.within_induction (motive := fun Q => Q ∈ p.places
    ∧ Relation.TransGen p.Waits P.id Q.id) ?_ ⟨hMp, hfirst⟩ Q hQM).2
  rintro Q ⟨hQ, hway⟩ R hR
  exact ⟨mem_places_of_mem_within hQ (Place.member_mem_within hR), hway.tail (.member hQ hR)⟩

/-- Waiting for something that belongs to a step is waiting for the step. -/
theorem waits_owner {S Q : Place} (hS : S ∈ p.places) (hQ : Q ∈ p.places) {d : String}
    (hd : d ∈ S.awaited) (hdQ : d ∈ Q.step.ownIds) : Relation.TransGen p.Waits S.id Q.id := by
  have hfirst : p.Waits S.id d := .awaited hS hd
  rcases List.mem_cons.1 hdQ with rfl | hbody
  · exact .single hfirst
  · exact .tail (.single hfirst) (.body hQ hbody)

/-- What a place waits for is named by some step. -/
theorem exists_names {Q : Place} (hQ : Q ∈ p.places) {d : String} (hd : d ∈ Q.awaited) :
    ∃ S ∈ p.places, d ∈ S.step.dependsOn := by
  have hinherited : ∀ Q ∈ p.places, ∀ d ∈ Q.inherited, ∃ S ∈ p.places, d ∈ S.step.dependsOn := by
    refine places_induction ?_ ?_
    · exact fun s _ d hd => absurd hd List.not_mem_nil
    -- a member inherits what its place inherits, and what the step there names
    · intro Q hQ ih R hR d hd
      rw [Place.inherited_of_mem_members hR] at hd
      rcases List.mem_append.1 hd with hd | hd
      · exact ih d hd
      · exact ⟨Q, hQ, hd⟩
  rcases List.mem_append.1 hd with hd | hd
  · exact hinherited Q hQ d hd
  · exact ⟨Q, hQ, hd⟩

/-- If all that steps name is there, then so is all that is declared for a step. -/
theorem awaited_mem_ids (hknown : ∀ P ∈ p.places, ∀ d ∈ P.step.dependsOn, d ∈ p.ids) {P : Place}
    (hP : P ∈ p.places) : ∀ d ∈ P.awaited, d ∈ p.ids := by
  intro d hd
  obtain ⟨S, hS, hdS⟩ := exists_names hP hd
  exact hknown S hS d hdS

namespace Sound

/-- No step of a sound plan has an empty id. -/
theorem id_ne_empty (hp : p.Sound) {P : Place} (hP : P ∈ p.places) : P.id ≠ "" := by
  intro h
  have hmem := id_mem_ids hP
  rw [h] at hmem
  exact hp.nonempty hmem

/-- Nothing waits for an empty id in a sound plan. -/
theorem awaited_ne_empty (hp : p.Sound) {P : Place} (hP : P ∈ p.places) {d : String}
    (hd : d ∈ P.awaited) : d ≠ "" := by
  rintro rfl
  exact hp.nonempty (awaited_mem_ids hp.known hP _ hd)

/-- No id belongs to two places. -/
theorem place_unique (hp : p.Sound) {P Q : Place} (hP : P ∈ p.places) (hQ : Q ∈ p.places)
    {id : String} (hidP : id ∈ P.step.ownIds) (hidQ : id ∈ Q.step.ownIds) : P = Q := by
  exact eq_of_mem_flatMap hp.nodup hP hQ hidP hidQ

/-- Two places of a sound plan with one id are the same. -/
theorem eq_of_id_eq (hp : p.Sound) {P Q : Place} (hP : P ∈ p.places) (hQ : Q ∈ p.places)
    (h : P.id = Q.id) : P = Q := by
  refine hp.place_unique hP hQ P.step.id_mem_ownIds ?_
  have hid : P.step.id = Q.step.id := h
  rw [hid]
  exact Q.step.id_mem_ownIds

/-- No two steps have the same id. -/
theorem nodup_steps (hp : p.Sound) : (p.allSteps.map Step.id).Nodup := by
  have hids : (p.places.map Place.id).Sublist p.ids := by
    rw [ids, List.map_eq_flatMap]
    refine List.Sublist.flatMap_right _ fun P _ => ?_
    exact List.singleton_sublist.2 P.step.id_mem_ownIds
  have h := hids.nodup hp.nodup
  rwa [← map_step_places, List.map_map]

/-- Waiting does not go in a circle. -/
theorem acyclic (hp : p.Sound) (a : String) : ¬ Relation.TransGen p.Waits a a := by
  intro hcycle
  obtain ⟨b, hab, -⟩ := Relation.TransGen.head'_iff.1 hcycle
  exact (hp.grounded a hab.source_mem_ids).not_transGen_self hcycle

end Sound

end Plan

end Wavefront
