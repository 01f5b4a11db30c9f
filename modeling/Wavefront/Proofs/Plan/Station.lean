/-
Stations: the places outside of all conditionals.

Every place has a station that stands for it in the graph: itself, or the outermost conditional that
it is inside of. The nodes of a step are made by the stations inside it. The ids that a station is
known by are those that are known of the places it stands for, and what is declared for it is what
is declared for these places, less what they wait for among themselves.

Of the ids that belong to a place inside a conditional, that of an inline reducer is not known.
-/
import Wavefront.Proofs.Plan.Nodes

set_option autoImplicit false

namespace Wavefront

namespace Place

/-- The stations among the place and those inside it. -/
def stations (P : Place) : List Place := P.within.filter fun S => S.home = none

/-- All that the nodes that a station makes wait for, by the ids of steps. -/
def declared (P : Place) : List String := P.awaited ++ P.step.lifted

/-- The ids of a place that lead to its station. -/
def known (P : Place) : List String :=
  match P.home with
  | none => P.step.ownIds
  | some _ => P.step.innerIds

/-- The nodes of a place: those of its step, or the one node of the conditional around it. -/
def nodes (context : Value) (P : Place) : List String :=
  match P.home with
  | none => P.step.nodes context
  | some h => [h]

theorem mem_stations {P S : Place} : S ∈ P.stations ↔ S ∈ P.within ∧ S.home = none := by
  rw [stations, List.mem_filter, decide_eq_true_eq]

theorem self_mem_stations {P : Place} (hP : P.home = none) : P ∈ P.stations :=
  mem_stations.2 ⟨self_mem_within P, hP⟩

theorem known_of_home_none {P : Place} (hP : P.home = none) : P.known = P.step.ownIds := by
  rw [known, hP]

theorem known_of_home_some {P : Place} {h : String} (hP : P.home = some h) :
    P.known = P.step.innerIds := by
  rw [known, hP]

/-- Only the members of a group are stations. -/
theorem step_mem_group {P M : Place} (hM : M ∈ P.members) (hhome : M.home = none) :
    M.step ∈ P.step.group := by
  rw [Step.group_eq_children (of_home_of_mem_members hM hhome).2]
  obtain ⟨s, hs, rfl⟩ := mem_members.1 hM
  exact hs

/-- The members of a group that stands by itself stand by themselves. -/
theorem exists_member_of_mem_group {P : Place} (hP : P.home = none) {t : Step}
    (ht : t ∈ P.step.group) : ∃ M ∈ P.members, M.home = none ∧ M.step = t := by
  have hkind : P.step.kind ≠ "conditional" := by
    intro hkind
    rw [Step.group_eq_nil (by rw [hkind]; decide)] at ht
    exact absurd ht List.not_mem_nil
  refine ⟨⟨t, P.awaited, P.innerHome⟩,
    mem_members.2 ⟨t, Step.group_subset_children _ ht, rfl⟩, ?_, rfl⟩
  rw [innerHome_eq_home hkind, hP]

/-- Inside a conditional there are no stations. -/
theorem stations_of_home_some {P : Place} {h : String} (hP : P.home = some h) : P.stations = [] := by
  rw [stations, List.filter_eq_nil_iff]
  intro S hS
  rw [home_of_mem_within hP hS]
  exact of_decide_eq_false rfl

/-- The stations of a place that stands by itself, from the outside in. -/
theorem stations_eq_cons {P : Place} (hP : P.home = none) :
    P.stations = P :: P.members.flatMap stations := by
  rw [stations, within_eq, List.filter_cons, List.filter_flatMap]
  exact if_pos (decide_eq_true hP)

/-- A step without a group is the only station at its place. -/
theorem stations_of_group_eq_nil {P : Place} (hP : P.home = none) (hgroup : P.step.group = []) :
    P.stations = [P] := by
  rw [stations_eq_cons hP, List.flatMap_eq_nil_iff.2]
  intro M hM
  cases hhome : M.home with
  | some h => exact stations_of_home_some hhome
  | none =>
    have hmem := step_mem_group hM hhome
    rw [hgroup] at hmem
    exact absurd hmem List.not_mem_nil

/-- A station of a place is the place or one of a member. -/
theorem mem_stations_iff {P S : Place} (hP : P.home = none) :
    S ∈ P.stations ↔ S = P ∨ ∃ M ∈ P.members, M.home = none ∧ S ∈ M.stations := by
  rw [stations_eq_cons hP, List.mem_cons, List.mem_flatMap]
  refine or_congr Iff.rfl (exists_congr fun M => and_congr_right fun hM => ?_)
  constructor
  · intro hS
    cases hhome : M.home with
    | none => exact ⟨rfl, hS⟩
    | some h =>
      rw [stations_of_home_some hhome] at hS
      exact absurd hS List.not_mem_nil
  · exact fun hS => hS.2

/-- The nodes of a step are made by the stations inside it. -/
theorem mem_nodes {context : Value} {P : Place} (hP : P.home = none) {n : String} :
    n ∈ P.step.nodes context ↔ ∃ S ∈ P.stations, n ∈ S.step.madeIds context := by
  induction P using Place.induction with
  | h P ih =>
    rw [Step.mem_nodes]
    constructor
    · rintro (hn | ⟨t, ht, hn⟩)
      · exact ⟨P, self_mem_stations hP, hn⟩
      · obtain ⟨M, hM, hhome, rfl⟩ := exists_member_of_mem_group hP ht
        obtain ⟨S, hS, hn⟩ := (ih M hM hhome).1 hn
        exact ⟨S, (mem_stations_iff hP).2 (.inr ⟨M, hM, hhome, hS⟩), hn⟩
    · rintro ⟨S, hS, hn⟩
      rcases (mem_stations_iff hP).1 hS with rfl | ⟨M, hM, hhome, hS⟩
      · exact .inl hn
      · exact .inr ⟨M.step, step_mem_group hM hhome, (ih M hM hhome).2 ⟨S, hS, hn⟩⟩

/-- A node that a station gathers is one that it makes for an item, or one that a member ends
with. -/
theorem mem_of_mem_made {context : Value} {S : Place} (hS : S.home = none)
    {m : String × List String} (hm : m ∈ S.step.made context) {d : String} (hd : d ∈ m.2) :
    (d, []) ∈ S.step.made context
      ∨ ∃ M ∈ S.members, M.home = none ∧ d ∈ M.step.exits context := by
  rcases Step.mem_of_mem_made hm hd with hitem | ⟨t, ht, hd⟩
  · exact .inl hitem
  · obtain ⟨M, hM, hhome, rfl⟩ := exists_member_of_mem_group hS ht
    exact .inr ⟨M, hM, hhome, hd⟩

/-! ## Places inside a conditional -/

/-- A conditional is known by its id and by what is known of the places inside it. -/
theorem mem_aliases_of_conditional {C : Place} (hC : C.home = none)
    (hkind : C.step.kind = "conditional") {a : String} :
    a ∈ C.step.aliases ↔ a = C.id ∨ ∃ Q ∈ C.inside, a ∈ Q.known := by
  rw [Step.aliases_eq_of_conditional hkind, List.mem_cons, ← map_step_inside, List.flatMap_map,
    List.mem_flatMap]
  refine or_congr Iff.rfl (exists_congr fun Q => and_congr_right fun hQ => ?_)
  rw [known_of_home_some (home_of_mem_inside hC hkind hQ)]

/-- Lifted is what some place inside names and no place inside is known by. -/
theorem mem_lifted_of_conditional {C : Place} (hC : C.home = none)
    (hkind : C.step.kind = "conditional") {d : String} :
    d ∈ C.step.lifted
      ↔ (∃ Q ∈ C.inside, d ∈ Q.step.dependsOn) ∧ ∀ Q ∈ C.inside, d ∉ Q.known := by
  rw [Step.lifted_eq_of_conditional hkind, List.mem_filter, decide_eq_true_eq, ← map_step_inside,
    List.flatMap_map, List.flatMap_map, List.mem_flatMap, List.mem_flatMap]
  refine and_congr Iff.rfl ?_
  simp only [not_exists, not_and]
  refine forall_congr' fun Q => forall_congr' fun hQ => ?_
  rw [known_of_home_some (home_of_mem_inside hC hkind hQ)]

end Place

/-! ## The stations of a plan -/

namespace Plan

variable {p : Plan}

/-- Every place has a station. -/
theorem exists_station {Q : Place} (hQ : Q ∈ p.places) :
    ∃ S ∈ p.places, S.home = none ∧ S.id = Q.root
      ∧ (S = Q ∨ S.step.kind = "conditional" ∧ Q ∈ S.inside) := by
  cases hhome : Q.home with
  | none => exact ⟨Q, hQ, hhome, (Place.root_of_home_none hhome).symm, .inl rfl⟩
  | some h =>
    obtain ⟨C, hC, hCnone, hkind, hid, hinside⟩ := exists_home hQ hhome
    exact ⟨C, hC, hCnone, hid.trans (Place.root_of_home_some hhome).symm, .inr ⟨hkind, hinside⟩⟩

/-- A place has one station: itself, or the conditional that it is inside of. -/
theorem Sound.station_unique (hp : p.Sound) {S Q : Place} (hS : S ∈ p.places)
    (hQ : Q ∈ p.places) (hroot : Q.root = S.id) :
    S = Q ∨ S.step.kind = "conditional" ∧ Q ∈ S.inside := by
  obtain ⟨R, hR, -, hid, hcases⟩ := exists_station hQ
  obtain rfl : R = S := hp.eq_of_id_eq hR hS (hid.trans hroot)
  exact hcases

/-- The ids that a station is known by. -/
theorem Sound.mem_aliases (hp : p.Sound) {S : Place} (hS : S ∈ p.places) (hhome : S.home = none)
    {a : String} : a ∈ S.step.aliases ↔ ∃ Q ∈ p.places, Q.root = S.id ∧ a ∈ Q.known := by
  constructor
  · intro ha
    by_cases hkind : S.step.kind = "conditional"
    · rcases (Place.mem_aliases_of_conditional hhome hkind).1 ha with rfl | ⟨Q, hQ, haQ⟩
      · refine ⟨S, hS, Place.root_of_home_none hhome, ?_⟩
        rw [Place.known_of_home_none hhome]
        exact S.step.id_mem_ownIds
      · exact ⟨Q, mem_places_of_mem_inside hS hQ,
          Place.root_of_home_some (Place.home_of_mem_inside hhome hkind hQ), haQ⟩
    · refine ⟨S, hS, Place.root_of_home_none hhome, ?_⟩
      rwa [Place.known_of_home_none hhome, ← Step.aliases_eq_ownIds hkind]
  · rintro ⟨Q, hQ, hroot, ha⟩
    rcases hp.station_unique hS hQ hroot with rfl | ⟨hkind, hQS⟩
    · rw [Place.known_of_home_none hhome] at ha
      exact Step.ownIds_subset_aliases S.step ha
    · exact (Place.mem_aliases_of_conditional hhome hkind).2 (.inr ⟨Q, hQS, ha⟩)

/-- A place whose home is a conditional is inside it. -/
theorem Sound.mem_inside_of_home (hp : p.Sound) {C Q : Place} (hC : C ∈ p.places)
    (hQ : Q ∈ p.places) (hhome : Q.home = some C.id) : Q ∈ C.inside := by
  obtain ⟨R, hR, -, -, hid, hinside⟩ := exists_home hQ hhome
  obtain rfl : R = C := hp.eq_of_id_eq hR hC hid
  exact hinside

/-- What is declared for a station is what is declared for the places that it stands for, unless a
place inside the same conditional is known by it. -/
theorem Sound.mem_declared (hp : p.Sound) {S : Place} (hS : S ∈ p.places) (hhome : S.home = none)
    {d : String} :
    d ∈ S.declared ↔ ∃ Q ∈ p.places, Q.root = S.id ∧ d ∈ Q.awaited
      ∧ ∀ R ∈ p.places, R.home ≠ none → R.home = Q.home → d ∉ R.known := by
  -- what a conditional lifts is told by the places inside it, and what they settle among themselves
  -- is not lifted
  constructor
  · intro hd
    rcases List.mem_append.1 hd with hd | hd
    · refine ⟨S, hS, Place.root_of_home_none hhome, hd, ?_⟩
      exact fun R _ hne heq => absurd (heq.trans hhome) hne
    · have hkind : S.step.kind = "conditional" := by
        by_contra hkind
        rw [Step.lifted_eq_nil hkind] at hd
        exact absurd hd List.not_mem_nil
      obtain ⟨⟨Q, hQ, hdQ⟩, hnot⟩ := (Place.mem_lifted_of_conditional hhome hkind).1 hd
      have hQhome : Q.home = some S.id := Place.home_of_mem_inside hhome hkind hQ
      refine ⟨Q, mem_places_of_mem_inside hS hQ, Place.root_of_home_some hQhome,
        List.mem_append_right _ hdQ, ?_⟩
      intro R hR _ heq
      exact hnot R (hp.mem_inside_of_home hS hR (heq.trans hQhome))
  · rintro ⟨Q, hQ, hroot, hd, hnot⟩
    rcases hp.station_unique hS hQ hroot with rfl | ⟨hkind, hQS⟩
    · exact List.mem_append_left _ hd
    · have hQhome : Q.home = some S.id := Place.home_of_mem_inside hhome hkind hQS
      rcases Place.awaited_of_mem_within (Place.inside_subset_within S hQS) d hd
        with hd | ⟨R, hR, hdR⟩
      · exact List.mem_append_left _ hd
      · refine List.mem_append_right _
          ((Place.mem_lifted_of_conditional hhome hkind).2 ⟨⟨R, hR, hdR⟩, ?_⟩)
        intro R' hR'
        have hR'home : R'.home = some S.id := Place.home_of_mem_inside hhome hkind hR'
        refine hnot R' (mem_places_of_mem_inside hS hR') ?_ (hR'home.trans hQhome.symm)
        rw [hR'home]
        exact Option.some_ne_none _

end Plan

end Wavefront
