/-
When a conditional waits for itself.

The check of a plan looks for circles with every step for itself: a conditional waits for the steps
inside it and not they for the conditional. In the graph the whole conditional is one node. It waits
for all that any step inside waits for outside, and whoever waits for any step inside waits for it.
So there is a circle in the graph, and none that the check could see, when something outside waits
for one step of a branch and another step of the branch waits for that.

`Plan.Leans` is waiting with every conditional taken as one. A conditional is on a circle of the
graph if and only if it is on one of these.
-/
import Wavefront.Proofs.Plan.Compiled
import Wavefront.Tool.Stock

set_option autoImplicit false

namespace Wavefront

/-- What waits for what by the ids of stations, with all that is inside a conditional taken
together. -/
inductive Plan.Leans (p : Plan) (context : Value) : String → String → Prop
  /-- A place waits for another one, unless both are inside the same conditional. -/
  | awaited {P Q : Place} (hP : P ∈ p.places) (hQ : Q ∈ p.places) {d : String} (hd : d ∈ P.awaited)
      (hdQ : d ∈ Q.known) (happart : P.home = none ∨ P.home ≠ Q.home) : Leans p context P.root Q.root
  /-- A group waits for its members. -/
  | member {P M : Place} (hP : P ∈ p.places) (hM : M ∈ P.members) (hhome : M.home = none) :
      Leans p context P.id M.id
  /-- What is known of no place is taken for the id of a node, and there may be such a node. -/
  | stray {P Q : Place} (hP : P ∈ p.places) (hQ : Q ∈ p.places) {d : String} (hd : d ∈ P.awaited)
      (hunknown : ∀ R ∈ p.places, d ∉ R.known) (hhome : Q.home = none)
      (hmade : d ∈ Q.step.madeIds context) : Leans p context P.root Q.id

namespace Plan

variable {p : Plan} {tools : Registry} {context : Value} {e : Expansion} {g : Graph}

namespace Compiled

/-! ## From the graph to the plan -/

/-- A group leans, over the groups in between, on every station inside it. -/
theorem leans_of_mem_stations {P S : Place} (hP : P ∈ p.places) (hhome : P.home = none)
    (hS : S ∈ P.stations) : Relation.ReflTransGen (p.Leans context) P.id S.id := by
  induction P using Place.induction with
  | h P ih =>
    rcases (Place.mem_stations_iff hhome).1 hS with rfl | ⟨M, hM, hMhome, hS⟩
    · exact .refl
    · have hMp : M ∈ p.places := mem_places_of_mem_within hP (Place.member_mem_within hM)
      exact .head (.member hP hM hMhome) (ih M hM hMp hMhome hS)

/-- What is declared for a station leads to one that the station leans on. -/
theorem leans_of_declared (hc : p.Compiled context e g) {S R : Place} (hS : S ∈ p.places)
    (hhome : S.home = none) (hR : R ∈ p.places) (hRhome : R.home = none) {d m : String}
    (hd : d ∈ S.declared) (hm : m ∈ e.resolve d) (hmade : m ∈ R.step.madeIds context) :
    Relation.TransGen (p.Leans context) S.id R.id := by
  obtain ⟨P, hP, hroot, hdP, hnot⟩ := (hc.sound.mem_declared hS hhome).1 hd
  have hne : d ≠ "" := hc.sound.awaited_ne_empty hP hdP
  rw [← hroot]
  -- what is waited for is known of a place, or it strays and may be the id of a made up node
  by_cases hknown : ∃ Q ∈ p.places, d ∈ Q.known
  · obtain ⟨Q, hQ, hdQ⟩ := hknown
    have happart : P.home = none ∨ P.home ≠ Q.home := by
      by_contra hsame
      push Not at hsame
      exact hnot Q hQ (hsame.2 ▸ hsame.1) hsame.2.symm hdQ
    have hfirst : p.Leans context P.root Q.root := .awaited hP hQ hdP hdQ happart
    rw [hc.resolve_of_mem_known hQ hdQ hne] at hm
    -- a place inside a conditional is waited for as the conditional
    cases hQhome : Q.home with
    | none =>
      rw [Place.exits_of_home_none hQhome] at hm
      obtain ⟨R', hR', hmade'⟩ := (Place.mem_nodes hQhome).1 (Step.exits_subset_nodes context _ hm)
      obtain ⟨hwithin, hR'home⟩ := Place.mem_stations.1 hR'
      obtain rfl : R' = R := hc.maker_unique (mem_places_of_mem_within hQ hwithin) hR'home hR hRhome
        hmade' hmade
      have hdown : Relation.ReflTransGen (p.Leans context) Q.id R'.id :=
        leans_of_mem_stations hQ hQhome hR'
      rw [← Place.root_of_home_none hQhome] at hdown
      exact .trans_left (.single hfirst) hdown
    | some h =>
      rw [Place.exits_of_home_some hQhome, List.mem_singleton] at hm
      obtain ⟨C, hC, hChome, hkind, hid, -⟩ := exists_home hQ hQhome
      have hmadeC : m ∈ C.step.madeIds context := by
        rw [hm, ← hid]
        exact Step.id_mem_madeIds_of_conditional hkind
      obtain rfl : C = R := hc.maker_unique hC hChome hR hRhome hmadeC hmade
      rw [Place.root_of_home_some hQhome, ← hid] at hfirst
      exact .single hfirst
  · push Not at hknown
    rw [hc.resolve_of_unknown hknown, List.mem_singleton] at hm
    rw [hm] at hmade
    exact .single (.stray hP hR hdP hknown hRhome hmade)

/-- One dependency of the graph is no, one or several steps of leaning. -/
theorem leans_of_dependsOn (hc : p.Compiled context e g) {S R : Place} (hS : S ∈ p.places)
    (hhome : S.home = none) (hR : R ∈ p.places) (hRhome : R.home = none) {n m : String}
    (hn : n ∈ S.step.madeIds context) (hm : m ∈ R.step.madeIds context) (h : g.DependsOn n m) :
    Relation.ReflTransGen (p.Leans context) S.id R.id := by
  obtain ⟨⟨n, deps⟩, hmade, rfl⟩ := List.mem_map.1 hn
  rcases (hc.dependsOn_iff_of_made hS hhome hmade).1 h with hdeps | ⟨d, hd, hmd⟩
  · rcases Place.mem_of_mem_made hhome hmade hdeps with hitem | ⟨M, hM, hMhome, hexit⟩
    · have hmS : m ∈ S.step.madeIds context := List.mem_map.2 ⟨_, hitem, rfl⟩
      obtain rfl : S = R := hc.maker_unique hS hhome hR hRhome hmS hm
      exact .refl
    · have hMp : M ∈ p.places := mem_places_of_mem_within hS (Place.member_mem_within hM)
      obtain ⟨R', hR', hmR'⟩ := (Place.mem_nodes hMhome).1 (Step.exits_subset_nodes context _ hexit)
      obtain ⟨hwithin, hR'home⟩ := Place.mem_stations.1 hR'
      obtain rfl : R' = R := hc.maker_unique (mem_places_of_mem_within hMp hwithin) hR'home hR hRhome
        hmR' hm
      exact .head (.member hS hM hMhome) (leans_of_mem_stations hMp hMhome hR')
  · exact (hc.leans_of_declared hS hhome hR hRhome hd hmd hm).to_reflTransGen

/-- Along a way of the graph the plan leans as well. -/
theorem leans_of_way (hc : p.Compiled context e g) {R : Place} (hR : R ∈ p.places)
    (hRhome : R.home = none) {n m : String} (hm : m ∈ R.step.madeIds context)
    (h : Relation.ReflTransGen g.DependsOn n m) {S : Place} (hS : S ∈ p.places)
    (hhome : S.home = none) (hn : n ∈ S.step.madeIds context) :
    Relation.ReflTransGen (p.Leans context) S.id R.id := by
  induction h using Relation.ReflTransGen.head_induction_on generalizing S with
  | refl =>
    obtain rfl : S = R := hc.maker_unique hS hhome hR hRhome hn hm
    exact .refl
  | @head n x hnx hxm ih =>
    have hx : x ∈ g.ids := Graph.mem_ids_of_way hxm (hc.mem_ids.2 ⟨R, hR, hRhome, hm⟩)
    obtain ⟨Q, hQ, hQhome, hxQ⟩ := hc.mem_ids.1 hx
    exact (hc.leans_of_dependsOn hS hhome hQ hQhome hn hxQ hnx).trans (ih hQ hQhome hxQ)

/-- A conditional on a circle of the graph leans on itself. -/
theorem leans_of_cycle (hc : p.Compiled context e g) {C : Place} (hC : C ∈ p.places)
    (hhome : C.home = none) (hkind : C.step.kind = "conditional")
    (h : Relation.TransGen g.DependsOn C.id C.id) :
    Relation.TransGen (p.Leans context) C.id C.id := by
  have hmade : (C.id, []) ∈ C.step.made context := by
    rw [Step.made_of_conditional hkind]
    exact List.mem_singleton_self _
  have hid : C.id ∈ C.step.madeIds context := Step.id_mem_madeIds_of_conditional hkind
  obtain ⟨x, hCx, hxC⟩ := Relation.TransGen.head'_iff.1 h
  have hx : x ∈ g.ids := Graph.mem_ids_of_way hxC (hc.mem_ids.2 ⟨C, hC, hhome, hid⟩)
  obtain ⟨Q, hQ, hQhome, hxQ⟩ := hc.mem_ids.1 hx
  -- the node of a conditional gathers nothing, so the first step is one that is declared
  rcases (hc.dependsOn_iff_of_made hC hhome hmade).1 hCx with hnil | ⟨d, hd, hxd⟩
  · exact absurd hnil List.not_mem_nil
  · exact .trans_left (hc.leans_of_declared hC hhome hQ hQhome hd hxd hxQ)
      (hc.leans_of_way hC hhome hid hxC hQ hQhome hxQ)

/-! ## From the plan to the graph -/

/-- Every station inside a place that makes nodes has one that a node comes behind. -/
def Touches (g : Graph) (context : Value) (n : String) (B : Place) : Prop :=
  ∀ S ∈ B.stations, S.step.madeIds context ≠ [] →
    ∃ m ∈ S.step.madeIds context, Relation.TransGen g.DependsOn n m

/-- In every place outside of all conditionals there is a station that makes a node. -/
theorem exists_maker_within (hc : p.Compiled context e g) {B : Place} (hB : B ∈ p.places)
    (hhome : B.home = none) : ∃ S ∈ B.stations, ∃ m, m ∈ S.step.madeIds context := by
  induction B using Place.induction with
  | h B ih =>
    by_cases hkind : B.step.kind = "parallel"
    · obtain ⟨M, hM⟩ := List.exists_mem_of_ne_nil _ (hc.sound.members_ne_nil B hB hkind)
      have hMhome : M.home = none := by
        rw [Place.home_of_mem_members hM, Place.innerHome_eq_home (by rw [hkind]; decide), hhome]
      obtain ⟨S, hS, hm⟩ :=
        ih M hM (mem_places_of_mem_within hB (Place.member_mem_within hM)) hMhome
      exact ⟨S, (Place.mem_stations_iff hhome).2 (.inr ⟨M, hM, hMhome, hS⟩), hm⟩
    · exact ⟨B, Place.self_mem_stations hhome, Step.exists_mem_madeIds hkind⟩

/-- What comes behind all that a place ends with comes behind a node of every station inside. -/
theorem touches_of_exits (hc : p.Compiled context e g) {B : Place} (hB : B ∈ p.places)
    (hhome : B.home = none) {n : String}
    (h : ∀ x ∈ B.step.exits context, Relation.TransGen g.DependsOn n x) : Touches g context n B := by
  intro S hS hne
  obtain ⟨m, hm⟩ := List.exists_mem_of_ne_nil _ hne
  obtain ⟨x, hx, hway⟩ :=
    hc.reached_from_exits hB hhome ((Place.mem_nodes hhome).2 ⟨S, hS, hm⟩)
  exact ⟨m, hm, .trans_left (h x hx) hway⟩

/-- What comes behind one node that a station makes comes behind a node of every station inside. -/
theorem touches_of_made (hc : p.Compiled context e g) {B : Place} (hB : B ∈ p.places)
    (hhome : B.home = none) {n m : String} (hm : m ∈ B.step.madeIds context)
    (h : Relation.TransGen g.DependsOn n m) : Touches g context n B := by
  intro S hS hne
  rcases (Place.mem_stations_iff hhome).1 hS with rfl | ⟨M, hM, hMhome, hS⟩
  · exact ⟨m, hm, h⟩
  · obtain ⟨⟨m, deps⟩, hmade, rfl⟩ := List.mem_map.1 hm
    have hMp : M ∈ p.places := mem_places_of_mem_within hB (Place.member_mem_within hM)
    refine hc.touches_of_exits hMp hMhome (fun x hx => ?_) S hS hne
    have hdeps : x ∈ deps := Step.exits_subset_of_mem_made (Place.step_mem_group hM hMhome) hmade hx
    exact h.tail ((hc.dependsOn_iff_of_made hB hhome hmade).2 (.inl hdeps))

/-- What is declared for a group is declared for the stations inside. -/
theorem declared_of_mem_stations {A S : Place} (hhome : A.home = none) (hS : S ∈ A.stations)
    {d : String} (hd : d ∈ A.declared) : d ∈ S.declared := by
  rcases (Place.mem_stations_iff hhome).1 hS with rfl | ⟨M, hM, hMhome, hSM⟩
  · exact hd
  · have hkind : A.step.kind ≠ "conditional" := (Place.of_home_of_mem_members hM hMhome).2
    rw [Place.declared, Step.lifted_eq_nil hkind, List.append_nil] at hd
    exact List.mem_append_left _
      (Place.subset_awaited_of_mem_within (Place.mem_stations.1 hS).1 hd)

/-- Where a way that leans on something starts from: a node has come as far as some node of the
station, and comes behind all that its members make. -/
structure Starts (g : Graph) (context : Value) (n : String) (A : Place) : Prop where
  arrived : ∃ S ∈ A.stations, ∃ m ∈ S.step.madeIds context, Relation.ReflTransGen g.DependsOn n m
  members : ∀ M ∈ A.members, M.home = none → Touches g context n M

/-- Who touches a place can start from it. -/
theorem starts_of_touches (hc : p.Compiled context e g) {A : Place} (hA : A ∈ p.places)
    (hhome : A.home = none) {n : String} (h : Touches g context n A) : Starts g context n A := by
  refine ⟨?_, ?_⟩
  · obtain ⟨S, hS, m, hm⟩ := hc.exists_maker_within hA hhome
    obtain ⟨m', hm', hway⟩ := h S hS (List.ne_nil_of_mem hm)
    exact ⟨S, hS, m', hm', hway.to_reflTransGen⟩
  · intro M hM hMhome S hS hne
    exact h S ((Place.mem_stations_iff hhome).2 (.inr ⟨M, hM, hMhome, hS⟩)) hne

/-- The node of a conditional can start from its place. -/
theorem starts_of_conditional {C : Place} (hhome : C.home = none)
    (hkind : C.step.kind = "conditional") : Starts g context C.id C := by
  refine ⟨⟨C, Place.self_mem_stations hhome, C.id, ?_, .refl⟩, ?_⟩
  · exact Step.id_mem_madeIds_of_conditional hkind
  · intro M hM hMhome
    exact absurd hkind (Place.of_home_of_mem_members hM hMhome).2

/-- From a start the way goes on to all that is declared. -/
theorem Starts.way_of_declared (hc : p.Compiled context e g) {A : Place} (hA : A ∈ p.places)
    (hhome : A.home = none) {n : String} (h : Starts g context n A) {d x : String}
    (hd : d ∈ A.declared) (hx : x ∈ e.resolve d) : Relation.TransGen g.DependsOn n x := by
  obtain ⟨S, hS, m, hm, hway⟩ := h.arrived
  obtain ⟨hwithin, hShome⟩ := Place.mem_stations.1 hS
  have hstep : g.DependsOn m x := hc.dependsOn_of_declared (mem_places_of_mem_within hA hwithin)
    hShome hm (declared_of_mem_stations hhome hS hd) hx
  exact .tail' hway hstep

/-- What leans on something comes behind it. -/
theorem touches_of_leans (hc : p.Compiled context e g) {n a b : String}
    (h : p.Leans context a b)
    (hstart : ∀ A ∈ p.places, A.home = none → A.id = a → Starts g context n A) {B : Place}
    (hB : B ∈ p.places) (hhome : B.home = none) (hid : B.id = b) : Touches g context n B := by
  -- the three ways to lean: on what is waited for, on a member, and on an id that no step is known
  -- by
  cases h with
  | @awaited P Q hP hQ d hd hdQ happart =>
    obtain ⟨A, hA, hAhome, hAid, -⟩ := exists_station hP
    have hne : d ≠ "" := hc.sound.awaited_ne_empty hP hd
    -- an id is declared for the station unless it is settled inside the conditional
    have hdeclared : d ∈ A.declared := by
      refine (hc.sound.mem_declared hA hAhome).2 ⟨P, hP, hAid.symm, hd, ?_⟩
      intro R hR hRne hRhome hdR
      have hsame := hc.sound.place_unique hR hQ (Place.mem_ownIds_of_mem_known hdR hne)
        (Place.mem_ownIds_of_mem_known hdQ hne)
      rw [hsame] at hRne hRhome
      rcases happart with hnone | hapart
      · exact hRne (hRhome.trans hnone)
      · exact hapart hRhome.symm
    have hway : ∀ x ∈ Q.exits context, Relation.TransGen g.DependsOn n x := by
      intro x hx
      rw [← hc.resolve_of_mem_known hQ hdQ hne] at hx
      exact (hstart A hA hAhome hAid).way_of_declared hc hA hAhome hdeclared hx
    have hexits : Q.exits context = B.step.exits context :=
      Place.exits_eq_of_station hhome (hc.sound.station_unique hB hQ hid.symm)
    rw [hexits] at hway
    exact hc.touches_of_exits hB hhome hway
  | @member P M hP hM hMhome =>
    have hPhome : P.home = none := (Place.of_home_of_mem_members hM hMhome).1
    have hMp : M ∈ p.places := mem_places_of_mem_within hP (Place.member_mem_within hM)
    obtain rfl : B = M := hc.sound.eq_of_id_eq hB hMp hid
    exact (hstart P hP hPhome rfl).members B hM hMhome
  | @stray P Q hP hQ d hd hunknown hQhome hmade =>
    obtain ⟨A, hA, hAhome, hAid, -⟩ := exists_station hP
    have hdeclared : d ∈ A.declared := (hc.sound.mem_declared hA hAhome).2
      ⟨P, hP, hAid.symm, hd, fun R hR _ _ => hunknown R hR⟩
    obtain rfl : B = Q := hc.sound.eq_of_id_eq hB hQ hid
    refine hc.touches_of_made hB hhome hmade ?_
    refine (hstart A hA hAhome hAid).way_of_declared hc hA hAhome hdeclared ?_
    rw [hc.resolve_of_unknown hunknown]
    exact List.mem_singleton_self d

/-- A conditional that leans on itself is on a circle of the graph. -/
theorem cycle_of_leans (hc : p.Compiled context e g) {C : Place} (hC : C ∈ p.places)
    (hhome : C.home = none) (hkind : C.step.kind = "conditional")
    (h : Relation.TransGen (p.Leans context) C.id C.id) :
    Relation.TransGen g.DependsOn C.id C.id := by
  have htouches : ∀ b, Relation.TransGen (p.Leans context) C.id b → ∀ B ∈ p.places,
      B.home = none → B.id = b → Touches g context C.id B := by
    intro b hway
    -- along the leaning; only the conditional itself has one node to start from, and every other
    -- place is touched
    induction hway with
    | single hfirst =>
      intro B hB hBhome hBid
      refine hc.touches_of_leans hfirst ?_ hB hBhome hBid
      intro A hA _ hAid
      obtain rfl : A = C := hc.sound.eq_of_id_eq hA hC hAid
      exact starts_of_conditional hhome hkind
    | tail _ hnext ih =>
      intro B hB hBhome hBid
      refine hc.touches_of_leans hnext ?_ hB hBhome hBid
      exact fun A hA hAhome hAid => hc.starts_of_touches hA hAhome (ih A hA hAhome hAid)
  have hmade : C.step.madeIds context = [C.id] := Step.madeIds_of_conditional hkind
  obtain ⟨m, hm, hway⟩ := htouches C.id h C hC hhome rfl C (Place.self_mem_stations hhome)
    (by rw [hmade]; exact List.cons_ne_nil _ _)
  rw [hmade, List.mem_singleton] at hm
  rwa [hm] at hway

end Compiled

/-- The node of a conditional is not among those that it waits for, over any number of nodes in
between, if and only if nothing outside leads from one step inside the conditional to another. -/
theorem compile_conditional_acyclic_iff (h : p.compile tools context = .ok g) {C : Place}
    (hC : C ∈ p.places) (hhome : C.home = none) (hkind : C.step.kind = "conditional") :
    ¬ Relation.TransGen g.DependsOn C.id C.id
      ↔ ¬ Relation.TransGen (p.Leans context) C.id C.id := by
  obtain ⟨e, -, -, hc⟩ := compiled_of_compile h
  refine not_congr ⟨?_, ?_⟩
  · exact hc.leans_of_cycle hC hhome hkind
  · exact hc.cycle_of_leans hC hhome hkind

/-- A conditional with two steps in its branch. A step outside waits for the first, and the second
waits for that. -/
def circleOverBranch : Plan where
  version := "1"
  steps := [
    .conditional { id := "c" } "true" [
      .tool { id := "t", tool := "echo" },
      .tool { id := "u", tool := "echo", dependsOn := ["x"] }] [],
    .tool { id := "x", tool := "echo", dependsOn := ["t"] }]

/-- The place of its conditional. -/
def circleOverBranch.place : Place :=
  ⟨.conditional { id := "c" } "true" [
    .tool { id := "t", tool := "echo" },
    .tool { id := "u", tool := "echo", dependsOn := ["x"] }] [], [], none⟩

/-- The circle over the branch is one of leaning, and so one of the graph. -/
theorem compile_conditional_acyclic_iff_circleOverBranch :
    ∃ g, circleOverBranch.compile .standard (.object []) = .ok g
      ∧ circleOverBranch.place ∈ circleOverBranch.places
      ∧ Relation.TransGen (circleOverBranch.Leans (.object [])) "c" "c"
      ∧ Relation.TransGen g.DependsOn "c" "c" := by
  obtain ⟨g, hg⟩ := exists_eq_ok_of_isOk (x := circleOverBranch.compile .standard (.object []))
    (by cbv)
  let T : Place := ⟨.tool { id := "t", tool := "echo" }, [], some "c"⟩
  let U : Place := ⟨.tool { id := "u", tool := "echo", dependsOn := ["x"] }, [], some "c"⟩
  let X : Place := ⟨.tool { id := "x", tool := "echo", dependsOn := ["t"] }, [], none⟩
  have hC : circleOverBranch.place ∈ circleOverBranch.places := by
    simp [circleOverBranch.place, places, circleOverBranch, Step.placesAll, Step.places]
  have hT : T ∈ circleOverBranch.places := by
    simp [T, places, circleOverBranch, Step.placesAll, Step.places]
  have hU : U ∈ circleOverBranch.places := by
    simp [U, places, circleOverBranch, Step.placesAll, Step.places]
  have hX : X ∈ circleOverBranch.places := by
    simp [X, places, circleOverBranch, Step.placesAll, Step.places]
  -- one step of the branch waits for `x`, and `x` waits for the other one
  have hout : circleOverBranch.Leans (.object []) "c" "x" :=
    .awaited hU hX (List.mem_singleton_self "x") X.id_mem_known (.inr (by simp [U, X]))
  have hback : circleOverBranch.Leans (.object []) "x" "c" :=
    .awaited hX hT (List.mem_singleton_self "t") T.id_mem_known (.inl rfl)
  have hleans : Relation.TransGen (circleOverBranch.Leans (.object [])) "c" "c" :=
    .head hout (.single hback)
  refine ⟨g, hg, hC, hleans, ?_⟩
  by_contra hacyclic
  exact (compile_conditional_acyclic_iff hg hC rfl rfl).1 hacyclic hleans

/-- The plan passes the check, and the node of its conditional waits for itself. -/
theorem circleOverBranch_not_acyclic :
    ∃ g, circleOverBranch.compile .standard (.object []) = .ok g
      ∧ ∃ C ∈ circleOverBranch.places, C.home = none ∧ C.step.kind = "conditional"
        ∧ Relation.TransGen g.DependsOn C.id C.id := by
  have hedges : (circleOverBranch.compile .standard (.object [])).toOption.map Graph.edges
      = some [("c", ["x"]), ("x", ["c"])] := by
    cbv
  obtain ⟨g, hg, hedges⟩ := Graph.exists_edges hedges
  have hout : g.DependsOn "c" "x" := by
    simp [Graph.dependsOn_iff_mem_edges, hedges]
  have hback : g.DependsOn "x" "c" := by
    simp [Graph.dependsOn_iff_mem_edges, hedges]
  refine ⟨g, hg, circleOverBranch.place, ?_, rfl, rfl, .head hout (.single hback)⟩
  simp [circleOverBranch.place, places, circleOverBranch, Step.placesAll, Step.places]

end Plan

end Wavefront
