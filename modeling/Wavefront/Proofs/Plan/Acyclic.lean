/-
Plans without conditionals never get stuck.

The check of a plan looks for circles among ids: what steps name, what is declared around them,
their members and the owners of bodies. The graph that is executed is another one, with a node for
each item of a loop and with nodes that gather. It is closed, because whatever a step may name is
known of a place; and waiting ends in it because it follows the waiting of the plan. From a node the
way leads to the nodes of a step that its own station waits for, over however many steps in between,
or else to a node for an item of the same loop, which waits for nothing but what is declared.
-/
import Wavefront.Proofs.Plan.Compiled
import Wavefront.Proofs.Run.Ending
import Wavefront.Tool.Stock
import Wavefront.Schema.Reader

set_option autoImplicit false

namespace Wavefront

namespace Plan

variable {p : Plan} {tools : Registry} {context : Value} {e : Expansion} {g : Graph}

/-- Without conditionals every place stands by itself. -/
theorem home_eq_none (hnone : ∀ s ∈ p.allSteps, s.kind ≠ "conditional") {Q : Place}
    (hQ : Q ∈ p.places) : Q.home = none := by
  cases hhome : Q.home with
  | none => rfl
  | some h =>
    obtain ⟨C, hC, -, hkind, -⟩ := exists_home hQ hhome
    exact absurd hkind (hnone C.step (step_mem_allSteps hC))

namespace Compiled

section

variable (hc : p.Compiled context e g) (hnone : ∀ s ∈ p.allSteps, s.kind ≠ "conditional")

include hc hnone

/-- What is declared for a place is known of one that it waits for. -/
theorem exists_known {S : Place} (hS : S ∈ p.places) {d : String} (hd : d ∈ S.awaited) :
    ∃ Q ∈ p.places, d ∈ Q.known ∧ Relation.TransGen p.Waits S.id Q.id := by
  have hids : d ∈ p.ids := awaited_mem_ids hc.sound.known hS d hd
  obtain ⟨Q, hQ, hown⟩ := Plan.mem_ids.1 hids
  refine ⟨Q, hQ, ?_, waits_owner hS hQ hd hown⟩
  rwa [Place.known_of_home_none (home_eq_none hnone hQ)]

/-- Whatever a node waits for is there. -/
theorem closed : g.Closed := by
  refine hc.closed_of_known fun S hS d hd => ?_
  obtain ⟨Q, hQ, hknown, -⟩ := hc.exists_known hnone hS hd
  exact ⟨Q, hQ, hknown⟩

/-- What is declared for a station leads to what a place ends with that it waits for. -/
theorem exists_awaited {S : Place} (hS : S ∈ p.places) {d : String} (hd : d ∈ S.declared) :
    ∃ Q ∈ p.places, e.resolve d = Q.step.exits context ∧ Relation.TransGen p.Waits S.id Q.id := by
  have hkind : S.step.kind ≠ "conditional" := hnone S.step (step_mem_allSteps hS)
  rw [Place.declared, Step.lifted_eq_nil hkind, List.append_nil] at hd
  obtain ⟨Q, hQ, hknown, hway⟩ := hc.exists_known hnone hS hd
  refine ⟨Q, hQ, ?_, hway⟩
  rw [hc.resolve_of_mem_known hQ hknown (hc.sound.awaited_ne_empty hS hd),
    Place.exits_of_home_none (home_eq_none hnone hQ)]

/-- From the nodes of a station waiting does not go on for ever if it does not from what the station
waits for. -/
theorem grounded_of_station {S : Place} (hS : S ∈ p.places)
    (ih : ∀ Q ∈ p.places, Relation.TransGen p.Waits S.id Q.id →
      ∀ n ∈ Q.step.madeIds context, Digraph.Grounded g.DependsOn n) :
    ∀ n ∈ S.step.madeIds context, Digraph.Grounded g.DependsOn n := by
  have hhome : S.home = none := home_eq_none hnone hS
  have hexits : ∀ Q ∈ p.places, Relation.TransGen p.Waits S.id Q.id →
      ∀ x ∈ Q.step.exits context, Digraph.Grounded g.DependsOn x := by
    intro Q hQ hway x hx
    obtain ⟨R, hR, hmade⟩ := (Place.mem_nodes (home_eq_none hnone hQ)).1
      (Step.exits_subset_nodes context Q.step hx)
    have hwithin := (Place.mem_stations.1 hR).1
    refine ih R (mem_places_of_mem_within hQ hwithin) ?_ x hmade
    rcases Place.mem_within.1 hwithin with rfl | hinside
    · exact hway
    · exact hway.trans (waits_of_mem_inside hQ (Place.mem_inside.2 hinside))
  have hdeclared : ∀ d ∈ S.declared, ∀ x ∈ e.resolve d, Digraph.Grounded g.DependsOn x := by
    intro d hd x hx
    obtain ⟨Q, hQ, hresolve, hway⟩ := hc.exists_awaited hnone hS hd
    rw [hresolve] at hx
    exact hexits Q hQ hway x hx
  -- the nodes for the items of a loop come before the one that gathers them
  have hitem : ∀ n, (n, []) ∈ S.step.made context → Digraph.Grounded g.DependsOn n := by
    intro n hmade
    refine Digraph.grounded_of_forall fun x hx => ?_
    rcases (hc.dependsOn_iff_of_made hS hhome hmade).1 hx with hx | ⟨d, hd, hx⟩
    · exact absurd hx List.not_mem_nil
    · exact hdeclared d hd x hx
  intro n hn
  obtain ⟨⟨n, deps⟩, hmade, rfl⟩ := List.mem_map.1 hn
  refine Digraph.grounded_of_forall fun x hx => ?_
  rcases (hc.dependsOn_iff_of_made hS hhome hmade).1 hx with hx | ⟨d, hd, hx⟩
  · rcases Place.mem_of_mem_made hhome hmade hx with hx | ⟨M, hM, -, hx⟩
    · exact hitem x hx
    · exact hexits M (mem_places_of_mem_within hS (Place.member_mem_within hM))
        (.single (.member hS hM)) x hx
  · exact hdeclared d hd x hx

/-- From no node of the graph does waiting go on for ever. -/
theorem grounded : ∀ n ∈ g.ids, Digraph.Grounded g.DependsOn n := by
  have hstations : ∀ a, Digraph.Grounded (Relation.TransGen p.Waits) a → ∀ S ∈ p.places, S.id = a →
      ∀ n ∈ S.step.madeIds context, Digraph.Grounded g.DependsOn n := by
    intro a ha
    induction ha with
    | intro a _ ih =>
      rintro S hS rfl
      exact hc.grounded_of_station hnone hS fun Q hQ hway => ih Q.id hway Q hQ rfl
  intro n hn
  obtain ⟨S, hS, -, hmade⟩ := hc.mem_ids.1 hn
  have hground := (hc.sound.grounded S.id (id_mem_ids hS)).transGen
  exact hstations S.id hground S hS rfl n hmade

end

end Compiled

/-- The graph of a plan without conditionals has all that its nodes wait for and no circle, and so
no execution of it leaves a node behind, whatever its tools do. -/
theorem compile_without_conditionals [Schema.Validator] (h : p.compile tools context = .ok g)
    (hnone : ∀ s ∈ p.allSteps, s.kind ≠ "conditional") :
    (∀ n ∈ g.nodes, ∀ d ∈ n.deps, d ∈ g.ids) ∧ (∀ id, ¬ Relation.TransGen g.DependsOn id id)
      ∧ ∀ (start : Value) (mode : Mode) (o : Options) (f : Failure),
        (g.execute start mode o).result = .error f ∨ (g.run start mode o).result = .error f →
        ∀ pending, f.error ≠ .deadlock pending := by
  obtain ⟨e, -, -, hc⟩ := compiled_of_compile h
  have hgrounded := hc.grounded hnone
  refine ⟨hc.closed hnone, ?_, ?_⟩
  · intro id hcycle
    obtain ⟨d, hd, -⟩ := Relation.TransGen.head'_iff.1 hcycle
    exact (hgrounded id hd.source_mem_ids).not_transGen_self hcycle
  · have hstuck : g.schedule.stuck = [] := Graph.stuck_schedule (hc.closed hnone) hgrounded
    rintro start mode o f hfail pending hdeadlock
    rcases hfail with hfail | hfail
    · obtain ⟨node, message, hnode⟩ := Graph.error_execute hstuck hfail
      rw [hnode] at hdeadlock
      cases hdeadlock
    · rcases Graph.error_run hstuck hfail with ⟨fault, hfault⟩ | ⟨node, message, hnode⟩
      · rw [hfault] at hdeadlock
        cases hdeadlock
      · rw [hnode] at hdeadlock
        cases hdeadlock

/-- Groups in groups, with a loop over items that are there, one over items that are not, and a
reducer that is waited for. -/
def groupsOfLoops : Plan where
  version := "1"
  steps := [
    .loop {
      id := "l"
      items := .array [.null, .null]
      binder := "x"
      body := { id := "b", tool := "echo" } },
    .parallel { id := "p", output := some "o", dependsOn := ["b"] } [
      .parallel { id := "q" } [.tool { id := "t", tool := "echo" }],
      .reduce {
        id := "r"
        input := .array []
        binder := "x"
        reducer := .inline { id := "i", tool := "echo" }
        output := "s" }],
    .loop {
      id := "m"
      items := .string "later"
      binder := "x"
      body := { id := "", tool := "echo" }
      dependsOn := ["i"] },
    .final { id := "f", dependsOn := ["p", "m"] }]

/-- A plan with groups and loops, whose graph has more nodes than the plan has steps. -/
theorem compile_without_conditionals_groupsOfLoops :
    ∃ g, groupsOfLoops.compile .standard (.object []) = .ok g
      ∧ (∀ s ∈ groupsOfLoops.allSteps, s.kind ≠ "conditional")
      ∧ (∀ n ∈ g.nodes, ∀ d ∈ n.deps, d ∈ g.ids)
      ∧ ∀ id, ¬ Relation.TransGen g.DependsOn id id := by
  obtain ⟨g, hg⟩ := exists_eq_ok_of_isOk (x := groupsOfLoops.compile .standard (.object []))
    (by cbv)
  have hnone : ∀ s ∈ groupsOfLoops.allSteps, s.kind ≠ "conditional" := by
    simp [allSteps, groupsOfLoops, Step.nestedList, Step.nested, Step.kind]
  obtain ⟨hclosed, hacyclic, -⟩ := compile_without_conditionals hg hnone
  exact ⟨g, hg, hnone, hclosed, hacyclic⟩

end Plan

end Wavefront
