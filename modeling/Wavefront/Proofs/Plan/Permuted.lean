/-
Plans whose steps stand in another order.

The order of the steps of a plan does not matter. The check goes by the ids that come up and by what
is declared for each, and in a plan that passes no id comes up twice. The expansion takes the steps
one by one, none of them depending on those before it, and resolves what they wait for only at the
end; what an id leads to is then the same wherever its entry stands. So both plans have the same
nodes, each with the same work and the same dependencies, or neither has a graph.
-/
import Wavefront.Proofs.Plan.Generated
import Wavefront.Proofs.Plan.Reload

set_option autoImplicit false

namespace Wavefront

/-! ## Expansions -/

namespace Expansion

/-- Two expansions have the same drafts and the same names, in whatever order. -/
structure Shuffles (e f : Expansion) : Prop where
  drafts : e.drafts.Perm f.drafts
  names : e.names.Perm f.names

namespace Shuffles

variable {a e f : Expansion}

theorem refl (e : Expansion) : e.Shuffles e := ⟨.refl _, .refl _⟩

theorem trans (h : e.Shuffles f) (h' : f.Shuffles a) : e.Shuffles a :=
  ⟨h.drafts.trans h'.drafts, h.names.trans h'.names⟩

theorem append_left (h : e.Shuffles f) (a : Expansion) : (a ++ e).Shuffles (a ++ f) :=
  ⟨h.drafts.append_left a.drafts, h.names.append_left a.names⟩

/-- Two neighbours may change places. -/
theorem swap (a b e : Expansion) : (a ++ (b ++ e)).Shuffles (b ++ (a ++ e)) := by
  constructor
  · exact List.perm_append_comm_assoc a.drafts b.drafts e.drafts
  · exact List.perm_append_comm_assoc a.names b.names e.names

end Shuffles

variable {e f : Expansion}

/-- What an id leads to does not depend on where its entry stands. -/
theorem Shuffles.resolve_eq (h : e.Shuffles f)
    (hunique : ∀ id exits other, (id, exits) ∈ f.names → (id, other) ∈ f.names → other = exits)
    (id : String) : e.resolve id = f.resolve id := by
  by_cases hnamed : ∃ exits, (id, exits) ∈ f.names
  · obtain ⟨exits, hmem⟩ := hnamed
    rw [resolve_of_mem hmem fun other hother => hunique id exits other hmem hother]
    apply resolve_of_mem (h.names.mem_iff.2 hmem)
    intro other hother
    exact hunique id exits other hmem (h.names.mem_iff.1 hother)
  · have hnot : ∀ exits, (id, exits) ∉ f.names := fun exits hmem => hnamed ⟨exits, hmem⟩
    rw [resolve_of_not_mem hnot]
    apply resolve_of_not_mem
    intro exits hmem
    exact hnot exits (h.names.mem_iff.1 hmem)

/-- Shuffled names finish a node in the same way, as long as no id stands for two things. -/
theorem Shuffles.finish_eq (h : e.Shuffles f)
    (hunique : ∀ id exits other, (id, exits) ∈ f.names → (id, other) ∈ f.names → other = exits) :
    e.finish = f.finish := by
  have hresolve : e.resolve = f.resolve := funext fun id => h.resolve_eq hunique id
  funext d
  rw [finish, finish, hresolve]

end Expansion

/-- Steps in another order are expanded to the same drafts and the same names. -/
theorem Step.expandAll_perm {tools : Registry} {context : Value} {inherited : List String}
    {steps others : List Step} (h : others.Perm steps) {e : Expansion}
    (he : expandAll tools context inherited steps = .ok e) :
    ∃ f, expandAll tools context inherited others = .ok f ∧ f.Shuffles e := by
  induction h generalizing e with
  | nil => exact ⟨e, he, .refl e⟩
  | cons s _ ih =>
    obtain ⟨first, rest, hfirst, hrest, rfl⟩ := expandAll_cons_eq_ok.1 he
    obtain ⟨f, hf, hshuffles⟩ := ih hrest
    refine ⟨first ++ f, ?_, hshuffles.append_left first⟩
    exact expandAll_cons_eq_ok.2 ⟨first, f, hfirst, hf, rfl⟩
  | swap s t steps =>
    -- neither of the two steps sees the other, so each is expanded as before
    obtain ⟨a, tail, ha, htail, rfl⟩ := expandAll_cons_eq_ok.1 he
    obtain ⟨b, rest, hb, hrest, rfl⟩ := expandAll_cons_eq_ok.1 htail
    have hbehind := expandAll_cons_eq_ok.2 ⟨a, rest, ha, hrest, rfl⟩
    refine ⟨b ++ (a ++ rest), ?_, .swap b a rest⟩
    exact expandAll_cons_eq_ok.2 ⟨b, a ++ rest, hb, hbehind, rfl⟩
  | trans _ _ ih ih' =>
    obtain ⟨f, hf, hshuffles⟩ := ih' he
    obtain ⟨f', hf', hshuffles'⟩ := ih hf
    exact ⟨f', hf', hshuffles'.trans hshuffles⟩

/-! ## Plans -/

namespace Plan

/-- The plan is the other one with its steps in another order. -/
structure Reorders (q p : Plan) : Prop where
  version : q.version = p.version
  mode : q.mode = p.mode
  steps : q.steps.Perm p.steps

namespace Reorders

variable {p q : Plan} {tools : Registry} {context : Value} {g : Graph}

theorem symm (h : q.Reorders p) : p.Reorders q := ⟨h.version.symm, h.mode.symm, h.steps.symm⟩

theorem places_perm (h : q.Reorders p) : q.places.Perm p.places := by
  rw [places, places, Place.placesAll_eq_flatMap, Place.placesAll_eq_flatMap]
  exact (h.steps.map _).flatMap_right _

/-- The steps of both plans are equally flawless. -/
theorem flawless_survey (h : q.Reorders p) (hp : p.survey.Flawless) : q.survey.Flawless := by
  apply flawless_survey_iff.2
  intro s hs
  exact flawless_survey_iff.1 hp s (h.steps.mem_iff.1 hs)

/-- All that is declared for a step of the one plan is declared for it in the other. -/
theorem declares_survey (h : q.Reorders p) (hp : p.survey.Flawless) :
    ∀ d ∈ q.survey.declared, p.survey.Declares d.entry := by
  have hentries : (q.places.flatMap Place.entries).Perm (p.places.flatMap Place.entries) :=
    h.places_perm.flatMap_right _
  have hdeclared := ((declared_perm_of_flawless (h.flawless_survey hp)).trans hentries).trans
    (declared_perm_of_flawless hp).symm
  intro d hd
  obtain ⟨e, he, heq⟩ := List.mem_map.1 (hdeclared.mem_iff.1 (List.mem_map.2 ⟨d, hd, rfl⟩))
  rw [← heq]
  exact ⟨e, he, rfl, rfl, fun _ hid => hid⟩

/-- The check of the steps objects to nothing in the one plan if it does not in the other. -/
theorem survey_issues (h : q.Reorders p) (hcheck : check p.toValue = .ok ()) :
    q.survey.issues = [] := by
  have hclean := clean_of_check hcheck
  have hflawless := h.flawless_survey hclean.flawless
  have hdeclares := h.declares_survey hclean.flawless
  have hids : q.survey.ids.Perm p.survey.ids := by
    rw [ids_survey_of_flawless hflawless, ids_survey_of_flawless hclean.flawless]
    exact h.places_perm.flatMap_right _
  have hnodup : (p.survey.declared.map (·.id)).Nodup := by
    rw [(declared_ids_perm_of_check hcheck).nodup_iff]
    exact (sound_of_check hcheck).nodup
  apply Survey.issues_eq_nil hflawless (hids.nodup_iff.2 hclean.nodup)
  · intro d hd id hid
    obtain ⟨e, he, -, hdepends, -⟩ := hdeclares d hd
    exact hids.mem_iff.2 (hclean.known e he id (hdepends ▸ hid))
  · intro a hcycle
    -- a circle would be one in the plan that passes
    apply hclean.acyclic a
    refine Relation.TransGen.mono (fun _ _ => ?_) a a hcycle
    exact Survey.edge_of_declares hnodup hids.subset hdeclares

/-- A plan whose steps stand in another order passes the check as well. -/
theorem check_toValue (h : q.Reorders p) (hcheck : check p.toValue = .ok ()) :
    check q.toValue = .ok () := by
  obtain ⟨hversion, hsteps, -⟩ := check_toValue_iff_issues.1 hcheck
  apply check_toValue_iff_issues.2
  refine ⟨h.version ▸ hversion, ?_, h.survey_issues hcheck⟩
  intro hnil
  exact hsteps (List.Perm.nil_eq (hnil ▸ h.steps)).symm

/-- If the one plan has a graph, so has the other, with the same nodes. -/
theorem exists_expand (h : q.Reorders p) (hcheck : check p.toValue = .ok ())
    (hg : p.expand tools context = .ok g) :
    ∃ g', q.expand tools context = .ok g' ∧ g'.nodes.Perm g.nodes := by
  obtain ⟨e, he, hgraph⟩ := bind_eq_ok_iff.1 hg
  have hc : p.Compiled context e g :=
    ⟨sound_of_check hcheck, covers_expandAll he, Graph.nodes_of_ofNodes hgraph⟩
  obtain ⟨f, hf, hshuffles⟩ := Step.expandAll_perm h.steps he
  have hfinish : f.finish = e.finish :=
    hshuffles.finish_eq fun id exits other hmem hother => hc.exits_unique hmem hother
  have hnodes : (f.drafts.map f.finish).Perm g.nodes := by
    rw [hfinish, hc.nodes]
    exact hshuffles.drafts.map e.finish
  have hids : ((f.drafts.map f.finish).map Node.id).Nodup :=
    (hnodes.map Node.id).nodup_iff.2 g.nodup
  obtain ⟨g', hg'⟩ := Graph.exists_ofNodes_iff.2 hids
  refine ⟨g', bind_eq_ok_iff.2 ⟨f, hf, hg'⟩, ?_⟩
  rw [Graph.nodes_of_ofNodes hg']
  exact hnodes

end Reorders

/-- The order in which a plan has its steps does not matter. If the plan passes the check, it does
so with its steps in any order; and whatever tools are registered and whatever the context is, it
has a graph with its steps in one order if and only if it has one with them in the other. The nodes
of the two graphs are the same. -/
theorem expand_reordered {p q : Plan} (h : q.Reorders p) (hcheck : check p.toValue = .ok ()) :
    check q.toValue = .ok () ∧ ∀ tools context,
      ((∃ g, q.expand tools context = .ok g) ↔ ∃ g, p.expand tools context = .ok g) ∧
      ∀ g g', p.expand tools context = .ok g → q.expand tools context = .ok g' →
        g'.nodes.Perm g.nodes := by
  have hcheckq := h.check_toValue hcheck
  refine ⟨hcheckq, ?_⟩
  intro tools context
  constructor
  · constructor
    · rintro ⟨g', hg'⟩
      obtain ⟨g, hg, -⟩ := h.symm.exists_expand hcheckq hg'
      exact ⟨g, hg⟩
    · rintro ⟨g, hg⟩
      obtain ⟨g', hg', -⟩ := h.exists_expand hcheck hg
      exact ⟨g', hg'⟩
  · intro g g' hg hg'
    obtain ⟨g'', hg'', hnodes⟩ := h.exists_expand hcheck hg
    obtain rfl : g' = g'' := Except.ok.inj (hg'.symm.trans hg'')
    exact hnodes

/-- A step that waits for the body of a loop which is only declared behind it. -/
def waitingAhead : Plan where
  version := "1"
  steps := [
    .tool { id := "a", tool := "echo", dependsOn := ["b"] },
    .loop {
      id := "l"
      items := .array [.null]
      binder := "x"
      body := { id := "b", tool := "echo" } }]

/-- The same plan with the loop in front. -/
def waitingBack : Plan := { waitingAhead with steps := waitingAhead.steps.reverse }

/-- Two steps, of which the second waits for the first, in either order. -/
theorem expand_reordered_waitingBack :
    check waitingBack.toValue = .ok () ∧
    ∃ g g', waitingAhead.expand .standard (.object []) = .ok g ∧
      waitingBack.expand .standard (.object []) = .ok g' ∧ g'.nodes.Perm g.nodes := by
  have hreorders : waitingBack.Reorders waitingAhead := ⟨rfl, rfl, List.reverse_perm _⟩
  have hcheck : check waitingAhead.toValue = .ok () := by cbv
  obtain ⟨hcheck', hgraphs⟩ := expand_reordered hreorders hcheck
  obtain ⟨g, hg⟩ := exists_eq_ok_of_isOk (x := waitingAhead.expand .standard (.object [])) (by cbv)
  obtain ⟨g', hg'⟩ := (hgraphs .standard (.object [])).1.2 ⟨g, hg⟩
  exact ⟨hcheck', g, g', hg, hg', (hgraphs .standard (.object [])).2 g g' hg hg'⟩

end Plan

end Wavefront
