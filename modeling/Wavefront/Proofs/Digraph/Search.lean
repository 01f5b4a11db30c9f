/-
What a search for cycles says when it records none.

A vertex is grounded when no way that starts at it goes on for ever. In a graph that lists all its
edges that is the same as meeting no cycle, and it is the form in which the absence of cycles is
used later on: a grounded vertex carries an induction over everything that it leads to.

The invariant of the search is that every finished vertex is grounded. A vertex becomes finished
when the search has been through its targets, and as long as nothing is recorded each of these was
either finished before or has been finished on the way, never met on the stack. So a search that
records nothing has shown every vertex grounded that it was given.
-/
import Mathlib.Data.List.Nodup
import Mathlib.Logic.Relation
import Wavefront.Digraph.Cycles

set_option autoImplicit false

namespace Wavefront.Digraph

variable {α : Type} [DecidableEq α]

/-- There is an edge from one vertex to another. -/
def Edge (edges : Edges α) (a b : α) : Prop :=
  ∃ targets, targets? edges a = some targets ∧ b ∈ targets

/-- Where no vertex has two entries, the targets of a vertex are those of its entry. -/
theorem targets?_of_mem {edges : Edges α} (hnodup : (edges.map (·.1)).Nodup) {a : α}
    {targets : List α} (h : (a, targets) ∈ edges) : targets? edges a = some targets := by
  have hunique : ∀ entry ∈ edges, entry.1 = a → entry = (a, targets) := fun entry hentry ha =>
    List.inj_on_of_nodup_map hnodup hentry h ha
  have hsome : (edges.find? fun entry => entry.1 = a).isSome :=
    List.find?_isSome.2 ⟨(a, targets), h, decide_eq_true rfl⟩
  obtain ⟨entry, hfind⟩ := Option.isSome_iff_exists.1 hsome
  have ha : entry.1 = a := by simpa using List.find?_some hfind
  rw [targets?, hfind, hunique entry (List.mem_of_find?_eq_some hfind) ha, Option.map_some]

/-- No way along a relation goes on for ever from here. -/
def Grounded {β : Type} (r : β → β → Prop) (a : β) : Prop := Acc (fun b a => r a b) a

section Grounded

variable {β : Type} {r s : β → β → Prop} {a b : β}

theorem grounded_of_forall (h : ∀ b, r a b → Grounded r b) : Grounded r a := Acc.intro a h

theorem Grounded.mono (ha : Grounded r a) (h : ∀ b c, s b c → r b c) : Grounded s a := by
  induction ha with
  | intro a _ ih => exact grounded_of_forall fun b hb => ih b (h a b hb)

/-- Going several steps at once goes on for ever no more than going one at a time. -/
theorem Grounded.transGen (ha : Grounded r a) : Grounded (Relation.TransGen r) a := by
  have h : Acc (Relation.TransGen (Function.swap r)) a := Acc.transGen ha
  refine Subrelation.accessible ?_ h
  intro x y hxy
  exact Relation.transGen_swap.2 hxy

/-- A grounded vertex is on no cycle. -/
theorem Grounded.not_transGen_self (ha : Grounded r a) : ¬ Relation.TransGen r a a := by
  have h := ha.transGen
  clear ha
  induction h with
  | intro a _ ih => exact fun hcycle => ih a hcycle hcycle

end Grounded

/-! ## The search -/

/-- The search through the targets of a vertex. -/
def searchTargets (edges : Edges α) (stack : List α) (a : α) (s : Search α) : Search α :=
  match _ht : targets? edges a with
  | some targets => search edges (a :: stack) targets s
  | none => s

theorem search_nil (edges : Edges α) (stack : List α) (s : Search α) :
    search edges stack [] s = s := by
  rw [search]

theorem search_cons_of_finished {edges : Edges α} {stack rest : List α} {a : α} {s : Search α}
    (h : a ∈ s.finished) : search edges stack (a :: rest) s = search edges stack rest s := by
  rw [search, if_pos h]

/-- A vertex on the stack closes a cycle, and the search goes on behind it. -/
theorem search_cons_of_mem_stack {edges : Edges α} {stack rest : List α} {a : α} {s : Search α}
    (hf : a ∉ s.finished) (h : a ∈ stack) :
    search edges stack (a :: rest) s
      = search edges stack rest { s with cycles := s.cycles ++ [closedBy a stack] } := by
  rw [search, if_neg hf, dif_pos h]

/-- A new vertex is entered: its targets are searched with it on the stack, and then it is finished.
-/
theorem search_cons_of_new {edges : Edges α} {stack rest : List α} {a : α} {s : Search α}
    (hf : a ∉ s.finished) (h : a ∉ stack) :
    search edges stack (a :: rest) s
      = search edges stack rest
          { searchTargets edges stack a s with
            finished := a :: (searchTargets edges stack a s).finished } := by
  rw [search, if_neg hf, dif_neg h]
  rfl

/-- Induction along a search, with the search through targets in one piece. -/
theorem search_induction (edges : Edges α) {motive : List α → List α → Search α → Prop}
    (nil : ∀ stack s, motive stack [] s)
    (finished : ∀ stack a rest s, a ∈ s.finished → motive stack rest s → motive stack (a :: rest) s)
    (onStack : ∀ stack a rest s, a ∉ s.finished → a ∈ stack →
      motive stack rest { s with cycles := s.cycles ++ [closedBy a stack] } →
      motive stack (a :: rest) s)
    (new : ∀ stack a rest s, a ∉ s.finished → a ∉ stack →
      (∀ targets, targets? edges a = some targets → motive (a :: stack) targets s) →
      motive stack rest
        { searchTargets edges stack a s with
          finished := a :: (searchTargets edges stack a s).finished } →
      motive stack (a :: rest) s) (stack list : List α) (s : Search α) : motive stack list s := by
  refine search.induct edges motive nil finished onStack ?_ stack list s
  intro stack a rest s hf hstack s' htargets hrest
  exact new stack a rest s hf hstack htargets hrest

/-- A search only adds to the cycles that have been recorded. -/
theorem prefix_cycles_search (edges : Edges α) (stack list : List α) (s : Search α) :
    s.cycles <+: (search edges stack list s).cycles := by
  induction stack, list, s using search_induction edges with
  | nil stack s =>
    refine ⟨[], ?_⟩
    rw [search_nil, List.append_nil]
  | finished stack a rest s hf ih =>
    rw [search_cons_of_finished hf]
    exact ih
  | onStack stack a rest s hf hstack ih =>
    rw [search_cons_of_mem_stack hf hstack]
    exact (List.prefix_append s.cycles [closedBy a stack]).trans ih
  | new stack a rest s hf hstack ihtargets ih =>
    rw [search_cons_of_new hf hstack]
    -- the search of the targets comes first and only adds cycles as well
    refine List.IsPrefix.trans ?_ ih
    simp only [searchTargets]
    split
    · rename_i targets ht
      exact ihtargets targets ht
    · exact List.prefix_rfl

/-- If a search that started from grounded vertices records nothing, then all vertices that it was
given are grounded, and so are all that it finished. -/
theorem grounded_of_search {edges : Edges α} {stack list : List α} {s : Search α}
    (hs : ∀ a ∈ s.finished, Grounded (Edge edges) a)
    (hnone : (search edges stack list s).cycles = []) :
    (∀ a ∈ (search edges stack list s).finished, Grounded (Edge edges) a)
      ∧ ∀ a ∈ list, Grounded (Edge edges) a := by
  induction stack, list, s using search_induction edges with
  | nil stack s =>
    rw [search_nil]
    exact ⟨hs, fun a ha => absurd ha List.not_mem_nil⟩
  | finished stack a rest s hf ih =>
    rw [search_cons_of_finished hf] at hnone ⊢
    obtain ⟨hfinished, hrest⟩ := ih hs hnone
    exact ⟨hfinished, List.forall_mem_cons.2 ⟨hs a hf, hrest⟩⟩
  | onStack stack a rest s hf hstack ih =>
    -- a vertex on the stack is recorded as a cycle, against the hypothesis
    rw [search_cons_of_mem_stack hf hstack] at hnone
    have hprefix := prefix_cycles_search edges stack rest
      { s with cycles := s.cycles ++ [closedBy a stack] }
    rw [hnone, List.prefix_nil] at hprefix
    simp at hprefix
  | new stack a rest s hf hstack ihtargets ih =>
    rw [search_cons_of_new hf hstack] at hnone ⊢
    have hmiddle : (searchTargets edges stack a s).cycles = [] := by
      have hprefix := prefix_cycles_search edges stack rest
        { searchTargets edges stack a s with
          finished := a :: (searchTargets edges stack a s).finished }
      rwa [hnone, List.prefix_nil] at hprefix
    have htargets : (∀ b ∈ (searchTargets edges stack a s).finished, Grounded (Edge edges) b)
        ∧ ∀ b, Edge edges a b → Grounded (Edge edges) b := by
      simp only [searchTargets] at hmiddle ⊢
      split
      · rename_i targets ht
        rw [ht] at hmiddle
        obtain ⟨hfinished, hall⟩ := ihtargets targets ht hs hmiddle
        refine ⟨hfinished, ?_⟩
        rintro b ⟨targets', ht', hb⟩
        obtain rfl : targets = targets' := Option.some.inj (ht.symm.trans ht')
        exact hall b hb
      · rename_i ht
        refine ⟨hs, ?_⟩
        rintro b ⟨targets, ht', -⟩
        rw [ht] at ht'
        cases ht'
    have ha : Grounded (Edge edges) a := grounded_of_forall htargets.2
    obtain ⟨hfinished, hrest⟩ := ih (List.forall_mem_cons.2 ⟨ha, htargets.1⟩) hnone
    exact ⟨hfinished, List.forall_mem_cons.2 ⟨ha, hrest⟩⟩

/-- If no cycle is met from any of the starts, all starts are grounded. -/
theorem grounded_of_cyclesFrom_eq_nil {edges : Edges α} {starts : List α}
    (h : cyclesFrom edges starts = []) {a : α} (ha : a ∈ starts) : Grounded (Edge edges) a :=
  (grounded_of_search (fun _ hb => absurd hb List.not_mem_nil) h).2 a ha

/-! ## Graphs without cycles -/

/-- If every vertex on the stack leads to every vertex that the search is given, then a recorded
cycle would be one of the graph. -/
theorem cycles_search_of_acyclic {edges : Edges α}
    (hacyclic : ∀ a, ¬ Relation.TransGen (Edge edges) a a) {stack list : List α} {s : Search α}
    (hstack : ∀ a ∈ stack, ∀ b ∈ list, Relation.TransGen (Edge edges) a b) :
    (search edges stack list s).cycles = s.cycles := by
  induction stack, list, s using search_induction edges with
  | nil stack s => rw [search_nil]
  | finished stack a rest s hf ih =>
    rw [search_cons_of_finished hf]
    exact ih fun c hc b hb => hstack c hc b (List.mem_cons_of_mem a hb)
  | onStack stack a rest s hf ha _ =>
    exact absurd (hstack a ha a List.mem_cons_self) (hacyclic a)
  | new stack a rest s hf ha ihtargets ih =>
    have hrest := ih fun c hc b hb => hstack c hc b (List.mem_cons_of_mem a hb)
    rw [search_cons_of_new hf ha, hrest]
    simp only [searchTargets]
    split
    · rename_i targets ht
      -- below `a` the stack is one vertex longer, and that vertex has an edge to each target
      refine ihtargets targets ht fun c hc b hb => ?_
      have hedge : Edge edges a b := ⟨targets, ht, hb⟩
      rcases List.mem_cons.1 hc with rfl | hc
      · exact .single hedge
      · exact (hstack c hc a List.mem_cons_self).tail hedge
    · rfl

/-- Where no vertex leads back to itself, no search records a cycle. -/
theorem cyclesFrom_eq_nil_of_acyclic {edges : Edges α}
    (h : ∀ a, ¬ Relation.TransGen (Edge edges) a a) (starts : List α) :
    cyclesFrom edges starts = [] :=
  cycles_search_of_acyclic h fun _ ha => absurd ha List.not_mem_nil

end Wavefront.Digraph
