/-
What a search for cycles records.

A circuit is a list of vertices that follows edges and comes back to where it began. Whatever the
search records is a circuit: the stack, from its top downwards, goes along edges backwards, and a
vertex on it that is met again closes the part above it. It also lies where the search can get to,
since each vertex that is looked at is a start or a target of one.

The other way round nothing new is needed. A search that records nothing has shown its starts
grounded (see `Wavefront.Proofs.Digraph.Search`), and a grounded vertex leads to no cycle. So
something is recorded if and only if a start leads to a vertex that leads to itself.

`Searches` tells the same search as a derivation, one constructor for each thing that may happen to
a vertex. That there is a derivation for every graph says that the search comes to an end.
-/
import Mathlib.Data.List.Chain
import Wavefront.Proofs.Digraph.Search

set_option autoImplicit false

namespace Wavefront.Digraph

open Relation

variable {α : Type} [DecidableEq α]

/-- A way along edges, of one edge at least, that ends where it began. -/
structure IsCircuit (edges : Edges α) (c : List α) : Prop where
  two_le_length : 2 ≤ c.length
  closed : c.head? = c.getLast?
  follows : c.IsChain (Edge edges)

/-- A vertex that can be got to from one of the starts. -/
def ReachedFrom (edges : Edges α) (starts : List α) (b : α) : Prop :=
  ∃ a ∈ starts, ReflTransGen (Edge edges) a b

/-! ## The search as a derivation -/

/-- How a search through a list of vertices goes, below the vertices on the stack. -/
inductive Searches (edges : Edges α) :
    (stack list : List α) → (before after : Search α) → Prop where
  | nil {stack : List α} {s : Search α} : Searches edges stack [] s s
  /-- A finished vertex is passed over. -/
  | finished {stack rest : List α} {a : α} {s t : Search α} (hf : a ∈ s.finished)
      (hrest : Searches edges stack rest s t) : Searches edges stack (a :: rest) s t
  /-- A vertex on the stack closes a cycle, and the search goes on behind it. -/
  | onStack {stack rest : List α} {a : α} {s t : Search α} (hf : a ∉ s.finished) (ha : a ∈ stack)
      (hrest : Searches edges stack rest { s with cycles := s.cycles ++ [closedBy a stack] } t) :
      Searches edges stack (a :: rest) s t
  /-- Any other vertex is put on the stack, its targets are searched, and it is finished. -/
  | entered {stack rest : List α} {a : α} {s inside t : Search α} (hf : a ∉ s.finished)
      (ha : a ∉ stack)
      (htargets : Searches edges (a :: stack) ((targets? edges a).getD []) s inside)
      (hrest : Searches edges stack rest { inside with finished := a :: inside.finished } t) :
      Searches edges stack (a :: rest) s t

/-- The search below a vertex is a search from its targets; a vertex that has none is through with
at once. -/
theorem searchTargets_eq (edges : Edges α) (stack : List α) (a : α) (s : Search α) :
    searchTargets edges stack a s = search edges (a :: stack) ((targets? edges a).getD []) s := by
  simp only [searchTargets]
  split
  · next targets ht => rw [ht, Option.getD_some]
  · next ht => rw [ht, Option.getD_none, search_nil]

/-- Every search comes to an end. -/
theorem searches_search (edges : Edges α) (stack list : List α) (s : Search α) :
    Searches edges stack list s (search edges stack list s) := by
  -- the cases of the search are the constructors of the relation, one for one
  induction stack, list, s using search_induction edges with
  | nil stack s =>
    rw [search_nil]
    exact .nil
  | finished stack a rest s hf ih =>
    rw [search_cons_of_finished hf]
    exact .finished hf ih
  | onStack stack a rest s hf ha ih =>
    rw [search_cons_of_mem_stack hf ha]
    exact .onStack hf ha ih
  | new stack a rest s hf ha ihtargets ih =>
    rw [search_cons_of_new hf ha]
    refine .entered hf ha ?_ ih
    rw [searchTargets_eq]
    cases ht : targets? edges a with
    | none =>
      rw [Option.getD_none, search_nil]
      exact .nil
    | some targets => exact ihtargets targets ht

/-! ## What is recorded -/

section Recorded

variable {edges : Edges α} {starts stack : List α} {a b : α}

/-- A vertex that the search looks at: it can be got to from the starts, and the stack is the way to
it, backwards from its top. -/
structure LookedAt (edges : Edges α) (starts stack : List α) (b : α) : Prop where
  reached : ReachedFrom edges starts b
  way : (b :: stack).IsChain fun b a => Edge edges a b

theorem lookedAt_start (ha : a ∈ starts) : LookedAt edges starts [] a where
  reached := ⟨a, ha, .refl⟩
  way := List.isChain_singleton a

/-- From a vertex that is looked at the search goes on to its targets. -/
theorem LookedAt.target (h : LookedAt edges starts stack a) (hedge : Edge edges a b) :
    LookedAt edges starts (a :: stack) b where
  reached := by
    obtain ⟨start, hstart, hreach⟩ := h.reached
    exact ⟨start, hstart, hreach.tail hedge⟩
  way := List.isChain_cons_cons.2 ⟨hedge, h.way⟩

/-- The cycle that a vertex closes, from what stands above the vertex on the stack. -/
theorem closedBy_append {front rest : List α} (ha : a ∉ front) :
    closedBy a (front ++ a :: rest) = (a :: (front ++ [a])).reverse := by
  have hfront : ∀ b ∈ front, (decide (b ≠ a)) = true := fun b hb =>
    decide_eq_true fun heq => ha (heq ▸ hb)
  have htake : (front ++ a :: rest).takeWhile (· ≠ a) = front := by
    rw [List.takeWhile_append_of_pos hfront, List.takeWhile_cons_of_neg (by simp), List.append_nil]
  rw [closedBy, htake, List.reverse_cons, List.reverse_append, List.reverse_singleton,
    List.singleton_append]

/-- A vertex on the stack that is looked at again closes a circuit. -/
theorem LookedAt.isCircuit (h : LookedAt edges starts stack a) (ha : a ∈ stack) :
    IsCircuit edges (closedBy a stack) := by
  obtain ⟨front, rest, rfl, hfront⟩ := List.eq_append_cons_of_mem ha
  rw [closedBy_append hfront]
  -- the circuit is the top of the stack, read upwards
  have hway : (a :: (front ++ [a])).IsChain fun b a => Edge edges a b :=
    List.IsChain.prefix h.way ⟨rest, by simp⟩
  refine ⟨by simp, ?_, List.isChain_reverse.2 hway⟩
  rw [List.head?_reverse, List.getLast?_reverse, ← List.cons_append, List.getLast?_concat]
  rfl

/-- What is recorded below vertices that are looked at are circuits, each through a vertex that can
be got to from the starts. -/
theorem circuits_search {list : List α} {s : Search α}
    (hlist : ∀ b ∈ list, LookedAt edges starts stack b) :
    ∀ c ∈ (search edges stack list s).cycles, c ∈ s.cycles ∨
      IsCircuit edges c ∧ ∃ a, c.head? = some a ∧ ReachedFrom edges starts a := by
  -- carried along: whatever is still to be looked at was reached from a start, and so was the stack
  induction stack, list, s using search_induction edges with
  | nil stack s =>
    rw [search_nil]
    exact fun c hc => .inl hc
  | finished stack a rest s hf ih =>
    rw [search_cons_of_finished hf]
    exact ih (List.forall_mem_cons.1 hlist).2
  | onStack stack a rest s hf ha ih =>
    rw [search_cons_of_mem_stack hf ha]
    obtain ⟨hlooked, hrest⟩ := List.forall_mem_cons.1 hlist
    intro c hc
    rcases ih hrest c hc with hold | hnew
    · rcases List.mem_append.1 hold with hold | hclosed
      · exact .inl hold
      -- the one new cycle is what the vertex on the stack closes
      · obtain rfl := List.mem_singleton.1 hclosed
        exact .inr ⟨hlooked.isCircuit ha, a, rfl, hlooked.reached⟩
    · exact .inr hnew
  | new stack a rest s hf ha ihtargets ih =>
    rw [search_cons_of_new hf ha]
    obtain ⟨hlooked, hrest⟩ := List.forall_mem_cons.1 hlist
    intro c hc
    rcases ih hrest c hc with hinside | hnew
    · simp only [searchTargets] at hinside
      split at hinside
      · next targets ht =>
        exact ihtargets targets ht (fun b hb => hlooked.target ⟨targets, ht, hb⟩) c hinside
      · exact .inl hinside
    · exact .inr hnew

/-- A vertex at which a circuit begins leads to itself. -/
theorem IsCircuit.transGen {c : List α} (h : IsCircuit edges c) (ha : c.head? = some a) :
    TransGen (Edge edges) a a := by
  obtain ⟨hlength, hclosed, hfollows⟩ := h
  match c, hlength with
  | first :: second :: rest, _ =>
    obtain rfl := Option.some.inj ha
    obtain ⟨hedge, hchain⟩ := List.isChain_cons_cons.1 hfollows
    have hlast : (second :: rest).getLast (List.cons_ne_nil _ _) = first := by
      rw [List.head?_cons, List.getLast?_cons_cons, List.getLast?_eq_some_getLast] at hclosed
      exact (Option.some.inj hclosed).symm
    exact .head' hedge (List.relationReflTransGen_of_exists_isChain_cons rest hchain hlast)

end Recorded

/-! ## All that is recorded and nothing else -/

/-- What can be got to from a grounded vertex is grounded. -/
theorem Grounded.of_reflTransGen {β : Type} {r : β → β → Prop} {a b : β} (ha : Grounded r a)
    (h : ReflTransGen r a b) : Grounded r b := by
  induction h with
  | refl => exact ha
  | tail _ hstep ih => exact Acc.inv ih hstep

/-- From every list of starts the search for cycles comes to an end. It records a cycle if and only
if a start leads to a vertex that lies on one, and all that it records are circuits. -/
theorem cyclesFrom_exact (edges : Edges α) (starts : List α) :
    (∃ s, Searches edges [] starts {} s ∧ s.cycles = cyclesFrom edges starts) ∧
    (cyclesFrom edges starts ≠ [] ↔
      ∃ a ∈ starts, ∃ b, ReflTransGen (Edge edges) a b ∧ TransGen (Edge edges) b b) ∧
    ∀ c ∈ cyclesFrom edges starts, IsCircuit edges c := by
  have hrecorded : ∀ c ∈ cyclesFrom edges starts, IsCircuit edges c ∧
      ∃ a, c.head? = some a ∧ ReachedFrom edges starts a := fun c hc =>
    (circuits_search (fun b hb => lookedAt_start hb) c hc).resolve_left List.not_mem_nil
  refine ⟨⟨_, searches_search edges [] starts {}, rfl⟩, ⟨?_, ?_⟩, fun c hc => (hrecorded c hc).1⟩
  · intro hne
    obtain ⟨c, hc⟩ := List.exists_mem_of_ne_nil _ hne
    obtain ⟨hcircuit, b, hb, a, ha, hreach⟩ := hrecorded c hc
    exact ⟨a, ha, b, hreach, hcircuit.transGen hb⟩
  · rintro ⟨a, ha, b, hreach, hcycle⟩ hnone
    have hgrounded := (grounded_of_cyclesFrom_eq_nil hnone ha).of_reflTransGen hreach
    exact hgrounded.not_transGen_self hcycle

-- the search goes on behind a cycle, and what one start has finished no later one enters
example : cyclesFrom [(1, [2]), (2, [1, 3]), (3, [3])] [1, 3] = [[1, 2, 1], [3, 3]] := by cbv

end Wavefront.Digraph
