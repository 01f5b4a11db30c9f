/-
Finding cycles in a finite directed graph, by the search of `find_cycles`.

The search goes depth first through the vertices that it is given, with the way from the start to
the current vertex on a stack. A vertex on the stack closes a cycle, which is recorded; the search
goes on all the same. A vertex is finished when the search has been through all its targets, and is
not entered again, from whatever start.

A vertex is entered only if it has targets and is not on the stack, so each step down leaves fewer
vertices to enter: that is the measure. `find_cycles` keeps a stack of its own for the vertices that
are still to be looked at; here the recursion does that.
-/

set_option autoImplicit false

namespace Wavefront

namespace Digraph

variable {α : Type} [DecidableEq α]

/-- The targets of the edges of each vertex. Of two entries for a vertex the first counts. -/
abbrev Edges (α : Type) := List (α × List α)

/-- The targets of a vertex that has an entry. -/
def targets? (edges : Edges α) (a : α) : Option (List α) :=
  (edges.find? fun entry => entry.1 = a).map (·.2)

/-- What a search has come to: the vertices it is through with and the cycles it has met, as
`find_cycles` keeps them. -/
structure Search (α : Type) where
  finished : List α := []
  /-- The cycles, each from its first vertex to the same vertex again. -/
  cycles : List (List α) := []

/-- The cycle that a vertex on the stack closes; the top of the stack comes first. -/
def closedBy (a : α) (stack : List α) : List α :=
  a :: (stack.takeWhile (· ≠ a)).reverse ++ [a]

/-- The number of entries for vertices that are not on the stack, which falls with every vertex that
is entered. -/
def unentered (edges : Edges α) (stack : List α) : Nat :=
  edges.countP fun entry => entry.1 ∉ stack

/-- A count that loses a member is smaller. -/
theorem countP_lt_countP {β : Type} {p q : β → Bool} {l : List β} {b : β}
    (hpq : ∀ x, p x = true → q x = true) (hb : b ∈ l) (hp : p b = false) (hq : q b = true) :
    l.countP p < l.countP q := by
  induction l with
  | nil => simp at hb
  | cons x l ih =>
    have hle : l.countP p ≤ l.countP q := List.countP_mono_left fun y _ hy => hpq y hy
    rcases List.mem_cons.1 hb with rfl | hb
    · simp only [List.countP_cons, hp, hq]
      simp only [Bool.false_eq_true, if_false, if_true]
      omega
    · have := ih hb
      simp only [List.countP_cons]
      by_cases hx : p x = true
      · rw [if_pos hx, if_pos (hpq x hx)]
        omega
      · rw [if_neg hx]
        omega

/-- Entering a vertex with targets leaves fewer to enter. -/
theorem unentered_cons_lt {edges : Edges α} {stack targets : List α} {a : α}
    (ha : a ∉ stack) (h : targets? edges a = some targets) :
    unentered edges (a :: stack) < unentered edges stack := by
  obtain ⟨entry, hfind, -⟩ := Option.map_eq_some_iff.1 h
  have hentry : entry.1 = a := by simpa using List.find?_some hfind
  refine countP_lt_countP (b := entry) ?_ (List.mem_of_find?_eq_some hfind) ?_ ?_
  · simp only [List.mem_cons, not_or, decide_eq_true_eq]
    exact fun x hx => hx.2
  · simp [hentry]
  · simp [hentry, ha]

/-- Searches from each of the given vertices in turn, below the vertices on the stack. -/
def search (edges : Edges α) (stack : List α) : List α → Search α → Search α
  | [], s => s
  | a :: rest, s =>
      if a ∈ s.finished then search edges stack rest s
      else if _h : a ∈ stack then
        search edges stack rest { s with cycles := s.cycles ++ [closedBy a stack] }
      else
        -- a vertex without an entry has no targets and is finished at once
        let s := match _ht : targets? edges a with
          | some targets => search edges (a :: stack) targets s
          | none => s
        search edges stack rest { s with finished := a :: s.finished }
termination_by list => (unentered edges stack, list.length)
decreasing_by
  · exact Prod.Lex.right _ (Nat.lt_succ_self _)
  · exact Prod.Lex.right _ (Nat.lt_succ_self _)
  · exact Prod.Lex.left _ _ (unentered_cons_lt _h _ht)
  · exact Prod.Lex.right _ (Nat.lt_succ_self _)

/-- The cycles that are met from the given vertices, one start after the other: `find_cycles`. -/
def cyclesFrom (edges : Edges α) (starts : List α) : List (List α) :=
  (search edges [] starts {}).cycles

end Digraph

end Wavefront
