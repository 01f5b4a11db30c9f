/-
Putting the vertices of a finite directed graph in an order that respects its edges, which is what
`topological_order` asks for.

The edges here are those of waiting: a vertex with what it waits for. A traversal goes forward, from
what is waited for to what waits, depth first and each vertex once; a vertex is left when everything
that waits for it has been left. The order is that of leaving, backwards. So of two vertices that do
not wait for each other the one left later comes first, and the order does not depend on anything
but the order of the entries.

The order exists if no vertex waits for itself, directly or through others. A vertex that names
itself is looked for first, among the vertices as they were entered; after that the order itself is
gone through, for every vertex must come behind all that it waits for.
-/
import Wavefront.Digraph.Cycles

set_option autoImplicit false

namespace Wavefront

namespace Digraph

variable {α : Type} [DecidableEq α]

/-- What a vertex waits for, as far as it is in the graph. -/
def awaited (edges : Edges α) (a : α) : List α :=
  ((targets? edges a).getD []).filter fun b => b ∈ edges.map (·.1)

/-- The vertices that wait for a vertex. -/
def waiting (edges : Edges α) (a : α) : List α :=
  (edges.filter fun entry => a ∈ entry.2).map (·.1)

/-! ## The traversal -/

/-- What a traversal has still to do. -/
inductive Visit (α : Type) where
  | enter (a : α)
  | leave (a : α)
deriving DecidableEq

/-- Where a traversal has been; the last vertex comes first in both lists. -/
structure Traversal (α : Type) where
  entered : List α := []
  left : List α := []

/-- The number of entries for vertices that have not been entered. -/
def remaining (edges : Edges α) (t : Traversal α) : Nat := unentered edges t.entered

/-- Does the visits in turn. Entering a vertex puts the vertices that wait for it in front of what
is still to do, and the leaving of the vertex behind them. -/
def traverse (edges : Edges α) : List (Visit α) → Traversal α → Traversal α
  | [], t => t
  | .leave a :: rest, t => traverse edges rest { t with left := a :: t.left }
  | .enter a :: rest, t =>
      if _h : a ∈ t.entered ∨ a ∉ edges.map (·.1) then traverse edges rest t
      else
        traverse edges ((waiting edges a).map .enter ++ .leave a :: rest)
          { t with entered := a :: t.entered }
termination_by visits t => (remaining edges t, visits.length)
decreasing_by
  · exact Prod.Lex.right _ (Nat.lt_succ_self _)
  · exact Prod.Lex.right _ (Nat.lt_succ_self _)
  · refine Prod.Lex.left _ _ ?_
    obtain ⟨hnew, hin⟩ := not_or.1 _h
    obtain ⟨entry, hmem, heq⟩ := List.mem_map.1 (Decidable.not_not.1 hin)
    refine countP_lt_countP (b := entry) ?_ hmem ?_ ?_
    · simp only [List.mem_cons, not_or, decide_eq_true_eq]
      exact fun x hx => hx.2
    · simp [heq]
    · simp [heq, hnew]

/-- The traversal of the whole graph. -/
def traversal (edges : Edges α) : Traversal α := traverse edges (edges.map (.enter ·.1)) {}

/-! ## The order -/

/-- The first vertex in a list that something before it waits for: with `done` before the list. -/
def unmet? (edges : Edges α) (done : List α) : List α → Option α
  | [] => none
  | a :: rest =>
      match (awaited edges a).find? fun b => b ∉ a :: done with
      | some b => some b
      | none => unmet? edges (a :: done) rest

/-- The vertices in an order in which each comes behind all that it waits for, or a vertex on a
circle. This is the answer that `topological_order` rests on. -/
def order (edges : Edges α) : Except α (List α) :=
  let t := traversal edges
  -- a vertex that names itself would not be noticed by its place in the order
  match t.entered.reverse.find? fun a => a ∈ awaited edges a with
  | some a => .error a
  | none =>
      match unmet? edges [] t.left with
      | some a => .error a
      | none => .ok t.left

end Digraph

end Wavefront
