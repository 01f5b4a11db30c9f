/-
Work: what a node does in one execution, request by request. Each `await` and each use of the
`SharedContext` in `run_task` is one request.

Work reads the context that all nodes of a run share, writes to it, and calls tools. It says what it
wants and how it goes on with the answer, and nothing else, so whoever answers decides what other
nodes have done to the context in between. Every request is answered at once but a fan-out, whose
calls may take time.

An answer leads to a smaller piece of work, and a fan-out takes finitely many steps: work always
ends.
-/
import Wavefront.Context
import Wavefront.Fanout

set_option autoImplicit false

namespace Wavefront

/-- Work that ends with an `α`. -/
inductive Work (α : Type) where
  | done (a : α)
  /-- Reads the context. -/
  | read (next : Value → Work α)
  /-- Writes to the context. -/
  | write (path : String) (value : Value) (next : Option WriteFault → Work α)
  /-- Calls tools and gathers their results. -/
  | gather (fanout : Fanout) (next : Except Error (List Value) → Work α)

namespace Work

variable {α β : Type}

/-- Goes on with other work. -/
def andThen : Work α → (α → Work β) → Work β
  | done a, f => f a
  | read next, f => read fun v => (next v).andThen f
  | write path value next, f => write path value fun fault => (next fault).andThen f
  | gather fanout next, f => gather fanout fun r => (next r).andThen f

instance : Monad Work where
  pure := done
  bind := andThen

/-! ## Work ends -/

/-- What a turn makes of a piece of work. -/
inductive Less : Work α → Work α → Prop
  | read (next : Value → Work α) (v : Value) : Less (next v) (.read next)
  | write (path : String) (value : Value) (next : Option WriteFault → Work α)
      (fault : Option WriteFault) : Less (next fault) (.write path value next)
  | answer (f : Fanout) (next : Except Error (List Value) → Work α)
      (r : Except Error (List Value)) : Less (next r) (.gather f next)
  | advance {f g : Fanout} (next : Except Error (List Value) → Work α)
      (h : g.weight < f.weight) : Less (.gather g next) (.gather f next)

/-- A fan-out ends if all that can follow it does: it becomes lighter with every step. -/
theorem acc_gather {next : Except Error (List Value) → Work α} (hnext : ∀ r, Acc Less (next r))
    (n : Nat) : ∀ f : Fanout, f.weight = n → Acc Less (gather f next) := by
  induction n using Nat.strongRecOn with
  | ind n ih =>
    intro f hf
    refine Acc.intro _ fun w hw => ?_
    cases hw with
    | answer _ _ r => exact hnext r
    | advance _ h => exact ih _ (hf ▸ h) _ rfl

/-- Every piece of work ends. -/
theorem acc_less (w : Work α) : Acc Less w := by
  induction w with
  | done a => exact Acc.intro _ fun _ h => by cases h
  | read next ih => exact Acc.intro _ fun _ h => by cases h with | read _ v => exact ih v
  | write path value next ih =>
    exact Acc.intro _ fun _ h => by cases h with | write _ _ _ fault => exact ih fault
  | gather f next ih => exact acc_gather ih _ f rfl

end Work

/-! ## Requests -/

/-- Work that may fail. -/
abbrev Action := ExceptT Error Work

namespace Action

/-- The context as it is now: `snapshot`. -/
def context : Action Value := ExceptT.lift (Work.read .done)

/-- The value at a path of the context as it is now, or null: `get`. -/
def valueAt (path : String) : Action Value := do return ((← context).resolve path).getD .null

/-- Writes a value at a path of the context: `set`. -/
def put (path : String) (value : Value) : Action Unit :=
  ExceptT.mk <| Work.write path value fun
    | none => .done (.ok ())
    | some fault => .done (.error (.path fault))

/-- Makes calls side by side, at most `width` at once, and gathers their results in their order. -/
def gather (width : Nat) (calls : List Call) : Action (List Value) :=
  ExceptT.mk (Work.gather (.ofCalls width calls) .done)

/-- Makes one call. -/
def call (c : Call) : Action Value := do return (← gather 1 [c]).headD .null

/-- Does the same for every item of a list, in order. -/
def forEach {α β : Type} (f : α → Action β) : List α → Action (List β)
  | [] => return []
  | a :: rest => do
      let b ← f a
      let bs ← forEach f rest
      return b :: bs

end Action

end Wavefront
