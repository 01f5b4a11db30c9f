/-
A task that succeeds has written its result at its target.

What a task does before that differs from kind to kind: a conditional carries out a whole branch.
But every task ends in one of two ways, with an error, or with the write of its result that passes.
So when a task has succeeded, its last turn is that write, and what is read at its target from then
on is the result until somebody else writes there.
-/
import Wavefront.Proofs.Run.Leftover

set_option autoImplicit false

namespace Wavefront

namespace Work

/-- Work that ends with a value only by writing it at the path. -/
def Concludes (path : String) : Work (Except Error Value) → Prop
  | .done r => ∃ e, r = .error e
  | .read next => ∀ c, (next c).Concludes path
  | .write at' value next =>
      (∀ fault, (next fault).Concludes path) ∨
        at' = path ∧ next none = .done (.ok value) ∧
          ∀ fault, ∃ e, next (some fault) = .done (.error e)
  | .gather _ next => ∀ r, (next r).Concludes path

variable {path : String}

/-- How work goes on after other work decides how it ends. -/
theorem Concludes.andThen {α : Type} {f : α → Work (Except Error Value)}
    (hf : ∀ a, (f a).Concludes path) (w : Work α) : (w.andThen f).Concludes path := by
  induction w with
  | done a => exact hf a
  | read next ih => exact ih
  | write at' value next ih => exact .inl ih
  | gather g next ih => exact ih

/-- The turn wrote the value at the path, and nothing stopped it. -/
def Wrote (path : String) (value : Value) (d : Deed) : Prop :=
  d.left.context = (d.found.context.set path value).tree ∧
    (d.found.context.set path value).fault = none

variable [Schema.Validator]

/-- A turn goes on to other such work, or it is the write that the work ends with. -/
theorem Concludes.goes {w v : Work (Except Error Value)} {d : Option Deed}
    (h : w.Concludes path) (hgoes : w.Goes d v) :
    v.Concludes path ∨ ∃ e value, d = some e ∧ v = .done (.ok value) ∧ Wrote path value e := by
  cases w with
  | done r => exact hgoes.of_done.elim
  | read next =>
    obtain ⟨world, rfl, rfl⟩ := hgoes.of_read
    exact .inl (h world.context)
  | gather f next =>
    rcases hgoes.of_gather with ⟨g, -, rfl⟩ | ⟨r, world, -, rfl, rfl⟩
    · exact .inl h
    · exact .inl (h r)
  -- a write on the way leads to work that concludes, the last one concludes itself
  | write at' value next =>
    obtain ⟨world, rfl, rfl⟩ := hgoes.of_write
    rcases h with hnext | ⟨rfl, hok, herror⟩
    · exact .inl (hnext _)
    · cases hfault : (world.context.set at' value).fault with
      | none => exact .inr ⟨_, value, rfl, hok, rfl, hfault⟩
      | some fault =>
        obtain ⟨e, he⟩ := herror fault
        rw [he]
        exact .inl ⟨e, rfl⟩

/-- A performance that ends with a value has written it at its last turn. -/
theorem Concludes.performs {w : Work (Except Error Value)} {ds : List Deed} {v : Value}
    (h : w.Concludes path) (hperforms : w.Performs ds (.done (.ok v))) :
    ∃ earlier last, ds = earlier ++ [last] ∧ Wrote path v last := by
  generalize hend : (Work.done (.ok v) : Work (Except Error Value)) = u at hperforms
  induction hperforms with
  | refl _ =>
    -- work that has ended has ended with an error
    subst hend
    obtain ⟨e, he⟩ := h
    cases he
  | @head _ _ _ d ds hgoes hrest ih =>
    subst hend
    rcases h.goes hgoes with hnext | ⟨e, value, rfl, rfl, hwrote⟩
    · obtain ⟨earlier, last, rfl, hlast⟩ := ih hnext rfl
      exact ⟨d.toList ++ earlier, last, (List.append_assoc ..).symm, hlast⟩
    · obtain ⟨rfl, hdone⟩ := Performs.of_done hrest
      obtain rfl := Except.ok.inj (Work.done.inj hdone)
      exact ⟨[], e, rfl, hwrote⟩

end Work

namespace Action

variable {α : Type} {path : String}

/-- What comes before matters nothing, as long as the rest concludes. -/
theorem concludes_bind {x : Action α} {g : α → Action Value}
    (hg : ∀ a, (g a).run.Concludes path) : (x >>= g).run.Concludes path := by
  refine Work.Concludes.andThen (fun r => ?_) x.run
  cases r with
  | ok a => exact hg a
  | error e => exact ⟨e, rfl⟩

theorem concludes_conclude (target : String) (result : Value) :
    (conclude target result).run.Concludes target :=
  .inr ⟨rfl, rfl, fun fault => ⟨.path fault, rfl⟩⟩

end Action

namespace Task

open Wavefront.Action

/-- Every task ends with a value only by writing it at its target. -/
theorem concludes_work (t : Task) (s : Settings) (node : String) :
    (t.work s node).run.Concludes t.target := by
  cases t with
  | toolCall tool input target binding =>
    exact concludes_bind fun _ => concludes_bind fun result => concludes_conclude target result
  | aggregate gathering target =>
    exact concludes_bind fun result => concludes_conclude target result
  | dynamicLoop step tool =>
    exact concludes_bind fun _ => concludes_bind fun _ => concludes_bind fun results =>
      concludes_conclude step.outputKey (.array results)
  | reduce step tool =>
    exact concludes_bind fun _ => concludes_bind fun _ => concludes_bind fun results =>
      concludes_conclude step.output (.array results)
  | conditional shell condition yes no =>
    refine concludes_bind fun context => ?_
    cases Condition.evaluate context condition with
    -- a condition that fails is an end with an error
    | error fault => exact ⟨.condition fault, rfl⟩
    | ok holds => exact concludes_bind fun outputs => concludes_conclude _ _

/-- When an execution of a task ends with a value, its last turn leaves a context in which that
value is read at the target. -/
theorem resolve_target_of_ok [Schema.Validator] {t : Task} {s : Settings} {node : String}
    {ds : List Deed} {v : Value}
    (h : (t.work s node).run.Performs ds (.done (.ok v))) :
    ∃ earlier last, ds = earlier ++ [last] ∧ last.left.context.resolve t.target = some v := by
  obtain ⟨earlier, last, rfl, hleft, hfault⟩ := (t.concludes_work s node).performs h
  refine ⟨earlier, last, rfl, ?_⟩
  rw [hleft]
  exact Value.resolve_set_self hfault

end Task

end Wavefront
