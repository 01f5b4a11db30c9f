/-
What an execution that fails leaves behind.

All tasks but conditionals write once, when everything else has been done, and end with that write.
If one of them fails before, it has written nothing, and whatever it fails with, nothing of a result
is written. But a write goes in place: where it stops at an index beyond the limit, it has by then
put an empty array in front of the index, unless an array stood there already. That is the one mark
that a failed execution of such a task can leave.

A conditional is left out. Its branch writes before it does, so it may fail when much has been
written.
-/
import Wavefront.Proofs.Run.Performance
import Wavefront.Proofs.Value.Frame
import Wavefront.Schema.Reader

set_option autoImplicit false

namespace Wavefront

namespace Work

variable {α : Type}

/-- Work that writes nothing. -/
def Silent : Work α → Prop
  | .done _ => True
  | .read next => ∀ c, (next c).Silent
  | .write _ _ _ => False
  | .gather _ next => ∀ r, (next r).Silent

/-- Work that writes at the path and nowhere else, if it writes at all, and ends with that write: in
a value if the write passed, and in the error of the write if it stopped. -/
def WritesLast (path : String) : Work (Except Error Value) → Prop
  | .done _ => True
  | .read next => ∀ c, (next c).WritesLast path
  | .write at' _ next => at' = path ∧ (∃ v, next none = .done (.ok v)) ∧
      ∀ fault, next (some fault) = .done (.error (.path fault))
  | .gather _ next => ∀ r, (next r).WritesLast path

variable {path : String}

/-- Silent work followed by silent work is silent. -/
theorem Silent.andThen {β : Type} {w : Work α} (hw : w.Silent) {f : α → Work β}
    (hf : ∀ a, (f a).Silent) : (w.andThen f).Silent := by
  induction w with
  | done a => exact hf a
  | read next ih => exact fun c => ih c (hw c)
  | write at' value next _ => exact hw.elim
  | gather g next ih => exact fun r => ih r (hw r)

/-- Silent work may come before work that writes last. -/
theorem Silent.writesLast_andThen {w : Work α} (hw : w.Silent)
    {f : α → Work (Except Error Value)} (hf : ∀ a, (f a).WritesLast path) :
    (w.andThen f).WritesLast path := by
  induction w with
  | done a => exact hf a
  | read next ih => exact fun c => ih c (hw c)
  | write at' value next _ => exact hw.elim
  | gather g next ih => exact fun r => ih r (hw r)

/-! ## The last turn -/

/-- The turn wrote a value at the path, and this is how the work ended with it. -/
def WroteLast (path : String) (d : Deed) (r : Except Error Value) : Prop :=
  ∃ value, d.left.context = (d.found.context.set path value).tree ∧
    ∀ e, r = .error e → ∃ fault, (d.found.context.set path value).fault = some fault ∧ e = .path fault

variable [Schema.Validator]

/-- A turn spares the context, or it is the write that the work ends with. -/
theorem WritesLast.goes {w v : Work (Except Error Value)} {d : Option Deed}
    (h : w.WritesLast path) (hgoes : w.Goes d v) : (v.WritesLast path ∧ ∀ e ∈ d, e.Spares) ∨
      ∃ e r, d = some e ∧ v = .done r ∧ WroteLast path e r := by
  have hspares : ∀ world : World, ∀ e ∈ some (Deed.mk world world none), e.Spares :=
    fun _ e he => Option.some.inj he ▸ rfl
  cases w with
  | done r => exact hgoes.of_done.elim
  | read next =>
    obtain ⟨world, rfl, rfl⟩ := hgoes.of_read
    exact .inl ⟨h world.context, hspares world⟩
  | gather f next =>
    rcases hgoes.of_gather with ⟨g, hg, rfl⟩ | ⟨r, world, -, rfl, rfl⟩
    · exact .inl ⟨h, hg.spares⟩
    · exact .inl ⟨h r, hspares world⟩
  -- this is the last turn, whether the write passes or stops
  | write at' value next =>
    obtain ⟨rfl, ⟨v, hok⟩, herror⟩ := h
    obtain ⟨world, rfl, rfl⟩ := hgoes.of_write
    cases hfault : (world.context.set at' value).fault with
    | none => exact .inr ⟨_, .ok v, rfl, hok, value, rfl, fun e he => by cases he⟩
    | some fault =>
      refine .inr ⟨_, .error (.path fault), rfl, herror fault, value, rfl, fun e he => ?_⟩
      exact ⟨fault, hfault, (Except.error.inj he).symm⟩

/-- A performance spares the context at all turns, or at all but the last. -/
theorem WritesLast.performs {w : Work (Except Error Value)} {ds : List Deed}
    {r : Except Error Value} (h : w.WritesLast path) (hperforms : w.Performs ds (.done r)) :
    (∀ d ∈ ds, d.Spares) ∨ ∃ earlier last, ds = earlier ++ [last] ∧ (∀ d ∈ earlier, d.Spares) ∧
      WroteLast path last r := by
  generalize hv : Work.done r = v at hperforms
  induction hperforms with
  | refl _ => exact .inl fun _ hd => absurd hd List.not_mem_nil
  | @head _ _ _ d ds hgoes hrest ih =>
    subst hv
    rcases h.goes hgoes with ⟨hnext, hspares⟩ | ⟨e, r', rfl, rfl, hlast⟩
    · have hfirst : ∀ e ∈ d.toList, e.Spares := fun e he => hspares e (Option.mem_toList.1 he)
      rcases ih hnext rfl with hall | ⟨earlier, last, rfl, hearlier, hlast⟩
      · exact .inl (List.forall_mem_append.2 ⟨hfirst, hall⟩)
      · refine .inr ⟨d.toList ++ earlier, last, (List.append_assoc ..).symm, ?_, hlast⟩
        exact List.forall_mem_append.2 ⟨hfirst, hearlier⟩
    · -- the work has ended, so nothing comes behind this turn
      obtain ⟨rfl, hdone⟩ := Performs.of_done hrest
      obtain rfl := Work.done.inj hdone
      exact .inr ⟨[], e, rfl, fun _ hd => absurd hd List.not_mem_nil, hlast⟩

end Work

/-! ## Tasks -/

namespace Action

variable {α β : Type} {x : Action α} {path : String}

/-- Silent actions in a row are silent. -/
theorem silent_bind {g : α → Action β} (hx : x.run.Silent) (hg : ∀ a, (g a).run.Silent) :
    (x >>= g).run.Silent := by
  refine Work.Silent.andThen hx fun r => ?_
  cases r with
  | ok a => exact hg a
  | error e => exact trivial

/-- A silent action may come before one that writes last. -/
theorem writesLast_bind {g : α → Action Value} (hx : x.run.Silent)
    (hg : ∀ a, (g a).run.WritesLast path) : (x >>= g).run.WritesLast path := by
  refine Work.Silent.writesLast_andThen hx fun r => ?_
  cases r with
  | ok a => exact hg a
  | error e => exact trivial

theorem silent_context : context.run.Silent := fun _ => trivial

theorem silent_ofExcept (r : Except Error α) : (MonadExcept.ofExcept r : Action α).run.Silent := by
  cases r <;> exact trivial

theorem silent_gather (width : Nat) (calls : List Call) : (gather width calls).run.Silent :=
  fun _ => trivial

theorem silent_call (c : Call) : (call c).run.Silent :=
  silent_bind (silent_gather 1 [c]) fun _ => trivial

theorem silent_valueAt (path : String) : (valueAt path).run.Silent :=
  silent_bind silent_context fun _ => trivial

/-- A sequence of silent actions is silent. -/
theorem silent_forEach {h : α → Action β} (hh : ∀ a, (h a).run.Silent) (as : List α) :
    (forEach h as).run.Silent := by
  induction as with
  | nil => exact trivial
  | cons a as ih => exact silent_bind (hh a) fun b => silent_bind ih fun bs => trivial

/-- Collecting results from the context writes nothing. -/
theorem silent_collect (gathering : Gathering) : gathering.collect.run.Silent := by
  cases gathering with
  | list paths => exact silent_bind (silent_forEach silent_valueAt paths) fun _ => trivial
  | map entries =>
    refine silent_bind (silent_forEach (fun entry => ?_) entries) fun _ => trivial
    exact silent_bind (silent_valueAt entry.2) fun _ => trivial

theorem writesLast_conclude (target : String) (result : Value) :
    (conclude target result).run.WritesLast target := ⟨rfl, ⟨result, rfl⟩, fun _ => rfl⟩

end Action

namespace Task

open Wavefront.Action

variable {t : Task} {s : Settings} {node : String}

/-- A task that is no conditional writes at its target only, and ends with that. -/
theorem writesLast_work (ht : t.isConditional = false) (s : Settings) (node : String) :
    (t.work s node).run.WritesLast t.target := by
  cases t with
  | toolCall tool input target binding =>
    exact writesLast_bind silent_context fun _ =>
      writesLast_bind (silent_call _) fun result => writesLast_conclude target result
  | aggregate gathering target =>
    exact writesLast_bind (silent_collect gathering) fun result => writesLast_conclude target result
  | dynamicLoop step tool =>
    exact writesLast_bind silent_context fun _ => writesLast_bind (silent_ofExcept _) fun _ =>
      writesLast_bind (silent_gather _ _) fun results =>
        writesLast_conclude step.outputKey (.array results)
  | reduce step tool =>
    exact writesLast_bind silent_context fun _ => writesLast_bind (silent_ofExcept _) fun _ =>
      writesLast_bind (silent_gather _ _) fun results =>
        writesLast_conclude step.output (.array results)
  | conditional _ _ _ _ => cases ht

/-- An execution of a task that is no conditional, if it fails, leaves the context as it was,
whatever its tool does and whatever others do in between; or else its last turn has put an empty
array in front of an index of its target that no write makes, where no array stood, and failed with
that index. -/
theorem spares_of_error [Schema.Validator] (ht : t.isConditional = false) {ds : List Deed}
    {e : Error}
    (h : (t.work s node).run.Performs ds (.done (.error e))) : (∀ d ∈ ds, d.Spares) ∨
      ∃ earlier last i, ds = earlier ++ [last] ∧ (∀ d ∈ earlier, d.Spares) ∧
        e = .path (.indexTooLarge i) ∧ last.found.context.Clears t.target i last.left.context := by
  rcases (writesLast_work ht s node).performs h with
    hall | ⟨earlier, last, rfl, hearlier, value, hleft, hfails⟩
  · exact .inl hall
  · obtain ⟨fault, hfault, rfl⟩ := hfails e rfl
    rcases Value.tree_set_of_fault hfault with hsame | ⟨i, rfl, hclears⟩
    · -- the write stopped, but spared the context like the turns before it
      refine .inl (List.forall_mem_append.2 ⟨hearlier, fun d hd => ?_⟩)
      obtain rfl := List.mem_singleton.1 hd
      exact hleft.trans hsame
    · exact .inr ⟨earlier, last, i, rfl, hearlier, rfl, hleft ▸ hclears⟩

/-- A gathering of nothing that is to be written beyond the limit. -/
def farGathering : Task := .aggregate (.list []) "a[100001]"

/-- Its one turn, where nothing has been written yet. -/
def farDeed : Deed where
  found := Options.world { planId := "p" } (.object []) .dag
  left := Options.world { planId := "p" } (.object [("a", .array [])]) .dag

/-- Writing far beyond the limit is one turn, and fails. -/
theorem performs_farGathering [Schema.Validator] : (farGathering.work {} "n").run.Performs [farDeed]
    (.done (.error (.path (.indexTooLarge 100001)))) := by
  have hturn : (farGathering.work {} "n").run.turn 0 0 farDeed.found []
      = some ⟨farDeed.left, [], .on (.done (.error (.path (.indexTooLarge 100001))))⟩ := by rfl
  exact .head (Work.Goes.acts hturn rfl) (.refl _)

/-- The execution fails, and the context is not what it was before. -/
theorem farGathering_leaves_mark : ∃ d e, (farGathering.work {} "n").run.Performs [d] (.done (.error e)) ∧
    d.found.context = .object [] ∧ d.left.context = .object [("a", .array [])] :=
  ⟨farDeed, _, performs_farGathering, rfl, rfl⟩

/-- The one turn of the gathering leaves the mark of the index that it could not write. -/
theorem spares_of_error_farGathering :
    (farGathering.work {} "n").run.Performs [farDeed] (.done (.error (.path (.indexTooLarge 100001)))) ∧
    farDeed.found.context.Clears "a[100001]" 100001 farDeed.left.context := by
  refine ⟨performs_farGathering, ?_⟩
  rcases spares_of_error rfl performs_farGathering with hall | ⟨earlier, last, i, hds, -, he, hclears⟩
  · have hsame := hall farDeed (List.mem_singleton.2 rfl)
    cases hsame
  · cases he
    have hlast := congrArg List.getLast? hds
    rw [List.getLast?_concat] at hlast
    obtain rfl : farDeed = last := Option.some.inj hlast
    exact hclears

end Task

end Wavefront
