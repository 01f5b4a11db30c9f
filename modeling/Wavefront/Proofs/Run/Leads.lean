/-
Work that is under way: the contexts at its turns, and the calls that it makes.

Work goes on by turns, and what a turn leads to depends on nothing but the context that is there and
on what calls come to. So a piece of work that is under way is told by the work that it began as and
the contexts at its turns so far. `Work.Leads` says that one comes from the other that way. A
fan-out that is under way is what is left of the calls that it began with, whichever of them have
ended.

Two things follow for the tasks. A task that calls tools by itself makes all of its calls in the
context at its first turn. The calls of a conditional are those of one of the works of the branch
that it chose in that context, when all works before it have ended.
-/
import Wavefront.Proofs.Run.Yield

set_option autoImplicit false

namespace Wavefront

/-! ## What is left of a fan-out -/

namespace Fanout

/-- The calls whose results have not been collected, in their order. -/
def calls (f : Fanout) : List Call := f.held.map Held.call ++ f.untaken

/-- The fan-out is what is left of some calls when the results of the first have been collected. -/
def Leaves (f : Fanout) (calls : List Call) : Prop := f.calls = calls.drop f.results.length

/-- Filling places moves calls from those that wait to those that are held. -/
theorem calls_fill (f : Fanout) : f.fill.calls = f.calls := by
  rw [calls, fill, List.map_append, List.map_map, List.append_assoc]
  have hfresh : (f.untaken.take (f.width - f.held.length)).map
      (Held.call ∘ fun call => { call := call }) = f.untaken.take (f.width - f.held.length) :=
    List.map_id _
  rw [hfresh, List.take_append_drop, calls]

theorem leaves_ofCalls (width : Nat) (calls : List Call) : (ofCalls width calls).Leaves calls :=
  calls_fill _

variable {f : Fanout} {calls : List Call}

/-- Collecting the result of the first call that is held leaves the others. -/
theorem Leaves.collect (h : f.Leaves calls) {v : Value} (hn : f.next = .collect v) :
    (f.collect v).Leaves calls := by
  obtain ⟨call, rest, hheld⟩ := oldest_of_collect hn
  have hlength : (f.collect v).results.length = f.results.length + 1 := List.length_append
  rw [Leaves, Fanout.calls, hheld] at h
  rw [Leaves, hlength, Fanout.collect, calls_fill, Fanout.calls, hheld, ← List.tail_drop, ← h]
  rfl

/-- Nothing but the stages of held calls changes. -/
theorem Leaves.modify (h : f.Leaves calls) (place : Nat) (stage : Stage → Stage) :
    Leaves { f with held := f.held.modify place fun a => { a with stage := stage a.stage } }
      calls := by
  have hcalls : (f.held.modify place fun a => { a with stage := stage a.stage }).map Held.call
      = f.held.map Held.call := by
    refine List.ext_getElem? fun i => ?_
    rw [List.getElem?_map, List.getElem?_map, List.getElem?_modify]
    cases f.held[i]? with
    | none => rfl
    | some a => split <;> rfl
  -- what is left is told by the calls alone, whatever their stages
  rw [Leaves, Fanout.calls] at h ⊢
  rw [hcalls]
  exact h

theorem Leaves.setStage (h : f.Leaves calls) (place : Nat) (stage : Stage) :
    (f.setStage place stage).Leaves calls :=
  h.modify place fun _ => stage

theorem Leaves.wake (h : f.Leaves calls) (number : Nat) : (f.wake number).Leaves calls :=
  h.modify _ Stage.wake

end Fanout

/-! ## Turns of work -/

namespace Work

variable {α β : Type}

/-- What a turn in a context can make of work. -/
inductive Step (c : Value) : Work α → Work α → Prop
  | read (next : Value → Work α) : Step c (.read next) (next c)
  | write (path : String) (value : Value) (next : Option WriteFault → Work α) :
      Step c (.write path value next) (next (c.set path value).fault)
  /-- Some call goes on, or its result is collected. -/
  | advance {f f' : Fanout} (next : Except Error (List Value) → Work α)
      (h : ∀ calls, f.Leaves calls → f'.Leaves calls) : Step c (.gather f next) (.gather f' next)
  /-- The calls have come to something. -/
  | answer (f : Fanout) (next : Except Error (List Value) → Work α)
      (r : Except Error (List Value)) : Step c (.gather f next) (next r)

/-- Work comes to other work by turns in these contexts. -/
inductive Leads : Work α → List Value → Work α → Prop
  | refl (w : Work α) : Leads w [] w
  | head {w v u : Work α} {c : Value} {cs : List Value} (hstep : Step c w v) (hrest : Leads v cs u) :
      Leads w (c :: cs) u

variable {w v u : Work α} {c : Value} {cs : List Value}

/-- One more turn at the end. -/
theorem Leads.tail (h : Leads w cs v) (hstep : Step c v u) : Leads w (cs ++ [c]) u := by
  induction h with
  | refl _ => exact .head hstep (.refl u)
  | head hfirst _ ih => exact .head hfirst (ih hstep)

/-- Work that is done has no turns. -/
theorem Leads.of_done {a : α} (h : Leads (.done a) cs u) : cs = [] ∧ u = .done a := by
  cases h with
  | refl _ => exact ⟨rfl, rfl⟩
  | head hstep _ => cases hstep

/-- Work that goes on with other work is still the first, or it has come to the other. -/
theorem Leads.andThen {f : α → Work β} {z : Work β} (h : Leads (w.andThen f) cs z) :
    (∃ v, Leads w cs v ∧ z = v.andThen f) ∨
      ∃ a before after, cs = before ++ after ∧ Leads w before (.done a) ∧ Leads (f a) after z := by
  generalize hw : w.andThen f = y at h
  -- along the turns: each one is a turn of the first part, as long as that is not done
  induction h generalizing w with
  | refl _ => exact .inl ⟨w, .refl w, hw.symm⟩
  | @head y v z c cs hstep hrest ih =>
    cases w with
    | done a =>
      obtain rfl : f a = y := hw
      exact .inr ⟨a, [], c :: cs, rfl, .refl _, .head hstep hrest⟩
    | read next =>
      obtain rfl : read _ = y := hw
      cases hstep
      rcases ih rfl with ⟨x, hx, rfl⟩ | ⟨a, before, after, rfl, hdone, hafter⟩
      · exact .inl ⟨x, .head (.read next) hx, rfl⟩
      · exact .inr ⟨a, c :: before, after, rfl, .head (.read next) hdone, hafter⟩
    | write path value next =>
      obtain rfl : write _ _ _ = y := hw
      cases hstep
      rcases ih rfl with ⟨x, hx, rfl⟩ | ⟨a, before, after, rfl, hdone, hafter⟩
      · exact .inl ⟨x, .head (.write path value next) hx, rfl⟩
      · exact .inr ⟨a, c :: before, after, rfl, .head (.write path value next) hdone, hafter⟩
    | gather g next =>
      obtain rfl : gather _ _ = y := hw
      cases hstep with
      | advance _ hg =>
        rcases ih (w := gather _ next) rfl with ⟨x, hx, rfl⟩ | ⟨a, before, after, rfl, hdone, hafter⟩
        · exact .inl ⟨x, .head (.advance next hg) hx, rfl⟩
        · exact .inr ⟨a, c :: before, after, rfl, .head (.advance next hg) hdone, hafter⟩
      | answer _ _ r =>
        rcases ih rfl with ⟨x, hx, rfl⟩ | ⟨a, before, after, rfl, hdone, hafter⟩
        · exact .inl ⟨x, .head (.answer g next r) hx, rfl⟩
        · exact .inr ⟨a, c :: before, after, rfl, .head (.answer g next r) hdone, hafter⟩

/-- Work that makes no calls. -/
def Calm : Work α → Prop
  | .done _ => True
  | .read next => ∀ c, (next c).Calm
  | .write _ _ next => ∀ fault, (next fault).Calm
  | .gather _ _ => False

/-- Calm work leads to calm work only. -/
theorem Leads.calm (h : Leads w cs u) (hw : w.Calm) : u.Calm := by
  induction h with
  | refl _ => exact hw
  | head hstep _ ih =>
    refine ih ?_
    cases hstep with
    | read next => exact hw _
    | write path value next => exact hw _
    | advance _ _ => exact hw.elim
    | answer _ _ _ => exact hw.elim

/-- The fan-out of work that makes no calls behind it is what is left of the calls of the first. -/
theorem Leads.leaves {f g : Fanout} {next next' : Except Error (List Value) → Work α}
    {calls : List Call} (h : Leads (.gather f next) cs (.gather g next'))
    (hnext : ∀ r, (next r).Calm) (hf : f.Leaves calls) : g.Leaves calls := by
  -- the induction is on the turns, from one fan-out to the other
  generalize hw : gather f next = w at h
  generalize hz : gather g next' = z at h
  induction h generalizing f with
  | refl _ =>
    obtain ⟨rfl, -⟩ := gather.inj (hw.trans hz.symm)
    exact hf
  | head hstep hrest ih =>
    subst hw
    cases hstep with
    | advance _ hadvance => exact ih (hadvance _ hf) rfl hz
    -- once it is answered no fan-out is left, since what follows is calm
    | answer _ _ r =>
      subst hz
      exact (hrest.calm (hnext r)).elim

/-- Calm work followed by calm work is calm. -/
theorem Calm.andThen {f : α → Work β} (hw : w.Calm) (hf : ∀ a, (f a).Calm) : (w.andThen f).Calm := by
  induction w with
  | done a => exact hf a
  | read next ih => exact fun c => ih c (hw c)
  | write path value next ih => exact fun fault => ih fault (hw fault)
  | gather f next _ => exact hw.elim

end Work

/-! ## Calls -/

namespace Action

variable {α β : Type}

/-- Behind turns in these contexts the work makes the calls of the fan-out. -/
def Calls (x : Action α) (cs : List Value) (f : Fanout) : Prop :=
  ∃ next, x.run.Leads cs (.gather f next)

/-- Behind turns in these contexts the work has ended with a value. -/
def Returns (x : Action α) (cs : List Value) (a : α) : Prop := x.run.Leads cs (.done (.ok a))

variable {x : Action α} {g : α → Action β} {cs : List Value} {f : Fanout}

/-- The calls of two pieces of work are those of the first, or of the second when the first has
ended. -/
theorem Calls.bind (h : (x >>= g).Calls cs f) :
    x.Calls cs f ∨ ∃ a before after, cs = before ++ after ∧ x.Returns before a ∧ (g a).Calls after f := by
  obtain ⟨next, h⟩ := h
  rcases Work.Leads.andThen (w := x.run) h with ⟨v, hv, heq⟩ | ⟨r, before, after, rfl, hr, hafter⟩
  · cases v with
    | gather f' next' =>
      obtain ⟨rfl, -⟩ := Work.gather.inj heq
      exact .inl ⟨next', hv⟩
    | done r =>
      -- the second piece of work is at its calls at once
      cases r with
      | ok a => exact .inr ⟨a, cs, [], (List.append_nil cs).symm, hv, next, heq ▸ .refl _⟩
      | error e => cases heq
    | read _ => cases heq
    | write _ _ _ => cases heq
  · cases r with
    | ok a => exact .inr ⟨a, before, after, rfl, hr, next, hafter⟩
    | error e =>
      obtain ⟨-, hdone⟩ := hafter.of_done
      cases hdone

theorem not_calls_of_calm (h : x.run.Calm) : ¬ x.Calls cs f := fun ⟨_, hleads⟩ => (hleads.calm h).elim

/-- Calm actions in a row are calm. -/
theorem calm_bind (hx : x.run.Calm) (hg : ∀ a, (g a).run.Calm) : (x >>= g).run.Calm := by
  refine Work.Calm.andThen hx fun r => ?_
  cases r with
  | ok a => exact hg a
  | error e => exact trivial

theorem calm_ofExcept (r : Except Error α) : (MonadExcept.ofExcept r : Action α).run.Calm := by
  cases r <;> exact trivial

theorem calm_context : context.run.Calm := fun _ => trivial

theorem calm_valueAt (path : String) : (valueAt path).run.Calm :=
  calm_bind calm_context fun _ => trivial

theorem calm_put (path : String) (value : Value) : (put path value).run.Calm := by
  intro fault
  cases fault <;> exact trivial

theorem calm_conclude (target : String) (result : Value) : (conclude target result).run.Calm :=
  calm_bind (calm_put target result) fun _ => trivial

/-- A sequence of calm actions is calm. -/
theorem calm_forEach {h : α → Action β} (hh : ∀ a, (h a).run.Calm) (as : List α) :
    (forEach h as).run.Calm := by
  induction as with
  | nil => exact trivial
  | cons a as ih => exact calm_bind (hh a) fun b => calm_bind ih fun bs => trivial

/-- The value that the reading of the context ends with is the context at its one turn. -/
theorem Returns.context {c : Value} (h : context.Returns cs c) : cs = [c] := by
  cases h with
  | head hstep hrest =>
    cases hstep
    obtain ⟨rfl, hdone⟩ := hrest.of_done
    obtain rfl := Except.ok.inj (Work.done.inj hdone)
    rfl

/-- A result that is passed on is passed on without a turn. -/
theorem Returns.ofExcept {r : Except Error α} {a : α}
    (h : (MonadExcept.ofExcept r : Action α).Returns cs a) : cs = [] ∧ r = .ok a := by
  cases r with
  | ok b =>
    obtain ⟨rfl, hdone⟩ := Work.Leads.of_done h
    exact ⟨rfl, (Work.done.inj hdone).symm⟩
  | error e =>
    obtain ⟨-, hdone⟩ := Work.Leads.of_done h
    cases hdone

/-- What is under way of a fan-out is what is left of its calls. -/
theorem Calls.gather {width : Nat} {calls : List Call} (h : (gather width calls).Calls cs f) :
    f.Leaves calls := by
  obtain ⟨next, h⟩ := h
  exact h.leaves (fun _ => trivial) (Fanout.leaves_ofCalls width calls)

/-- The calls of a single call are this one or, when it has ended, none. -/
theorem Calls.call {c : Call} (h : (call c).Calls cs f) : f.Leaves [c] := by
  rcases Calls.bind h with h | ⟨vs, before, after, -, -, h⟩
  · exact h.gather
  · exact absurd h (not_calls_of_calm trivial)

/-! ### Several pieces of work in their order -/

/-- The pieces of work have ended, one after the other. -/
inductive Performed : List (Action α) → List Value → Prop
  | nil : Performed [] []
  | cons {a : Action α} {as : List (Action α)} {cs ds : List Value} {v : α} (ha : a.Returns cs v)
      (has : Performed as ds) : Performed (a :: as) (cs ++ ds)

/-- Of several pieces of work one makes the calls, when all before it have ended. -/
theorem Calls.forEach {as : List (Action α)} (h : (forEach id as).Calls cs f) :
    ∃ earlier a later, as = earlier ++ a :: later ∧ ∃ before after, cs = before ++ after ∧
      Performed earlier before ∧ a.Calls after f := by
  induction as generalizing cs with
  | nil => exact absurd h (not_calls_of_calm trivial)
  | cons a as ih =>
    -- the first action calls, or it has returned and one of the others does
    rcases Calls.bind h with h | ⟨v, before, after, rfl, hv, h⟩
    · exact ⟨[], a, as, rfl, [], cs, rfl, .nil, h⟩
    rcases Calls.bind h with h | ⟨vs, before', after', -, -, h⟩
    · obtain ⟨earlier, b, later, rfl, before', after', rfl, hearlier, hcalls⟩ := ih h
      exact ⟨a :: earlier, b, later, rfl, before ++ before', after',
        (List.append_assoc ..).symm, .cons hv hearlier, hcalls⟩
    · exact absurd h (not_calls_of_calm trivial)

end Action

/-! ## Tasks -/

/-- The items that a reference stands for; none if it does not stand for an array. -/
def Value.itemsAt (c reference : Value) : List Value :=
  match c.deref reference with
  | some (.array items) => items
  | _ => []

/-- The items that a node is given are those that its reference leads to in the context. -/
theorem itemsOf_eq_ok {node field : String} {reference c : Value} {items : List Value}
    (h : itemsOf node field reference c = .ok items) : c.itemsAt reference = items := by
  rw [itemsOf] at h
  split at h
  · rename_i found hfound
    rw [Value.itemsAt, hfound]
    exact Except.ok.inj h
  · cases h
  · cases h

namespace Task

/-- The calls that a task makes by itself when it is begun in a context. -/
def calls (c : Value) : Task → List Call
  | toolCall tool input _ binding => [.ofTemplate tool input (scope binding c)]
  | dynamicLoop step tool => (c.itemsAt step.items).map (step.callFor tool c)
  | reduce step tool => (c.itemsAt step.input).map (step.callFor tool c)
  | aggregate _ _ | conditional _ _ _ _ => []

def isConditional : Task → Bool
  | conditional _ _ _ _ => true
  | _ => false

open Wavefront.Action

variable {s : Settings} {node : String} {cs : List Value} {f : Fanout}

/-- The calls of a step that fans out are one for each item. -/
theorem calls_fanOut {field : String} {reference c : Value} {width : Nat} {call : Value → Call}
    {next : List Value → Action Value} (hnext : ∀ vs, (next vs).run.Calm)
    (h : (do
      let items ← MonadExcept.ofExcept (itemsOf node field reference c)
      let results ← gather width (items.map call)
      next results : Action Value).Calls cs f) : f.Leaves ((c.itemsAt reference).map call) := by
  rcases Calls.bind h with h | ⟨items, before, after, -, hitems, h⟩
  · exact absurd h (not_calls_of_calm (calm_ofExcept _))
  obtain ⟨-, hitems⟩ := Returns.ofExcept hitems
  rw [itemsOf_eq_ok hitems]
  rcases Calls.bind h with h | ⟨results, before, after, -, -, h⟩
  · exact h.gather
  · exact absurd h (not_calls_of_calm (hnext results))

/-- What comes behind the first turn of work that reads the context. -/
theorem calls_of_context {next : Value → Action Value} (h : (context >>= next).Calls cs f) :
    ∃ c rest, cs = c :: rest ∧ (next c).Calls rest f := by
  rcases Calls.bind h with hcontext | ⟨c, before, after, heq, hc, hnext⟩
  · exact absurd hcontext (not_calls_of_calm calm_context)
  · rw [hc.context] at heq
    exact ⟨c, after, heq, hnext⟩

/-- A task that is no conditional makes its calls in the context at its first turn. -/
theorem calls_of_work {t : Task} (ht : t.isConditional = false) (h : (t.work s node).Calls cs f) :
    ∃ c rest, cs = c :: rest ∧ f.Leaves (t.calls c) := by
  cases t with
  | toolCall tool input target binding =>
    obtain ⟨c, rest, rfl, hrest⟩ := calls_of_context h
    refine ⟨c, rest, rfl, ?_⟩
    rcases Calls.bind hrest with hcall | ⟨v, _, _, _, _, hconclude⟩
    · exact hcall.call
    · exact absurd hconclude (not_calls_of_calm (calm_conclude target v))
  -- an aggregation reads and writes, but calls nobody
  | aggregate gathering target =>
    refine absurd h (not_calls_of_calm (calm_bind ?_ fun v => calm_conclude target v))
    cases gathering with
    | list paths => exact calm_bind (calm_forEach calm_valueAt paths) fun _ => trivial
    | map entries =>
      refine calm_bind (calm_forEach (fun entry => ?_) entries) fun _ => trivial
      exact calm_bind (calm_valueAt entry.2) fun _ => trivial
  | dynamicLoop step tool =>
    obtain ⟨c, rest, rfl, hrest⟩ := calls_of_context h
    exact ⟨c, rest, rfl, calls_fanOut (fun vs => calm_conclude step.outputKey (.array vs)) hrest⟩
  | reduce step tool =>
    obtain ⟨c, rest, rfl, hrest⟩ := calls_of_context h
    exact ⟨c, rest, rfl, calls_fanOut (fun vs => calm_conclude step.output (.array vs)) hrest⟩
  | conditional _ _ _ _ => cases ht

/-- The calls of a branch are those of one of its pieces of work, when all before it have ended. -/
theorem calls_of_take {b : Branch} {c : Value} (h : (b.take s c).Calls cs f) :
    ∃ works, b.works s c = .ok works ∧ ∃ earlier a later, works = earlier ++ a :: later ∧
      ∃ before after, cs = before ++ after ∧ Performed earlier before ∧ a.Calls after f := by
  rcases Calls.bind h with hworks | ⟨works, _, rest, rfl, hworks, hrest⟩
  · exact absurd hworks (not_calls_of_calm (calm_ofExcept _))
  -- expanding the branch takes no turn, so its works are those of the context at hand
  obtain ⟨rfl, heq⟩ := Returns.ofExcept hworks
  refine ⟨works, heq, ?_⟩
  rcases Calls.bind hrest with heach | ⟨_, _, _, _, _, houtputs⟩
  · exact heach.forEach
  · -- what the steps came to is read without calls
    refine absurd houtputs (not_calls_of_calm (calm_bind (calm_forEach (fun output => ?_) _) ?_))
    · exact calm_bind (calm_valueAt output.2) fun _ => trivial
    · exact fun _ => trivial

/-- The calls of a conditional are those of the branch that it chooses in the context at its first
turn. -/
theorem calls_conditional {shell : Shell} {condition : String} {yes no : Branch}
    (h : ((conditional shell condition yes no).work s node).Calls cs f) :
    ∃ c rest holds, cs = c :: rest ∧ Condition.evaluate c condition = .ok holds ∧
      ((if holds then yes else no).take s c).Calls rest f := by
  obtain ⟨c, rest, rfl, hrest⟩ := calls_of_context h
  cases hcondition : Condition.evaluate c condition with
  -- a condition that fails ends the attempt before there are calls
  | error fault =>
    rw [hcondition] at hrest
    exact absurd hrest (not_calls_of_calm trivial)
  | ok holds =>
    rw [hcondition] at hrest
    rcases Calls.bind hrest with htake | ⟨_, _, _, _, _, hconclude⟩
    · exact ⟨c, rest, holds, rfl, hcondition, htake⟩
    · exact absurd hconclude (not_calls_of_calm (calm_conclude _ _))

end Task

end Wavefront
