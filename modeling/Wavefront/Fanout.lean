/-
Fan-outs: calls made side by side whose results are gathered in the order of the calls, as
`run_task` makes them for loops and reduce steps.

A fan-out holds at most `width` calls at once. A call is held from when it is taken until its result
is collected, and results are collected from the oldest call on, so a call that has ended keeps its
place until all calls before it have ended. The first error that is collected ends the fan-out: what
is still held is given up and what was not taken is never begun.

What a fan-out asks for next is decided by what it holds alone. The oldest call comes first: when it
has ended, its result is collected. Otherwise the first held call that can go on does so. Calls are
begun in their order, so those that are woken stand before those that are fresh, and the order in
which calls are held is also the order in which they came to be able to go on.
-/
import Wavefront.Tool.Basic

set_option autoImplicit false

namespace Wavefront

/-- A call of a tool: what `call_tool_with` is given. -/
structure Call where
  tool : Tool
  params : Value
  /-- The scope that the tool can read. -/
  scope : Value

/-- How far a held call has come. -/
inductive Stage where
  /-- Not begun. -/
  | fresh
  /-- At work; the end is known but its time has not come. -/
  | running (outcome : Outcome)
  /-- The time of its end has come. -/
  | awake (outcome : Outcome)
  | ended (result : Except Error Value)

/-- A held call. -/
structure Held where
  call : Call
  stage : Stage := .fresh

/-- A fan-out: the calls of one loop or reduce step, as they are buffered in `run_task`. -/
structure Fanout where
  width : Nat
  untaken : List Call
  /-- The calls that are held, the oldest first. -/
  held : List Held := []
  /-- The results collected so far, in the order of the calls. -/
  results : List Value := []

/-- What a fan-out asks for next. Everything about the course of a fan-out is said by what it asks
for and what becomes of it then. -/
inductive Demand where
  /-- Nothing more: it has ended. -/
  | finish (result : Except Error (List Value))
  /-- The oldest call has this result. -/
  | collect (value : Value)
  /-- The held call in this place is to begin. -/
  | start (place : Nat) (call : Call)
  /-- The held call in this place is to end. -/
  | conclude (place : Nat) (call : Call) (outcome : Outcome)
  /-- Time. -/
  | wait

namespace Stage

/-- Is a tool at work for the call? -/
def isBusy : Stage → Bool
  | running _ | awake _ => true
  | fresh | ended _ => false

/-- Can the call go on? -/
def isReady : Stage → Bool
  | fresh | awake _ => true
  | running _ | ended _ => false

/-- A bound on the steps that a call can still take, itself included. -/
def weight : Stage → Nat
  | fresh => 4
  | running _ => 3
  | awake _ => 2
  | ended _ => 1

/-- The stage of a call whose time has come. -/
def wake : Stage → Stage
  | running outcome => awake outcome
  | stage => stage

end Stage

namespace Fanout

/-- Takes calls as long as fewer than `width` are held. -/
def fill (f : Fanout) : Fanout :=
  let room := f.width - f.held.length
  { f with
    untaken := f.untaken.drop room
    held := f.held ++ (f.untaken.take room).map fun call => { call := call } }

/-- A fan-out over some calls. One that may not hold any call could not end, so it holds one. -/
def ofCalls (width : Nat) (calls : List Call) : Fanout :=
  fill { width := max width 1, untaken := calls }

/-- The first place of a call that can go on. -/
def readyPlace? (f : Fanout) : Option Nat := f.held.findIdx? fun h => h.stage.isReady

/-- What a fan-out asks for next. -/
def next (f : Fanout) : Demand :=
  match f.held with
  | [] => .finish (.ok f.results)
  | ⟨_, .ended (.error e)⟩ :: _ => .finish (.error e)
  | ⟨_, .ended (.ok v)⟩ :: _ => .collect v
  -- the oldest call has not ended, so nothing can be collected
  | _ =>
      match f.readyPlace? with
      | none => .wait
      | some place =>
          match f.held[place]? with
          | some ⟨call, .fresh⟩ => .start place call
          | some ⟨call, .awake outcome⟩ => .conclude place call outcome
          | _ => .wait

/-- Collects the result of the oldest call and takes the next one. -/
def collect (f : Fanout) (v : Value) : Fanout :=
  fill { f with held := f.held.tail, results := f.results ++ [v] }

/-- Changes the stage of a held call. -/
def setStage (f : Fanout) (place : Nat) (stage : Stage) : Fanout :=
  { f with held := f.held.modify place fun h => { h with stage := stage } }

/-- The number of a held call among all calls. -/
def number (f : Fanout) (place : Nat) : Nat := f.results.length + place

/-- Lets the call of this number go on. -/
def wake (f : Fanout) (number : Nat) : Fanout :=
  { f with
    held := f.held.modify (number - f.results.length) fun h => { h with stage := h.stage.wake } }

/-- The number of calls that a tool is at work for. -/
def busy (f : Fanout) : Nat := f.held.countP fun h => h.stage.isBusy

/-! ## Steps that are left -/

/-- The weight of the calls that are held. -/
def heldWeight : List Held → Nat
  | [] => 0
  | h :: held => h.stage.weight + heldWeight held

/-- A bound on the steps that a fan-out can still take. -/
def weight (f : Fanout) : Nat := 5 * f.untaken.length + heldWeight f.held

/-- Weights of held calls add up. -/
theorem heldWeight_append (xs ys : List Held) :
    heldWeight (xs ++ ys) = heldWeight xs + heldWeight ys := by
  induction xs with
  | nil => simp [heldWeight]
  | cons h xs ih =>
    rw [List.cons_append, heldWeight, heldWeight, ih]
    omega

/-- A fresh call weighs five, so taking calls keeps the weight. -/
theorem heldWeight_fresh (calls : List Call) :
    heldWeight (calls.map fun call => { call := call }) = 4 * calls.length := by
  induction calls with
  | nil => rfl
  | cons call calls ih =>
    simp only [heldWeight, List.map_cons, Stage.weight, List.length_cons] at ih ⊢
    omega

theorem weight_fill_le (f : Fanout) : f.fill.weight ≤ f.weight := by
  simp only [weight, fill, heldWeight_append, heldWeight_fresh, List.length_drop, List.length_take]
  omega

/-- One held call that gets lighter makes all of them lighter. -/
theorem heldWeight_modify_lt {held : List Held} {place : Nat} {h : Held} {change : Held → Held}
    (hplace : held[place]? = some h) (hlt : (change h).stage.weight < h.stage.weight) :
    heldWeight (held.modify place change) < heldWeight held := by
  induction held generalizing place with
  | nil => simp at hplace
  | cons first held ih =>
    cases place with
    | zero =>
      obtain rfl : first = h := by simpa using hplace
      simp only [heldWeight, List.modify_zero_cons]
      omega
    | succ place =>
      have := ih (by simpa using hplace)
      simp only [heldWeight, List.modify_succ_cons] at this ⊢
      omega

/-- A held call that goes on makes the fan-out lighter. -/
theorem weight_setStage_lt {f : Fanout} {place : Nat} {h : Held} {stage : Stage}
    (hplace : f.held[place]? = some h) (hlt : stage.weight < h.stage.weight) :
    (f.setStage place stage).weight < f.weight := by
  have : heldWeight (f.setStage place stage).held < heldWeight f.held :=
    heldWeight_modify_lt hplace hlt
  simp only [weight, setStage] at this ⊢
  omega

/-- Collecting a result makes the fan-out lighter. -/
theorem weight_collect_lt {f : Fanout} {v : Value} (h : f.next = .collect v) :
    (f.collect v).weight < f.weight := by
  obtain ⟨width, untaken, held, results⟩ := f
  cases held with
  | nil => simp [next] at h
  | cons first held =>
    refine Nat.lt_of_le_of_lt (weight_fill_le _) ?_
    simp only [weight, List.tail_cons, heldWeight]
    have : 0 < first.stage.weight := by cases first.stage <;> simp [Stage.weight]
    omega

/-- A call that is to begin is held and fresh. -/
theorem held_of_start {f : Fanout} {place : Nat} {call : Call} (h : f.next = .start place call) :
    f.held[place]? = some ⟨call, .fresh⟩ := by
  unfold next at h
  split at h <;> try contradiction
  split at h <;> try contradiction
  split at h <;> try contradiction
  simp only [Demand.start.injEq] at h
  obtain ⟨rfl, rfl⟩ := h
  assumption

/-- A call that is to end is held and awake. -/
theorem held_of_conclude {f : Fanout} {place : Nat} {call : Call} {outcome : Outcome}
    (h : f.next = .conclude place call outcome) :
    f.held[place]? = some ⟨call, .awake outcome⟩ := by
  unfold next at h
  split at h <;> try contradiction
  split at h <;> try contradiction
  split at h <;> try contradiction
  simp only [Demand.conclude.injEq] at h
  obtain ⟨rfl, rfl, rfl⟩ := h
  assumption

end Fanout

end Wavefront
