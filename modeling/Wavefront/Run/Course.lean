/-
Courses: how a node goes through a run, from waiting for its turn to its end (`run_node`,
`attempt`).

A course, like work, asks for one thing after the other and goes on with the answer. It begins an
entry of the trace and makes attempts until one succeeds or none is left, and it looks whether the
run was cancelled before each attempt, never within one. An attempt may take only so long. The entry
is settled before the host is told.

A turn makes a smaller course of a course, so every course ends.
-/
import Wavefront.Graph.Basic
import Wavefront.Trace.Basic
import Wavefront.Work

set_option autoImplicit false

namespace Wavefront

/-- What a host is told about a node: the calls of a `NodeObserver`. -/
inductive Notice where
  | started (node : String)
  | completed (node : String) (result : Value)
  | failed (node message : String)

/-- How a course ends. -/
inductive Ending where
  /-- The node succeeded, or the run was cancelled. -/
  | passed
  | failed (error : Error)
  /-- A tool or the host panicked, which ends the course where it stands. -/
  | aborted (message : String)

/-- The time limit of an attempt. It is set off when the attempt first has to wait. -/
inductive Limit where
  | set (ms : Nat)
  | running
  | expired
deriving DecidableEq

/-- A bound on the changes that a limit can still go through. -/
def Limit.rank : Limit → Nat
  | set _ => 2
  | running => 1
  | expired => 0

/-- What a node does in a run: `run_node`, request by request. -/
inductive Course where
  | ended (ending : Ending)
  /-- Waits until one of the places for nodes at work is free. -/
  | permit (next : Course)
  /-- Appends an entry to the trace. -/
  | begin (entry : Moment → Entry) (next : (index : Nat) → Course)
  | notify (notice : Notice) (next : Course)
  /-- Asks whether the run was cancelled. -/
  | ask (next : (cancelled : Bool) → Course)
  /-- Reads the context. -/
  | inspect (next : (context : Value) → Course)
  /-- Does work, and goes on with its result or, if the time is over, without one. -/
  | attempt (limit : Limit) (work : Work (Except Error Value))
      (next : Option (Except Error Value) → Course)
  /-- Changes an entry of the trace. -/
  | settle (index : Nat) (change : Moment → Entry → Entry) (next : Course)
  /-- Waits for some time. -/
  | pause (ms : Nat) (next : Course)
  /-- Is waiting, until it is woken. -/
  | paused (next : Course)

namespace Course

/-! ## The course of a node -/

/-- The entry of a node that begins: `running`. -/
def entryOf (n : Node) (now : Moment) : Entry where
  nodeId := n.id
  stepId := n.stepId
  startTime := now
  toolName := n.toolName

/-- The retries that a node may have: its own, or those of the settings. -/
def retriesOf (s : Settings) (n : Node) : Nat := (n.policy.maxRetries.getD s.maxRetries).toNat

/-- The time that an attempt of a node may take, in milliseconds. -/
def limitOf (s : Settings) (n : Node) : Nat :=
  (n.policy.timeoutMs.getD s.defaultTimeoutMs).toNat

/-- Ends the course of a node whose run was cancelled. -/
def cancel (index retry : Nat) : Course :=
  .settle index (fun now e => { e with retryCount := retry }.finish now .cancelled) (.ended .passed)

/-- Ends the course of a node that succeeded. -/
def succeed (n : Node) (index retry : Nat) (output : Value) : Course :=
  .settle index
    (fun now e => { e with output := some output, retryCount := retry }.finish now .success)
    (.notify (.completed n.id output) (.ended .passed))

/-- Ends the course of a node that failed for good. -/
def fail (n : Node) (index retry : Nat) (message : String) : Course :=
  .settle index (fun now e => { e with retryCount := retry }.fail now message)
    (.notify (.failed n.id message) (.ended (.failed (.nodeFailed n.id message))))

/-- The attempts of a node, when `retry` retries have been made and `left` are left: the loop of
`run_node` around `attempt`. -/
def attempts [Schema.Validator] (s : Settings) (n : Node) (index : Nat) :
    (left retry : Nat) → Course
  | left, retry =>
      let failed (e : Error) : Course :=
        match left with
        -- of the errors of all attempts the last one counts
        | 0 => fail n index retry e.message
        | left + 1 =>
            .pause (s.backoffMs (UInt32.ofNat (retry + 1))).toNat
              (attempts s n index left (retry + 1))
      .ask fun cancelled =>
        if cancelled then cancel index retry
        else .inspect fun context =>
          -- what other nodes wrote since the last attempt may make the difference
          match requireContext n.id n.policy.inputSchema context with
          | .error e => failed e
          | .ok () =>
              .attempt (.set (limitOf s n)) (n.task.work s n.id).run fun
                | some (.ok output) => succeed n index retry output
                | some (.error e) => failed e
                | none => failed (.timeout n.id (limitOf s n))

/-- The course of a node: a permit first, as `run_graph` acquires one for each, and then
`run_node`. -/
def ofNode [Schema.Validator] (s : Settings) (n : Node) : Course :=
  .permit <| .begin (entryOf n) fun index =>
    .notify (.started n.id) (attempts s n index (retriesOf s n) 0)

/-! ## Courses end -/

/-- Has the course ended? -/
def isEnded : Course → Bool
  | ended _ => true
  | _ => false

/-- What a turn makes of a course. -/
inductive Less : Course → Course → Prop
  | stop {c : Course} (ending : Ending) (h : c.isEnded = false) : Less (.ended ending) c
  | permit (next : Course) : Less next (.permit next)
  | begin (entry : Moment → Entry) (next : Nat → Course) (index : Nat) :
      Less (next index) (.begin entry next)
  | notify (notice : Notice) (next : Course) : Less next (.notify notice next)
  | ask (next : Bool → Course) (cancelled : Bool) : Less (next cancelled) (.ask next)
  | inspect (next : Value → Course) (context : Value) : Less (next context) (.inspect next)
  | settle (index : Nat) (change : Moment → Entry → Entry) (next : Course) :
      Less next (.settle index change next)
  | skip (ms : Nat) (next : Course) : Less next (.pause ms next)
  | pause (ms : Nat) (next : Course) : Less (.paused next) (.pause ms next)
  | wake (next : Course) : Less next (.paused next)
  | answer (limit : Limit) (work : Work (Except Error Value))
      (next : Option (Except Error Value) → Course) (r : Option (Except Error Value)) :
      Less (next r) (.attempt limit work next)
  | work (limit : Limit) {w v : Work (Except Error Value)}
      (next : Option (Except Error Value) → Course) (h : Work.Less v w) :
      Less (.attempt limit v next) (.attempt limit w next)
  | limit {l m : Limit} (work : Work (Except Error Value))
      (next : Option (Except Error Value) → Course) (h : m.rank < l.rank) :
      Less (.attempt m work next) (.attempt l work next)

/-- A course that has ended has no turn. -/
theorem acc_ended (ending : Ending) : Acc Less (ended ending) :=
  Acc.intro _ fun _ h => by
    cases h with
    | stop _ h => simp [isEnded] at h

/-- An attempt ends if its work does and what follows it does. -/
theorem acc_attempt {next : Option (Except Error Value) → Course}
    (hnext : ∀ r, Acc Less (next r)) {w : Work (Except Error Value)} (hw : Acc Work.Less w)
    (n : Nat) : ∀ l : Limit, l.rank = n → Acc Less (attempt l w next) := by
  -- the work goes first: whatever becomes of the limit, it never makes the work larger again
  induction hw generalizing n with
  | intro w _ ihw =>
    -- with the work as it is, only the limit can change
    induction n using Nat.strongRecOn with
    | ind n ihn =>
      intro l hl
      refine Acc.intro _ fun c hc => ?_
      cases hc with
      | stop e _ => exact acc_ended e
      | answer _ _ _ r => exact hnext r
      | work _ _ h => exact ihw _ h _ _ rfl
      | limit _ _ h => exact ihn _ (hl ▸ h) _ rfl

/-- A pause ends if what follows it does. -/
theorem acc_paused {next : Course} (hnext : Acc Less next) : Acc Less (paused next) :=
  Acc.intro _ fun _ h => by
    cases h with
    | stop e _ => exact acc_ended e
    | wake => exact hnext

/-- Every course ends. -/
theorem acc_less (c : Course) : Acc Less c := by
  induction c with
  | ended e => exact acc_ended e
  | permit next ih =>
    exact Acc.intro _ fun _ h => by
      cases h with
      | stop e _ => exact acc_ended e
      | permit => exact ih
  | begin entry next ih =>
    exact Acc.intro _ fun _ h => by
      cases h with
      | stop e _ => exact acc_ended e
      | begin _ _ i => exact ih i
  | notify notice next ih =>
    exact Acc.intro _ fun _ h => by
      cases h with
      | stop e _ => exact acc_ended e
      | notify => exact ih
  | ask next ih =>
    exact Acc.intro _ fun _ h => by
      cases h with
      | stop e _ => exact acc_ended e
      | ask _ b => exact ih b
  | inspect next ih =>
    exact Acc.intro _ fun _ h => by
      cases h with
      | stop e _ => exact acc_ended e
      | inspect _ v => exact ih v
  | attempt l w next ih => exact acc_attempt ih w.acc_less _ l rfl
  | settle i change next ih =>
    exact Acc.intro _ fun _ h => by
      cases h with
      | stop e _ => exact acc_ended e
      | settle => exact ih
  | pause ms next ih =>
    exact Acc.intro _ fun _ h => by
      cases h with
      | stop e _ => exact acc_ended e
      | skip => exact ih
      | pause => exact acc_paused ih
  | paused next ih => exact acc_paused ih

end Course

end Wavefront
