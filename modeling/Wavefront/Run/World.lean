/-
The world of a run: what its nodes share, and what one turn of a course does to it (`NodeEnv`,
`SharedContext`, `TraceRecorder`).

Nodes share the context, the signal that the run was cancelled, the counts of calls, the trace and
the time. Every turn takes one request of a course and answers it. Turns are the atoms of a run: no
two of them overlap, and a run is some order of the turns of its courses.

Waiting is done by timers. A timer belongs to a course and says what it is for; it goes with what it
is for, so a fan-out takes its timers with it when it ends, and an attempt those of its limit.
-/
import Wavefront.Run.Course
import Wavefront.Text.Quoted

set_option autoImplicit false

namespace Wavefront

/-! ## Events -/

/-- What can be seen of a run from outside. -/
inductive Happening where
  /-- A tool was called, its parameters having been checked. -/
  | called (tool : String) (params : Value)
  | told (notice : Notice)

/-- Something that happened at some time. -/
structure Event where
  time : Nat
  what : Happening

/-- A host that is told about nodes. What it is told may make it panic with a message. -/
abbrev Observer := Notice → Option String

/-- A host that takes whatever it is told. -/
def Observer.silent : Observer := fun _ => none

/-! ## The world -/

/-- What the nodes of a run share: the context, the trace, and what stands for the clock, the timers
and the signal. -/
structure World where
  context : Value
  trace : Trace
  cancelled : Bool := false
  /-- Milliseconds since the run began. -/
  now : Nat := 0
  /-- The number of calls of each tool. -/
  callCounts : List (String × Nat) := []
  /-- What happened, in order. -/
  events : List Event := []
  /-- The most calls that tools were at work for at once. -/
  peak : Nat := 0

namespace World

/-- The moment that it is. Runs begin with the beginning of 1970. -/
def moment (w : World) : Moment := .ofMillis w.now

/-- The longest wait in milliseconds: thirty years of 365 days. -/
def longestWait : Nat := 30 * 365 * 24 * 60 * 60 * 1000

/-- The time at which a wait ends that begins now. Whoever asks for more than the longest wait gets
the longest one. -/
def afterWait (w : World) (ms : Nat) : Nat := w.now + min ms longestWait

/-- Notes what has just happened. -/
def log (w : World) (what : Happening) : World := { w with events := w.events ++ [⟨w.now, what⟩] }

/-- The number of calls of a tool. -/
def callCount (w : World) (tool : String) : Nat := (Fields.get? tool w.callCounts).getD 0

/-- The world when a tool has been called while others were at work for `busy` calls. -/
def enter (w : World) (c : Call) (busy : Nat) (r : Reaction) : World :=
  { w.log (.called c.tool.id c.params) with
    cancelled := w.cancelled || r.cancels
    callCounts := Fields.insert c.tool.id (w.callCount c.tool.id + 1) w.callCounts
    peak := max w.peak (busy + 1) }

end World

/-! ## Timers -/

/-- What a timer is for. -/
inductive Purpose where
  /-- The end of the call of this number in the fan-out of a course. -/
  | call (number : Nat)
  /-- The time limit of an attempt. -/
  | limit
  /-- The end of a pause. -/
  | pause
deriving DecidableEq

/-- A timer. -/
structure Timer where
  due : Nat
  /-- The place of the course that the timer belongs to. -/
  course : Nat
  purpose : Purpose

/-- Is the timer for a call? -/
def Purpose.isCall : Purpose → Bool
  | call _ => true
  | limit | pause => false

/-- The timers without those of a course. -/
def dropTimers (course : Nat) (timers : List Timer) : List Timer :=
  timers.filter fun t => t.course ≠ course

/-- The timers without those for the calls of a course. -/
def dropCallTimers (course : Nat) (timers : List Timer) : List Timer :=
  timers.filter fun t => t.course ≠ course || !t.purpose.isCall

/-! ## Turns -/

/-- What a turn leads to. -/
structure Turn (α : Type) where
  world : World
  timers : List Timer
  next : α

/-- What a turn of work leads to. -/
inductive Advance where
  | on (work : Work (Except Error Value))
  | panicked (message : String)

/-- Ends a call of a fan-out. -/
def Fanout.conclude (f : Fanout) (place : Nat) (tool : String) (outcome : Outcome)
    (next : Except Error (List Value) → Work (Except Error Value)) : Advance :=
  match outcome.result tool with
  | .ok r => .on (.gather (f.setStage place (.ended r)) next)
  | .error message => .panicked message

variable [Schema.Validator]

/-- Begins a call of a fan-out, `call_tool_with`: its parameters are checked, and the tool is
called. -/
def Fanout.start (f : Fanout) (place : Nat) (c : Call)
    (next : Except Error (List Value) → Work (Except Error Value)) (course busy : Nat) (w : World)
    (timers : List Timer) : Turn Advance :=
  match c.tool.check c.params with
  | .error e => ⟨w, timers, .on (.gather (f.setStage place (.ended (.error e))) next)⟩
  | .ok () =>
      let reaction := c.tool.react (w.callCount c.tool.id + 1) c.params c.scope
      let w := w.enter c busy reaction
      -- a call that takes no time ends in the turn in which it begins
      if reaction.delayMs = 0 then
        ⟨w, timers, f.conclude place c.tool.id reaction.outcome next⟩
      else
        ⟨w, timers ++ [⟨w.afterWait reaction.delayMs, course, .call (f.number place)⟩],
          .on (.gather (f.setStage place (.running reaction.outcome)) next)⟩

/-- A turn of the work of a course, or nothing if the work has to wait or has ended. -/
def Work.turn (work : Work (Except Error Value)) (course busy : Nat) (w : World)
    (timers : List Timer) : Option (Turn Advance) :=
  match work with
  | .done _ => none
  | .read next => some ⟨w, timers, .on (next w.context)⟩
  | .write path value next =>
      let written := w.context.set path value
      some ⟨{ w with context := written.tree }, timers, .on (next written.fault)⟩
  | .gather f next =>
      match f.next with
      -- calls that are given up leave no timers behind
      | .finish r => some ⟨w, dropCallTimers course timers, .on (next r)⟩
      | .collect v => some ⟨w, timers, .on (.gather (f.collect v) next)⟩
      | .start place c => some (f.start place c next course busy w timers)
      | .conclude place c outcome =>
          some ⟨w, timers, f.conclude place c.tool.id outcome next⟩
      | .wait => none

/-- What the message of a course that was aborted starts with. -/
def panicHeading : String := "node task aborted: task # panicked with message "

/-- The message of a course that was aborted by a panic, as a failed join shows it. -/
def panicMessage (message : String) : String := panicHeading ++ Text.quoted message

/-- Ends a course that a panic has aborted. -/
def Course.abort (message : String) : Course := .ended (.aborted (panicMessage message))

/-- A turn of an attempt, `attempt`, or nothing if it has to wait. -/
def Limit.turn (limit : Limit) (work : Work (Except Error Value))
    (next : Option (Except Error Value) → Course) (course busy : Nat) (w : World)
    (timers : List Timer) : Option (Turn Course) :=
  match work with
  -- a result that is there counts, even if the time is over by now
  | .done r => some ⟨w, dropTimers course timers, next (some r)⟩
  | work =>
      match work.turn course busy w timers with
      | some ⟨w, timers, .on work⟩ => some ⟨w, timers, .attempt limit work next⟩
      | some ⟨w, timers, .panicked message⟩ =>
          some ⟨w, dropTimers course timers, .abort message⟩
      | none =>
          match limit with
          -- the first wait of the attempt, and no time has passed since the attempt began
          | .set ms =>
              if ms = 0 then some ⟨w, dropTimers course timers, next none⟩
              else some ⟨w, timers ++ [⟨w.afterWait ms, course, .limit⟩], .attempt .running work next⟩
          | .running => none
          | .expired => some ⟨w, dropTimers course timers, next none⟩

/-- A turn of a course, or nothing if it has to wait, be it for a permit, or has ended: one stretch
of `run_node` between two points at which it can be set aside. -/
def Course.turn (c : Course) (observer : Observer) (course busy : Nat) (w : World)
    (timers : List Timer) : Option (Turn Course) :=
  match c with
  | .ended _ | .permit _ | .paused _ => none
  | .begin entry next =>
      let (index, trace) := w.trace.begin (entry w.moment)
      some ⟨{ w with trace := trace }, timers, next index⟩
  | .notify notice next =>
      let w := w.log (.told notice)
      match observer notice with
      | none => some ⟨w, timers, next⟩
      | some message => some ⟨w, timers, .abort message⟩
  | .ask next => some ⟨w, timers, next w.cancelled⟩
  | .inspect next => some ⟨w, timers, next w.context⟩
  | .attempt limit work next => limit.turn work next course busy w timers
  | .settle index change next =>
      some ⟨{ w with trace := w.trace.update index (change w.moment) }, timers, next⟩
  | .pause ms next =>
      if ms = 0 then some ⟨w, timers, next⟩
      else some ⟨w, timers ++ [⟨w.afterWait ms, course, .pause⟩], .paused next⟩

/-- A course when one of its timers has gone off. -/
def Course.wake (c : Course) (purpose : Purpose) : Course :=
  match purpose, c with
  | .pause, .paused next => next
  | .limit, .attempt .running work next => .attempt .expired work next
  | .call number, .attempt limit (.gather f next) k => .attempt limit (.gather (f.wake number) next) k
  | _, c => c

/-! ## Turns make courses smaller -/

omit [Schema.Validator] in
/-- A call that ends makes the fan-out lighter. -/
theorem Fanout.conclude_less {f : Fanout} {place : Nat} {h : Held} {tool : String}
    {outcome : Outcome} {next : Except Error (List Value) → Work (Except Error Value)}
    {work : Work (Except Error Value)} (hplace : f.held[place]? = some h)
    (hready : h.stage.isReady = true) (ht : f.conclude place tool outcome next = .on work) :
    Work.Less work (.gather f next) := by
  unfold Fanout.conclude at ht
  split at ht
  · obtain rfl := Advance.on.inj ht
    refine .advance _ (f.weight_setStage_lt hplace ?_)
    cases hs : h.stage <;> simp_all [Stage.isReady, Stage.weight]
  · cases ht

/-- A turn makes the work smaller, unless it ends the attempt. -/
theorem Work.turn_less {work v : Work (Except Error Value)} {course busy : Nat} {w : World}
    {timers : List Timer} {t : Turn Advance} (ht : work.turn course busy w timers = some t)
    (hv : t.next = .on v) : Work.Less v work := by
  unfold Work.turn at ht
  split at ht
  · cases ht
  · obtain rfl := Option.some.inj ht
    obtain rfl := Advance.on.inj hv
    exact .read _ _
  · obtain rfl := Option.some.inj ht
    obtain rfl := Advance.on.inj hv
    exact .write _ _ _ _
  · rename_i f next
    split at ht
    · obtain rfl := Option.some.inj ht
      obtain rfl := Advance.on.inj hv
      exact .answer _ _ _
    · rename_i hn
      obtain rfl := Option.some.inj ht
      obtain rfl := Advance.on.inj hv
      exact .advance _ (Fanout.weight_collect_lt hn)
    · rename_i place c hn
      obtain rfl := Option.some.inj ht
      have hplace := Fanout.held_of_start hn
      unfold Fanout.start at hv
      split at hv
      · obtain rfl := Advance.on.inj hv
        exact .advance _ (f.weight_setStage_lt hplace (by simp [Stage.weight]))
      · simp only at hv
        split at hv
        · exact Fanout.conclude_less hplace rfl hv
        · obtain rfl := Advance.on.inj hv
          exact .advance _ (f.weight_setStage_lt hplace (by simp [Stage.weight]))
    · rename_i hn
      obtain rfl := Option.some.inj ht
      exact Fanout.conclude_less (Fanout.held_of_conclude hn) rfl hv
    · cases ht

/-- A turn of an attempt makes the course smaller. -/
theorem Limit.turn_less {limit : Limit} {work : Work (Except Error Value)}
    {next : Option (Except Error Value) → Course} {course busy : Nat} {w : World}
    {timers : List Timer} {t : Turn Course}
    (ht : limit.turn work next course busy w timers = some t) :
    Course.Less t.next (.attempt limit work next) := by
  unfold Limit.turn at ht
  split at ht
  · obtain rfl := Option.some.inj ht
    exact .answer _ _ _ _
  · split at ht
    · rename_i hw
      obtain rfl := Option.some.inj ht
      exact .work _ _ (Work.turn_less hw rfl)
    · obtain rfl := Option.some.inj ht
      exact .stop _ rfl
    · split at ht
      · split at ht
        · obtain rfl := Option.some.inj ht
          exact .answer _ _ _ _
        · obtain rfl := Option.some.inj ht
          exact .limit _ _ (by simp [Limit.rank])
      · cases ht
      · obtain rfl := Option.some.inj ht
        exact .answer _ _ _ _

/-- A turn makes a course smaller. -/
theorem Course.turn_less {c : Course} {observer : Observer} {course busy : Nat} {w : World}
    {timers : List Timer} {t : Turn Course} (ht : c.turn observer course busy w timers = some t) :
    Course.Less t.next c := by
  unfold Course.turn at ht
  split at ht
  · cases ht
  · cases ht
  · cases ht
  · obtain rfl := Option.some.inj ht
    exact .begin _ _ _
  · simp only at ht
    split at ht
    · obtain rfl := Option.some.inj ht
      exact .notify _ _
    · obtain rfl := Option.some.inj ht
      exact .stop _ rfl
  · obtain rfl := Option.some.inj ht
    exact .ask _ _
  · obtain rfl := Option.some.inj ht
    exact .inspect _ _
  · exact Limit.turn_less ht
  · obtain rfl := Option.some.inj ht
    exact .settle _ _ _
  · split at ht
    · obtain rfl := Option.some.inj ht
      exact .skip _ _
    · obtain rfl := Option.some.inj ht
      exact .pause _ _

end Wavefront
