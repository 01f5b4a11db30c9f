/-
Turns, case by case: what a turn of a piece of work leads to, and what a turn of a course does to
the trace and to the timers.

There are ten ways for a turn of work to go. What is said of the turns of work elsewhere is said of
these ten, by cases, so that the calls and their reactions are looked into only here.

A turn of an attempt leaves the trace alone. Its work sets and drops timers for calls and no others,
so the limit of the attempt is kept as long as the attempt goes on; when the attempt is over, all
timers of its course are dropped.
-/
import Wavefront.Run.World

set_option autoImplicit false

namespace Wavefront

/-! ## Timers -/

/-- The timers are the same but for those of the calls of a course. -/
def SameButCalls (course : Nat) (ts us : List Timer) : Prop :=
  ∀ p : Timer → Bool, (∀ t, t.course = course → t.purpose.isCall = true → p t = false) →
    us.filter p = ts.filter p

theorem SameButCalls.refl (course : Nat) (ts : List Timer) : SameButCalls course ts ts :=
  fun _ _ => rfl

/-- Setting the timer of a call changes those of calls only. -/
theorem sameButCalls_append (course number due : Nat) (ts : List Timer) :
    SameButCalls course ts (ts ++ [⟨due, course, .call number⟩]) := by
  intro p hp
  rw [List.filter_append, List.filter_cons_of_neg, List.filter_nil, List.append_nil]
  rw [hp _ rfl rfl]
  exact Bool.false_ne_true

/-- Dropping the timers of calls changes those of calls only. -/
theorem sameButCalls_dropCallTimers (course : Nat) (ts : List Timer) :
    SameButCalls course ts (dropCallTimers course ts) := by
  intro p hp
  rw [dropCallTimers, List.filter_filter]
  refine List.filter_congr fun t _ => ?_
  by_cases hcourse : t.course = course
  · by_cases hcall : t.purpose.isCall = true
    · rw [hp t hcourse hcall, Bool.false_and]
    · simp [hcall]
  · simp [hcourse]

/-- Without the timers of the course the timers are the same. -/
theorem SameButCalls.dropTimers_eq {course : Nat} {ts us : List Timer}
    (h : SameButCalls course ts us) : dropTimers course us = dropTimers course ts :=
  h _ fun t hcourse _ => by simp [hcourse]

/-- The timers of a course. -/
def timersOf (course : Nat) (ts : List Timer) : List Timer := ts.filter fun t => t.course = course

theorem mem_timersOf {course : Nat} {ts : List Timer} {t : Timer} :
    t ∈ timersOf course ts ↔ t ∈ ts ∧ t.course = course := by
  rw [timersOf, List.mem_filter, decide_eq_true_eq]

theorem timersOf_append (course : Nat) (ts us : List Timer) :
    timersOf course (ts ++ us) = timersOf course ts ++ timersOf course us :=
  List.filter_append ..

theorem timersOf_singleton_self (due course : Nat) (purpose : Purpose) :
    timersOf course [⟨due, course, purpose⟩] = [⟨due, course, purpose⟩] := by
  rw [timersOf, List.filter_cons_of_pos (by simp), List.filter_nil]

theorem timersOf_singleton_of_ne {course : Nat} {t : Timer} (h : t.course ≠ course) :
    timersOf course [t] = [] := by
  rw [timersOf, List.filter_cons_of_neg (by simpa using h), List.filter_nil]

/-- When the timers of a course are dropped, it has none. -/
theorem timersOf_dropTimers_self (course : Nat) (ts : List Timer) :
    timersOf course (dropTimers course ts) = [] := by
  refine List.filter_eq_nil_iff.2 fun t ht => ?_
  have hne := (List.mem_filter.1 ht).2
  simpa using hne

/-- Dropping the timers of one course leaves those of every other one. -/
theorem timersOf_dropTimers_of_ne {course other : Nat} (h : other ≠ course) (ts : List Timer) :
    timersOf other (dropTimers course ts) = timersOf other ts := by
  rw [timersOf, dropTimers, List.filter_filter]
  refine List.filter_congr fun t _ => ?_
  by_cases hcourse : t.course = other
  · simp [hcourse, h]
  · simp [hcourse]

theorem SameButCalls.timersOf_of_ne {course other : Nat} {ts us : List Timer}
    (h : SameButCalls course ts us) (hne : other ≠ course) : timersOf other us = timersOf other ts :=
  h _ fun t hcourse _ => by simp [hcourse, Ne.symm hne]

/-- A timer of the course that is not for a call is still there. -/
theorem SameButCalls.mem_timersOf {course : Nat} {ts us : List Timer} (h : SameButCalls course ts us)
    {t : Timer} (hcall : t.purpose.isCall = false) (ht : t ∈ timersOf course ts) :
    t ∈ timersOf course us := by
  have hfilter := h (fun t => t.course = course && !t.purpose.isCall) fun t _ hcall => by simp [hcall]
  obtain ⟨hmem, hcourse⟩ := Wavefront.mem_timersOf.1 ht
  have ht' : t ∈ us.filter fun t => t.course = course && !t.purpose.isCall := by
    rw [hfilter]
    exact List.mem_filter.2 ⟨hmem, by simp [hcourse, hcall]⟩
  exact Wavefront.mem_timersOf.2 ⟨(List.mem_filter.1 ht').1, hcourse⟩

/-! ## Work -/

/-- What the tool of a call does when it is called now. -/
def World.reaction (w : World) (c : Call) : Reaction :=
  c.tool.react (w.callCount c.tool.id + 1) c.params c.scope

variable [Schema.Validator]

/-- What a turn of work leads to. -/
inductive Work.Turns (course busy : Nat) (w : World) (timers : List Timer) :
    Work (Except Error Value) → Turn Advance → Prop
  | reads (next : Value → Work (Except Error Value)) :
      Turns course busy w timers (.read next) ⟨w, timers, .on (next w.context)⟩
  | writes (path : String) (value : Value) (next : Option WriteFault → Work (Except Error Value)) :
      Turns course busy w timers (.write path value next)
        ⟨{ w with context := (w.context.set path value).tree }, timers,
          .on (next (w.context.set path value).fault)⟩
  /-- The calls have come to something. -/
  | finishes {f : Fanout} {r : Except Error (List Value)}
      (next : Except Error (List Value) → Work (Except Error Value)) (hn : f.next = .finish r) :
      Turns course busy w timers (.gather f next)
        ⟨w, dropCallTimers course timers, .on (next r)⟩
  | collects {f : Fanout} {v : Value}
      (next : Except Error (List Value) → Work (Except Error Value)) (hn : f.next = .collect v) :
      Turns course busy w timers (.gather f next) ⟨w, timers, .on (.gather (f.collect v) next)⟩
  /-- The tool is not called with the parameters. -/
  | refuses {f : Fanout} {place : Nat} {c : Call} {e : Error}
      (next : Except Error (List Value) → Work (Except Error Value))
      (hn : f.next = .start place c) (hcheck : c.tool.check c.params = .error e) :
      Turns course busy w timers (.gather f next)
        ⟨w, timers, .on (.gather (f.setStage place (.ended (.error e))) next)⟩
  /-- A call that takes time begins. -/
  | begins {f : Fanout} {place : Nat} {c : Call}
      (next : Except Error (List Value) → Work (Except Error Value))
      (hn : f.next = .start place c) (hcheck : c.tool.check c.params = .ok ())
      (hdelay : (w.reaction c).delayMs ≠ 0) :
      Turns course busy w timers (.gather f next)
        ⟨w.enter c busy (w.reaction c),
          timers ++ [⟨(w.enter c busy (w.reaction c)).afterWait (w.reaction c).delayMs, course,
            .call (f.number place)⟩],
          .on (.gather (f.setStage place (.running (w.reaction c).outcome)) next)⟩
  /-- A call that takes no time is over as soon as it has begun. -/
  | returns {f : Fanout} {place : Nat} {c : Call} {r : Except Error Value}
      (next : Except Error (List Value) → Work (Except Error Value))
      (hn : f.next = .start place c) (hcheck : c.tool.check c.params = .ok ())
      (hdelay : (w.reaction c).delayMs = 0)
      (hresult : (w.reaction c).outcome.result c.tool.id = .ok r) :
      Turns course busy w timers (.gather f next)
        ⟨w.enter c busy (w.reaction c), timers, .on (.gather (f.setStage place (.ended r)) next)⟩
  | upsets {f : Fanout} {place : Nat} {c : Call} {message : String}
      (next : Except Error (List Value) → Work (Except Error Value))
      (hn : f.next = .start place c) (hcheck : c.tool.check c.params = .ok ())
      (hdelay : (w.reaction c).delayMs = 0)
      (hresult : (w.reaction c).outcome.result c.tool.id = .error message) :
      Turns course busy w timers (.gather f next)
        ⟨w.enter c busy (w.reaction c), timers, .panicked message⟩
  /-- A call comes to its end. -/
  | concludes {f : Fanout} {place : Nat} {c : Call} {outcome : Outcome} {r : Except Error Value}
      (next : Except Error (List Value) → Work (Except Error Value))
      (hn : f.next = .conclude place c outcome) (hresult : outcome.result c.tool.id = .ok r) :
      Turns course busy w timers (.gather f next)
        ⟨w, timers, .on (.gather (f.setStage place (.ended r)) next)⟩
  | panics {f : Fanout} {place : Nat} {c : Call} {outcome : Outcome} {message : String}
      (next : Except Error (List Value) → Work (Except Error Value))
      (hn : f.next = .conclude place c outcome) (hresult : outcome.result c.tool.id = .error message) :
      Turns course busy w timers (.gather f next) ⟨w, timers, .panicked message⟩

/-- To start a call is a turn, in one of the four ways that the call can go. -/
theorem Work.turns_of_start {f : Fanout} {place : Nat} {c : Call}
    (next : Except Error (List Value) → Work (Except Error Value)) (course busy : Nat) (w : World)
    (timers : List Timer) (hn : f.next = .start place c) :
    Turns course busy w timers (.gather f next) (f.start place c next course busy w timers) := by
  unfold Fanout.start
  cases hcheck : c.tool.check c.params with
  | error e => exact .refuses next hn hcheck
  | ok _ =>
    simp only
    split
    · rename_i hdelay
      unfold Fanout.conclude
      split
      · rename_i hresult
        exact .returns next hn hcheck hdelay hresult
      · rename_i hresult
        exact .upsets next hn hcheck hdelay hresult
    · rename_i hdelay
      exact .begins next hn hcheck hdelay

/-- Every turn of work goes in one of the ten ways. -/
theorem Work.turns_of_turn {work : Work (Except Error Value)} {course busy : Nat} {w : World}
    {timers : List Timer} {t : Turn Advance} (ht : work.turn course busy w timers = some t) :
    Turns course busy w timers work t := by
  cases work with
  | done r => cases ht
  | read next =>
    obtain rfl := Option.some.inj ht
    exact .reads next
  | write path value next =>
    obtain rfl := Option.some.inj ht
    exact .writes path value next
  | gather f next =>
    rw [turn] at ht
    split at ht
    · rename_i hn
      obtain rfl := Option.some.inj ht
      exact .finishes next hn
    · rename_i hn
      obtain rfl := Option.some.inj ht
      exact .collects next hn
    · rename_i hn
      obtain rfl := Option.some.inj ht
      exact turns_of_start next course busy w timers hn
    · rename_i hn
      obtain rfl := Option.some.inj ht
      unfold Fanout.conclude
      split
      · rename_i hresult
        exact .concludes next hn hresult
      · rename_i hresult
        exact .panics next hn hresult
    · cases ht

/-- Work without a turn has ended, or all its calls are under way. -/
theorem Work.waits_of_turn_eq_none {work : Work (Except Error Value)} {course busy : Nat} {w : World}
    {timers : List Timer} (ht : work.turn course busy w timers = none) :
    (∃ r, work = .done r) ∨ ∃ f next, work = .gather f next ∧ f.next = .wait := by
  cases work with
  | done r => exact .inl ⟨r, rfl⟩
  | read next => cases ht
  | write path value next => cases ht
  -- of the five demands of a fan-out, only waiting has no turn
  | gather f next =>
    rw [turn] at ht
    split at ht
    · cases ht
    · cases ht
    · cases ht
    · cases ht
    · rename_i hn
      exact .inr ⟨f, next, rfl, hn⟩

/-- What a turn of work makes of the world: nothing, a write to the context, or a call of a tool. -/
inductive World.Worked (w : World) : World → Prop
  | rests : Worked w w
  | writes (context : Value) : Worked w { w with context := context }
  | calls (c : Call) (busy : Nat) (r : Reaction) : Worked w (w.enter c busy r)

omit [Schema.Validator] in
theorem World.Worked.trace {w w' : World} (h : w.Worked w') : w'.trace = w.trace := by
  cases h <;> rfl

/-- All that a turn of work changes is what work may change. -/
theorem Work.worked_turn {work : Work (Except Error Value)} {course busy : Nat} {w : World}
    {timers : List Timer} {t : Turn Advance} (ht : work.turn course busy w timers = some t) :
    w.Worked t.world := by
  cases turns_of_turn ht with
  | writes _ _ _ => exact .writes _
  | begins _ _ _ _ => exact .calls _ _ _
  | returns _ _ _ _ _ => exact .calls _ _ _
  | upsets _ _ _ _ _ => exact .calls _ _ _
  | _ => exact .rests

/-- A turn of work leaves the trace alone. -/
theorem Work.trace_turn {work : Work (Except Error Value)} {course busy : Nat} {w : World}
    {timers : List Timer} {t : Turn Advance} (ht : work.turn course busy w timers = some t) :
    t.world.trace = w.trace :=
  (worked_turn ht).trace

/-- A turn of work sets and drops timers of calls only. -/
theorem Work.sameButCalls_turn {work : Work (Except Error Value)} {course busy : Nat} {w : World}
    {timers : List Timer} {t : Turn Advance} (ht : work.turn course busy w timers = some t) :
    SameButCalls course timers t.timers := by
  cases turns_of_turn ht with
  | finishes _ _ => exact sameButCalls_dropCallTimers _ _
  | begins _ _ _ _ => exact sameButCalls_append _ _ _ _
  | _ => exact .refl _ _

/-! ## Attempts -/

/-- What a turn of an attempt does. -/
inductive Limit.Does (limit : Limit) (next : Option (Except Error Value) → Course)
    (course busy : Nat) (w : World) (timers : List Timer) :
    Work (Except Error Value) → Turn Course → Prop
  /-- The work has ended, and the attempt ends with its result. -/
  | ends (r : Except Error Value) :
      Does limit next course busy w timers (.done r)
        ⟨w, dropTimers course timers, next (some r)⟩
  /-- The work has a turn, and goes on. -/
  | works {work work' : Work (Except Error Value)} {world : World} {timers' : List Timer}
      (hturn : work.turn course busy w timers = some ⟨world, timers', .on work'⟩) :
      Does limit next course busy w timers work ⟨world, timers', .attempt limit work' next⟩
  | panics {work : Work (Except Error Value)} {world : World} {timers' : List Timer}
      {message : String}
      (hturn : work.turn course busy w timers = some ⟨world, timers', .panicked message⟩) :
      Does limit next course busy w timers work ⟨world, dropTimers course timers', .abort message⟩
  /-- The work has to wait for the first time, and the time limit is set off. -/
  | limits {work : Work (Except Error Value)} (due : Nat)
      (hturn : work.turn course busy w timers = none) :
      Does limit next course busy w timers work
        ⟨w, timers ++ [⟨due, course, .limit⟩], .attempt .running work next⟩
  /-- The work has to wait, and there is no time left. -/
  | stops {work : Work (Except Error Value)} (hturn : work.turn course busy w timers = none) :
      Does limit next course busy w timers work ⟨w, dropTimers course timers, next none⟩

/-- What a turn of an attempt leads to. -/
inductive Limit.Turns (limit : Limit) (work : Work (Except Error Value))
    (next : Option (Except Error Value) → Course) (course : Nat) (w : World)
    (timers : List Timer) : Turn Course → Prop
  /-- The attempt is over. -/
  | ends {world : World} (r : Option (Except Error Value)) (htrace : world.trace = w.trace) :
      Turns limit work next course w timers ⟨world, dropTimers course timers, next r⟩
  /-- A tool panics. -/
  | panics {world : World} (message : String) (htrace : world.trace = w.trace) :
      Turns limit work next course w timers ⟨world, dropTimers course timers, .abort message⟩
  /-- The work goes on. -/
  | works {world : World} {timers' : List Timer} (work' : Work (Except Error Value))
      (htrace : world.trace = w.trace) (htimers : SameButCalls course timers timers') :
      Turns limit work next course w timers ⟨world, timers', .attempt limit work' next⟩
  /-- The time limit is set off. -/
  | limits (due : Nat) :
      Turns limit work next course w timers
        ⟨w, timers ++ [⟨due, course, .limit⟩], .attempt .running work next⟩

section Attempts

variable {limit : Limit} {work : Work (Except Error Value)}
  {next : Option (Except Error Value) → Course} {course busy : Nat} {w : World}
  {timers : List Timer} {t : Turn Course}

/-- A turn of an attempt goes on with its work, or ends the attempt one way or the other. -/
theorem Limit.does_of_turn (ht : limit.turn work next course busy w timers = some t) :
    limit.Does next course busy w timers work t := by
  unfold Limit.turn at ht
  split at ht
  · obtain rfl := Option.some.inj ht
    exact .ends _
  · split at ht
    · rename_i hturn
      obtain rfl := Option.some.inj ht
      exact .works hturn
    · rename_i hturn
      obtain rfl := Option.some.inj ht
      exact .panics hturn
    · rename_i hturn
      split at ht
      · split at ht
        · obtain rfl := Option.some.inj ht
          exact .stops hturn
        · obtain rfl := Option.some.inj ht
          exact .limits _ hturn
      · cases ht
      · obtain rfl := Option.some.inj ht
        exact .stops hturn

/-- An attempt without a turn has set off its time limit, and its work has to wait. -/
theorem Limit.waits_of_turn_eq_none (ht : limit.turn work next course busy w timers = none) :
    limit = .running ∧ (∀ r, work ≠ .done r) ∧ work.turn course busy w timers = none := by
  unfold Limit.turn at ht
  split at ht
  · cases ht
  -- the work itself has no turn, and the limit has been set already
  · rename_i hdone
    split at ht
    · cases ht
    · cases ht
    · rename_i hturn
      split at ht
      · split at ht <;> cases ht
      · exact ⟨rfl, hdone, hturn⟩
      · cases ht

/-- What a turn of an attempt means to trace and timers. -/
theorem Limit.turns_of_turn (ht : limit.turn work next course busy w timers = some t) :
    limit.Turns work next course w timers t := by
  cases does_of_turn ht with
  | ends r => exact .ends _ rfl
  | works hturn => exact .works _ (Work.trace_turn hturn :) (Work.sameButCalls_turn hturn)
  | @panics _ world timers' message hturn =>
    have hdrop : dropTimers course timers' = dropTimers course timers :=
      (Work.sameButCalls_turn hturn).dropTimers_eq
    rw [hdrop]
    exact .panics _ (Work.trace_turn hturn :)
  | limits due _ => exact .limits due
  | stops _ => exact .ends _ rfl

/-- All that a turn of an attempt changes is what work may change. -/
theorem Limit.worked_turn (ht : limit.turn work next course busy w timers = some t) :
    w.Worked t.world := by
  cases does_of_turn ht with
  | works hturn => exact Work.worked_turn hturn
  | panics hturn => exact Work.worked_turn hturn
  | _ => exact .rests

end Attempts

/-! ## Courses -/

/-- What a turn of a course leads to. -/
inductive Course.Turns (observer : Observer) (course : Nat) (w : World) (timers : List Timer) :
    Course → Turn Course → Prop
  | begin (entry : Moment → Entry) (next : Nat → Course) :
      Turns observer course w timers (.begin entry next)
        ⟨{ w with trace := (w.trace.begin (entry w.moment)).2 }, timers,
          next w.trace.entries.length⟩
  | tells (notice : Notice) (next : Course) :
      Turns observer course w timers (.notify notice next) ⟨w.log (.told notice), timers, next⟩
  /-- The host panics. -/
  | upsets {notice : Notice} (next : Course) {message : String}
      (h : observer notice = some message) :
      Turns observer course w timers (.notify notice next)
        ⟨w.log (.told notice), timers, .abort message⟩
  | asks (next : Bool → Course) :
      Turns observer course w timers (.ask next) ⟨w, timers, next w.cancelled⟩
  | inspects (next : Value → Course) :
      Turns observer course w timers (.inspect next) ⟨w, timers, next w.context⟩
  | attempts {limit : Limit} {work : Work (Except Error Value)}
      {next : Option (Except Error Value) → Course} {t : Turn Course}
      (h : limit.Turns work next course w timers t) :
      Turns observer course w timers (.attempt limit work next) t
  | settles (index : Nat) (change : Moment → Entry → Entry) (next : Course) :
      Turns observer course w timers (.settle index change next)
        ⟨{ w with trace := w.trace.update index (change w.moment) }, timers, next⟩
  | skips (next : Course) : Turns observer course w timers (.pause 0 next) ⟨w, timers, next⟩
  | pauses (ms due : Nat) (next : Course) :
      Turns observer course w timers (.pause ms next)
        ⟨w, timers ++ [⟨due, course, .pause⟩], .paused next⟩

/-- Every turn of a course goes in one of the ways that there are. -/
theorem Course.turns_of_turn {c : Course} {observer : Observer} {course busy : Nat} {w : World}
    {timers : List Timer} {t : Turn Course} (ht : c.turn observer course busy w timers = some t) :
    Course.Turns observer course w timers c t := by
  unfold Course.turn at ht
  split at ht
  · cases ht
  · cases ht
  · cases ht
  · obtain rfl := Option.some.inj ht
    exact .begin _ _
  · simp only at ht
    split at ht
    · obtain rfl := Option.some.inj ht
      exact .tells _ _
    · obtain rfl := Option.some.inj ht
      exact .upsets _ ‹_›
  · obtain rfl := Option.some.inj ht
    exact .asks _
  · obtain rfl := Option.some.inj ht
    exact .inspects _
  · exact .attempts (Limit.turns_of_turn ht)
  · obtain rfl := Option.some.inj ht
    exact .settles _ _ _
  · split at ht
    · rename_i hms
      obtain rfl := Option.some.inj ht
      rw [hms]
      exact .skips _
    · obtain rfl := Option.some.inj ht
      exact .pauses _ _ _

/-- A turn leaves the timers of other courses alone. -/
theorem Course.timersOf_turn_of_ne {c : Course} {observer : Observer} {course busy : Nat}
    {w : World} {timers : List Timer} {t : Turn Course}
    (ht : c.turn observer course busy w timers = some t) {other : Nat} (hne : other ≠ course) :
    timersOf other t.timers = timersOf other timers := by
  -- a timer that is set is always one of the course itself
  have hmore : ∀ (due : Nat) (purpose : Purpose),
      timersOf other (timers ++ [⟨due, course, purpose⟩]) = timersOf other timers := by
    intro due purpose
    rw [timersOf_append, timersOf_singleton_of_ne (Ne.symm hne), List.append_nil]
  cases turns_of_turn ht with
  | attempts hturn =>
    cases hturn with
    | ends _ _ => exact timersOf_dropTimers_of_ne hne timers
    | panics _ _ => exact timersOf_dropTimers_of_ne hne timers
    | works _ _ htimers => exact htimers.timersOf_of_ne hne
    | limits due => exact hmore due .limit
  | pauses _ due _ => exact hmore due .pause
  | _ => rfl

/-- Who has no turn has ended, waits for a permit, is paused, or waits within its time limit. -/
theorem Course.waits_of_turn_eq_none {c : Course} {observer : Observer} {course busy : Nat}
    {w : World} {timers : List Timer} (ht : c.turn observer course busy w timers = none)
    (hended : ∀ ending, c ≠ .ended ending) (hpermit : ∀ next, c ≠ .permit next) :
    (∃ next, c = .paused next) ∨ ∃ work next, c = .attempt .running work next := by
  unfold Course.turn at ht
  split at ht
  · exact absurd rfl (hended _)
  · exact absurd rfl (hpermit _)
  · exact .inl ⟨_, rfl⟩
  · cases ht
  · simp only at ht
    split at ht <;> cases ht
  · cases ht
  · cases ht
  -- an attempt waits for a call, and has its limit running
  · obtain ⟨rfl, -, -⟩ := Limit.waits_of_turn_eq_none ht
    exact .inr ⟨_, _, rfl⟩
  · cases ht
  · split at ht <;> cases ht

end Wavefront
