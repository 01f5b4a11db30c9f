/-
Moves: everything that can happen next while a graph is executed.

The run of a wave settles whose turn it is by a line. A host with several workers, or with a clock
of its own, does not: any course that can go on may be the next to do so, any timer may go off
before or after, and the run may be cancelled between any two turns. A move is one such event. The
turns themselves are those of the run, since a turn is an atom for every host.

So a step of a wave's run is a move, and what holds of every move and of every way from one to the
next holds of the run. An execution goes through the waves of a graph in their order, each of them
by moves and to its end.
-/
import Mathlib.Logic.Basic
import Mathlib.Logic.Relation
import Wavefront.Run.Basic

set_option autoImplicit false

namespace Wavefront

variable [Schema.Validator]

namespace Wave

/-- What can happen next in a wave. -/
inductive Move (observer : Observer) : Wave → Wave → Prop
  /-- Some course in the line has a turn. -/
  | turn {w : Wave} {i : Nat} {before after : List Nat} (h : w.ready = before ++ i :: after) :
      Move observer w (turn { w with ready := before ++ after } observer i)
  /-- Some timer goes off. -/
  | fire {w : Wave} {t : Timer} {before after : List Timer} (h : w.timers = before ++ t :: after) :
      Move observer w (fire { w with timers := before ++ after } t)
  /-- Time passes. -/
  | wait (w : Wave) (ms : Nat) :
      Move observer w { w with world := { w.world with now := w.world.now + ms } }
  /-- The run is cancelled. -/
  | cancel (w : Wave) : Move observer w { w with world := { w.world with cancelled := true } }

/-- Every course has come to its end, and note has been taken of it. -/
def IsOver (w : Wave) : Prop := ∀ i < w.courses.length, i ∈ w.endings.map Prod.fst

/-! ## Moves, case by case -/

/-- What a move makes of a wave. -/
inductive Change (observer : Observer) (w : Wave) : Wave → Prop
  /-- A course acts and keeps its place at the head of the line. -/
  | acts {i : Nat} {before after : List Nat} {c : Course} {t : Turn Course}
      (hready : w.ready = before ++ i :: after) (hc : w.courses[i]? = some c)
      (hturn : c.turn observer i w.busy w.world w.timers = some t) :
      Change observer w
        { w with
          world := t.world
          timers := t.timers
          courses := w.courses.set i t.next
          ready := i :: (before ++ after) }
  /-- A course has to wait and leaves the line. -/
  | rests {i : Nat} {before after : List Nat} {c : Course}
      (hready : w.ready = before ++ i :: after) (hc : w.courses[i]? = some c)
      (hended : ∀ ending, c ≠ .ended ending) (hpermit : ∀ next, c ≠ .permit next)
      (hturn : c.turn observer i w.busy w.world w.timers = none) :
      Change observer w { w with ready := before ++ after }
  /-- A course gets a permit. -/
  | enters {i : Nat} {before after : List Nat} {next : Course}
      (hready : w.ready = before ++ i :: after) (hc : w.courses[i]? = some (.permit next))
      (hpermits : w.permits ≠ 0) :
      Change observer w
        { w with
          permits := w.permits - 1
          courses := w.courses.set i next
          ready := i :: (before ++ after) }
  /-- A course begins to wait for a permit. -/
  | queues {i : Nat} {before after : List Nat} {next : Course}
      (hready : w.ready = before ++ i :: after) (hc : w.courses[i]? = some (.permit next))
      (hpermits : w.permits = 0) :
      Change observer w { w with ready := before ++ after, waiting := w.waiting ++ [i] }
  /-- A course ends. -/
  | ends {i : Nat} {before after : List Nat} {ending : Ending}
      (hready : w.ready = before ++ i :: after) (hc : w.courses[i]? = some (.ended ending)) :
      Change observer w (release (record { w with ready := before ++ after } i ending))
  /-- A place in the line is that of no course. -/
  | misses {i : Nat} {before after : List Nat}
      (hready : w.ready = before ++ i :: after) (hc : w.courses[i]? = none) :
      Change observer w { w with ready := before ++ after }
  /-- A timer goes off and lets its course go on. -/
  | wakes {t : Timer} {before after : List Timer} {c : Course}
      (htimers : w.timers = before ++ t :: after) (hc : w.courses[t.course]? = some c) :
      Change observer w
        { w with
          timers := before ++ after
          world := { w.world with now := max w.world.now t.due }
          courses := w.courses.set t.course (c.wake t.purpose)
          ready := join t.course w.ready }
  /-- A timer goes off that is that of no course. -/
  | lapses {t : Timer} {before after : List Timer}
      (htimers : w.timers = before ++ t :: after) (hc : w.courses[t.course]? = none) :
      Change observer w { w with timers := before ++ after }
  /-- Time passes, or the run is cancelled. -/
  | outside (now : Nat) (cancelled : Bool) (hcancelled : w.world.cancelled = true → cancelled = true) :
      Change observer w { w with world := { w.world with now := now, cancelled := cancelled } }

/-- What a move changes, case by case. -/
theorem Move.change {observer : Observer} {v w : Wave} (h : Move observer w v) :
    Change observer w v := by
  cases h with
  | @turn i before after hready =>
    unfold Wave.turn
    split
    · rename_i hc
      exact .misses hready hc
    · rename_i ending hc
      exact .ends hready hc
    · rename_i next hc
      split
      · rename_i hpermits
        exact .queues hready hc hpermits
      · rename_i hpermits
        exact .enters hready hc hpermits
    -- the course is at work, and its own turn either does something or finds it waiting
    · rename_i c hended hpermit hc
      split
      · rename_i hturn
        exact .rests hready hc hended hpermit hturn
      · rename_i t hturn
        exact .acts hready hc hturn
  | @fire t before after htimers =>
    unfold Wave.fire
    split
    · rename_i hc
      exact .lapses htimers hc
    · rename_i c hc
      exact .wakes htimers hc
  | wait ms => exact .outside (w.world.now + ms) w.world.cancelled id
  | cancel => exact .outside w.world.now true fun _ => rfl

/-! ## The run is made of moves -/

omit [Schema.Validator] in
/-- The timer extracted is one of those that were set, and the others are left in their order. -/
theorem extract?_eq_some {time : Nat} {timers rest : List Timer} {t : Timer}
    (h : extract? time timers = some (t, rest)) :
    ∃ before after, timers = before ++ t :: after ∧ rest = before ++ after := by
  induction timers generalizing rest with
  | nil => simp [extract?] at h
  | cons first timers ih =>
    unfold extract? at h
    split at h
    · obtain ⟨rfl, rfl⟩ := Prod.mk.inj (Option.some.inj h)
      exact ⟨[], timers, rfl, rfl⟩
    · obtain ⟨⟨u, others⟩, hu, heq⟩ := Option.map_eq_some_iff.1 h
      obtain ⟨rfl, rfl⟩ := Prod.mk.inj heq
      obtain ⟨before, after, rfl, rfl⟩ := ih hu
      exact ⟨first :: before, after, rfl, rfl⟩

/-- A step of the run of a wave is a move. -/
theorem move_of_step? {observer : Observer} {v w : Wave} (h : w.step? observer = some v) :
    Move observer w v := by
  unfold step? at h
  split at h
  · rename_i t timers ht
    obtain rfl := Option.some.inj h
    obtain ⟨before, after, hbefore, rfl⟩ := extract?_eq_some ht
    exact .fire hbefore
  · split at h
    · rename_i i ready hready
      obtain rfl := Option.some.inj h
      have hhead : w.ready = [] ++ i :: ready := hready
      exact .turn hhead
    · cases h

/-- The run of a wave is made of moves. -/
theorem moves_run (observer : Observer) (w : Wave) :
    Relation.ReflTransGen (Move observer) w (w.run observer) := by
  -- along the steps of the run
  induction w using run.induct observer with
  | case1 w v h ih =>
    rw [run.eq_def]
    split
    · rename_i v' h'
      obtain rfl := Option.some.inj (h.symm.trans h')
      exact .head (move_of_step? h) ih
    · exact .refl
  | case2 w h =>
    rw [run.eq_def]
    split
    · rename_i v' h'
      rw [h] at h'
      cases h'
    · exact .refl

/-- The wave after so many steps. -/
def stepped (observer : Observer) : Nat → Wave → Wave
  | 0, w => w
  | k + 1, w =>
      match w.step? observer with
      | some v => stepped observer k v
      | none => w

/-- Any number of steps of the run are moves. -/
theorem moves_stepped (observer : Observer) (k : Nat) (w : Wave) :
    Relation.ReflTransGen (Move observer) w (w.stepped observer k) := by
  induction k generalizing w with
  | zero => exact .refl
  | succ k ih =>
    rw [stepped]
    split
    · rename_i v h
      exact .head (move_of_step? h) (ih v)
    · exact .refl

/-- The run of a wave goes on until there is no step left. -/
theorem step?_run (observer : Observer) (w : Wave) : (w.run observer).step? observer = none := by
  induction w using run.induct observer with
  | case1 w v h ih =>
    rw [run.eq_def]
    split
    · rename_i v' h'
      obtain rfl := Option.some.inj (h.symm.trans h')
      exact ih
    · assumption
  | case2 w h =>
    rw [run.eq_def]
    split
    · rename_i v' h'
      rw [h] at h'
      cases h'
    · exact h

omit [Schema.Validator] in
/-- Where timers are set, one of them is due at the earliest time of all. -/
theorem extract?_earliest (default : Nat) {timers : List Timer} (h : timers ≠ []) :
    extract? (earliest default timers) timers ≠ none := by
  -- the fold starts from the first timer, so the induction is for any start
  have hmem : ∀ (timers : List Timer) (time : Nat) (b : Nat),
      timers.foldl (fun time t => min time t.due) b ≤ time →
        b ≤ time ∨ extract? time timers ≠ none := by
    intro timers
    induction timers with
    | nil => exact fun time b hb => .inl hb
    | cons t timers ih =>
      intro time b hb
      rw [List.foldl_cons] at hb
      rw [extract?]
      split
      · exact .inr (Option.some_ne_none _)
      · rename_i hdue
        rcases ih time _ hb with hmin | hsome
        · refine .inl ?_
          omega
        · refine .inr fun hnone => hsome (Option.map_eq_none_iff.1 hnone)
  obtain ⟨t, timers, rfl⟩ := List.exists_cons_of_ne_nil h
  rw [earliest, extract?]
  split
  · exact Option.some_ne_none _
  · rename_i hdue
    rcases hmem timers _ t.due (Nat.le_refl _) with hle | hsome
    · exact absurd hle hdue
    · exact fun hnone => hsome (Option.map_eq_none_iff.1 hnone)

/-- When there is no step left, no course is in the line and no timer is set. -/
theorem idle_of_step?_eq_none {observer : Observer} {w : Wave} (h : w.step? observer = none) :
    w.ready = [] ∧ w.timers = [] := by
  unfold step? at h
  split at h
  · cases h
  · rename_i hnone
    split at h
    · cases h
    · rename_i hready
      refine ⟨hready, by_contra fun htimers => ?_⟩
      -- with nobody in the line, time goes on to the earliest timer, and that one would go off
      rw [horizon, hready] at hnone
      exact extract?_earliest w.world.now htimers hnone

end Wave

/-! ## Executions -/

/-- A graph that is being executed. -/
structure Execution where
  /-- The waves that are over, in their order. -/
  past : List Wave := []
  /-- The wave that is under way. -/
  wave : Wave
  /-- The nodes of the waves to come. -/
  waves : List (List Node)

namespace Execution

/-- What can happen next while a graph is executed. -/
inductive Step (o : Options) : Execution → Execution → Prop
  /-- Something happens in the wave that is under way. -/
  | move {e : Execution} {w : Wave} (h : Wave.Move o.observer e.wave w) :
      Step o e { e with wave := w }
  /-- The wave is over, and the next one begins. -/
  | next {e : Execution} {nodes : List Node} {waves : List (List Node)}
      (hover : e.wave.IsOver) (hwaves : e.waves = nodes :: waves) :
      Step o e
        { past := e.past ++ [e.wave]
          wave := .ofNodes o.settings e.wave.world nodes
          waves := waves }

/-- The last wave is over. -/
def IsOver (e : Execution) : Prop := e.wave.IsOver ∧ e.waves = []

/-- All waves so far. Before the first one there is a wave without nodes, so a wave has the number
of its place. -/
def allWaves (e : Execution) : List Wave := e.past ++ [e.wave]

/-- The first error, wave by wave. -/
def firstError? (e : Execution) : Option Error := e.allWaves.findSome? Wave.firstError?

/-- Runs each wave by its line. -/
def run (o : Options) : List Wave → Wave → List (List Node) → Execution
  | past, wave, [] => { past := past, wave := wave.run o.observer, waves := [] }
  | past, wave, nodes :: waves =>
      let w := wave.run o.observer
      run o (past ++ [w]) (.ofNodes o.settings w.world nodes) waves

/-- Runs so many waves by their lines and takes so many steps in the next one. -/
def pause (o : Options) (steps : Nat) : Nat → List Wave → Wave → List (List Node) → Execution
  | n + 1, past, wave, nodes :: waves =>
      let w := wave.run o.observer
      pause o steps n (past ++ [w]) (.ofNodes o.settings w.world nodes) waves
  | _, past, wave, waves => { past := past, wave := wave.stepped o.observer steps, waves := waves }

/-- The moves of the present wave are steps of the execution. -/
theorem steps_of_moves {o : Options} {past : List Wave} {w v : Wave} {waves : List (List Node)}
    (h : Relation.ReflTransGen (Wave.Move o.observer) w v) :
    Relation.ReflTransGen (Step o) ⟨past, w, waves⟩ ⟨past, v, waves⟩ := by
  induction h with
  | refl => exact .refl
  | tail _ hmove ih => exact ih.tail (.move (e := ⟨past, _, waves⟩) hmove)

end Execution

namespace Graph

/-- The execution of a graph before its first wave. -/
def start (g : Graph) (context : Value) (mode : Mode) (o : Options) : Execution where
  wave := .ofNodes o.settings (o.world context mode) []
  waves := g.schedule.waves

/-- The execution of a graph can come to this point, whatever the order of turns. -/
def Reaches (g : Graph) (context : Value) (mode : Mode) (o : Options) (e : Execution) : Prop :=
  Relation.ReflTransGen (Execution.Step o) (g.start context mode o) e

/-- The report of an execution that is over. -/
def reportOf (g : Graph) (o : Options) (e : Execution) : Report :=
  let world := e.wave.world
  let trace := world.trace.finish world.moment
    (if o.settings.enableTrace then some world.context else none)
  let error := match g.schedule.stuck with
    | [] => e.firstError?
    | stuck => some (.deadlock (stuck.map Node.id))
  { result := match error with
      | some e => .error { error := e, trace := some trace }
      | none => .ok { context := world.context, trace := trace }
    events := world.events
    peak := world.peak
    cancelled := world.cancelled }

/-- The execution of a graph whose waves all run by their lines. -/
def execution (g : Graph) (context : Value) (mode : Mode) (o : Options) : Execution :=
  .run o [] (.ofNodes o.settings (o.world context mode) []) g.schedule.waves

/-- The execution by lines when so many waves are over and so many steps have been taken in the next
one; before the first wave there is one without nodes. -/
def paused (g : Graph) (context : Value) (mode : Mode) (o : Options) (waves steps : Nat) : Execution :=
  .pause o steps waves [] (.ofNodes o.settings (o.world context mode) []) g.schedule.waves

end Graph

/-! ## The execution by lines is one of the executions -/

/-- A wave with nobody in line and no timers does not run. -/
theorem Wave.run_of_idle {observer : Observer} {w : Wave} (hready : w.ready = [])
    (htimers : w.timers = []) : w.run observer = w := by
  have hnone : w.step? observer = none := by
    rw [step?, htimers, hready]
    rfl
  rw [run.eq_def]
  split
  · rename_i v h
    rw [hnone] at h
    cases h
  · rfl

omit [Schema.Validator] in
theorem Wave.firstError?_of_endings {w : Wave} (h : w.endings = []) : w.firstError? = none := by
  rw [firstError?, h]
  rfl

namespace Execution

/-- Running the waves one behind the other leaves the world and the first error of the execution. -/
theorem runWaves_eq (o : Options) (past : List Wave) (wave : Wave) (first : Option Error)
    (hfirst : past.findSome? Wave.firstError? = first) (waves : List (List Node)) :
    runWaves o (wave.run o.observer).world (first.or (wave.run o.observer).firstError?) waves
      = ((run o past wave waves).wave.world, (run o past wave waves).firstError?) := by
  induction waves generalizing past wave first with
  | nil => rw [runWaves, run, firstError?, allWaves, List.findSome?_append, hfirst,
      List.findSome?_singleton]
  | cons nodes waves ih =>
    have hfirst' : (past ++ [wave.run o.observer]).findSome? Wave.firstError?
        = first.or (wave.run o.observer).firstError? := by
      rw [List.findSome?_append, hfirst, List.findSome?_singleton]
    exact ih _ _ _ hfirst'

end Execution

namespace Graph

/-- A graph is executed as its waves run by their lines. -/
theorem execute_eq (g : Graph) (context : Value) (mode : Mode) (o : Options) :
    g.execute context mode o = g.reportOf o (g.execution context mode o) := by
  -- executions begin with an empty wave, which has nothing to run and reports no error
  have hidle : (Wave.ofNodes o.settings (o.world context mode) []).run o.observer
      = Wave.ofNodes o.settings (o.world context mode) [] := Wave.run_of_idle rfl rfl
  have hruns := Execution.runWaves_eq o [] (.ofNodes o.settings (o.world context mode) []) none rfl
    g.schedule.waves
  rw [hidle, Wave.firstError?_of_endings rfl] at hruns
  have hworld : (Wave.ofNodes o.settings (o.world context mode) []).world = o.world context mode :=
    rfl
  rw [hworld, Option.or_none] at hruns
  rw [execute, hruns]
  rfl

end Graph

end Wavefront
