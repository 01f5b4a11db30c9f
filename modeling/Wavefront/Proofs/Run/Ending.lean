/-
How courses end, and what a run can fail with.

What holds of every end that a course can still come to holds of the end that it comes to: a turn, a
timer and a step of a wave keep it, so a wave does. A panic may end a course anywhere, so of the
ends by a panic it has to hold as well. The courses of nodes fail in one way only, with the failure
of their node, and that is all that the waves of a run ever report.
-/
import Wavefront.Proofs.Run.Turn
import Wavefront.Run.Basic

set_option autoImplicit false

namespace Wavefront

/-- Every end that the course can come to by itself has the property. -/
def Course.Ends (P : Ending → Prop) : Course → Prop
  | ended ending => P ending
  | permit next => next.Ends P
  | begin _ next => ∀ index, (next index).Ends P
  | notify _ next => next.Ends P
  | ask next => ∀ cancelled, (next cancelled).Ends P
  | inspect next => ∀ context, (next context).Ends P
  | attempt _ _ next => ∀ r, (next r).Ends P
  | settle _ _ next => next.Ends P
  | pause _ next => next.Ends P
  | paused next => next.Ends P

variable [Schema.Validator]

section Ends

variable {P : Ending → Prop}

/-! ## Courses -/

namespace Course

/-- Whatever attempts are left, a node passes or fails with its own failure. -/
theorem ends_attempts (hpassed : P .passed) {n : Node}
    (hfailed : ∀ message, P (.failed (.nodeFailed n.id message))) (s : Settings) (index : Nat)
    (left retry : Nat) : (attempts s n index left retry).Ends P := by
  induction left generalizing retry with
  | zero =>
    rw [attempts]
    intro cancelled
    cases cancelled with
    | true => exact hpassed
    | false =>
      intro context
      simp only
      cases requireContext n.id n.policy.inputSchema context with
      | error e => exact hfailed e.message
      | ok _ =>
        rintro (_ | (e | output))
        · exact hfailed _
        · exact hfailed e.message
        · exact hpassed
  | succ left ih =>
    rw [attempts]
    intro cancelled
    cases cancelled with
    | true => exact hpassed
    | false =>
      intro context
      simp only
      cases requireContext n.id n.policy.inputSchema context with
      | error e => exact ih (retry + 1)
      | ok _ =>
        rintro (_ | (e | output))
        · exact ih (retry + 1)
        · exact ih (retry + 1)
        · exact hpassed

/-- The course of a node passes or fails with the failure of the node. -/
theorem ends_ofNode (hpassed : P .passed) (s : Settings) {n : Node}
    (hfailed : ∀ message, P (.failed (.nodeFailed n.id message))) : (ofNode s n).Ends P :=
  fun index => ends_attempts hpassed hfailed s index (retriesOf s n) 0

variable (habort : ∀ message, P (.aborted message))

include habort in
/-- A turn within a time limit has no new ends, but an end by a panic. -/
theorem ends_limit_turn {limit : Limit} {work : Work (Except Error Value)}
    {next : Option (Except Error Value) → Course} (hnext : ∀ r, (next r).Ends P)
    {course busy : Nat} {w : World} {timers : List Timer} {t : Turn Course}
    (ht : limit.turn work next course busy w timers = some t) : t.next.Ends P := by
  cases Limit.does_of_turn ht with
  | ends r => exact hnext (some r)
  | works _ => exact hnext
  | panics _ => exact habort _
  | limits _ _ => exact hnext
  | stops _ => exact hnext none

include habort in
/-- A turn keeps what holds of every end. -/
theorem ends_turn {c : Course} (hc : c.Ends P) {observer : Observer} {course busy : Nat} {w : World}
    {timers : List Timer} {t : Turn Course} (ht : c.turn observer course busy w timers = some t) :
    t.next.Ends P := by
  cases turns_of_turn ht with
  | attempts _ => exact ends_limit_turn habort hc ht
  | begin entry next => exact hc _
  | tells notice next => exact hc
  | upsets next _ => exact habort _
  | asks next => exact hc _
  | inspects next => exact hc _
  | settles index change next => exact hc
  | skips next => exact hc
  | pauses ms due next => exact hc

omit [Schema.Validator] in
/-- Waking a course gives it no new ends. -/
theorem ends_wake {c : Course} (hc : c.Ends P) (purpose : Purpose) : (c.wake purpose).Ends P := by
  unfold wake
  split
  · exact hc
  · exact hc
  · exact hc
  · exact hc

end Course

/-! ## Waves -/

/-- What holds of every end of the courses of a wave, also of those that have come. -/
structure Wave.Ends (P : Ending → Prop) (w : Wave) : Prop where
  courses : ∀ c ∈ w.courses, c.Ends P
  endings : ∀ e ∈ w.endings, P e.2

namespace Wave

/-- The courses of nodes end as nodes do. -/
theorem ends_ofNodes (hpassed : P .passed) (s : Settings) (world : World) {nodes : List Node}
    (hfailed : ∀ n ∈ nodes, ∀ message, P (.failed (.nodeFailed n.id message))) :
    (ofNodes s world nodes).Ends P := by
  refine ⟨?_, fun e he => absurd he List.not_mem_nil⟩
  intro c hc
  obtain ⟨n, hn, rfl⟩ := List.mem_map.1 hc
  exact Course.ends_ofNode hpassed s (hfailed n hn)

omit [Schema.Validator] in
/-- A course may be replaced by one that keeps the property. -/
theorem forall_mem_set {courses : List Course} (h : ∀ c ∈ courses, c.Ends P) {next : Course}
    (hnext : next.Ends P) (i : Nat) : ∀ c ∈ courses.set i next, c.Ends P := by
  intro c hc
  rcases List.mem_or_eq_of_mem_set hc with hc | rfl
  · exact h c hc
  · exact hnext

omit [Schema.Validator] in
/-- Handing on a permit ends nobody. -/
theorem ends_release {w : Wave} (hw : w.Ends P) : w.release.Ends P := by
  unfold release
  split
  · exact ⟨hw.courses, hw.endings⟩
  · split
    · rename_i next hnext
      have hends : next.Ends P := hw.courses (.permit next) (List.mem_of_getElem? hnext)
      exact ⟨forall_mem_set hw.courses hends _, hw.endings⟩
    · exact ⟨hw.courses, hw.endings⟩

omit [Schema.Validator] in
/-- Taking note of an end adds that end. -/
theorem ends_record {w : Wave} (hw : w.Ends P) {ending : Ending} (hending : P ending) (i : Nat) :
    (w.record i ending).Ends P := by
  refine ⟨hw.courses, ?_⟩
  intro e he
  rcases List.mem_append.1 he with he | he
  · exact hw.endings e he
  · obtain rfl := List.mem_singleton.1 he
    exact hending

variable (habort : ∀ message, P (.aborted message))

include habort in
/-- The turn of a course in a wave keeps what holds of all ends. -/
theorem ends_turn {w : Wave} (hw : w.Ends P) (observer : Observer) (i : Nat) :
    (w.turn observer i).Ends P := by
  unfold turn
  split
  · exact hw
  · rename_i ending hi
    have hending : P ending := hw.courses (.ended ending) (List.mem_of_getElem? hi)
    exact ends_release (ends_record hw hending i)
  -- the course waits for a permit, and gets it if one is left
  · rename_i next hi
    have hnext : next.Ends P := hw.courses (.permit next) (List.mem_of_getElem? hi)
    split
    · exact ⟨hw.courses, hw.endings⟩
    · exact ⟨forall_mem_set hw.courses hnext i, hw.endings⟩
  · rename_i c _ _ hi
    have hc : c.Ends P := hw.courses c (List.mem_of_getElem? hi)
    split
    · exact hw
    · rename_i t ht
      exact ⟨forall_mem_set hw.courses (Course.ends_turn habort hc ht) i, hw.endings⟩

omit [Schema.Validator] in
/-- A timer that fires ends nobody. -/
theorem ends_fire {w : Wave} (hw : w.Ends P) (t : Timer) : (w.fire t).Ends P := by
  unfold fire
  split
  · exact hw
  · rename_i c hc
    have hends : c.Ends P := hw.courses c (List.mem_of_getElem? hc)
    exact ⟨forall_mem_set hw.courses (Course.ends_wake hends t.purpose) t.course, hw.endings⟩

include habort in
/-- A step of a wave keeps what holds of all ends. -/
theorem ends_step {v w : Wave} {observer : Observer} (h : w.step? observer = some v)
    (hw : w.Ends P) : v.Ends P := by
  unfold step? at h
  split at h
  · rename_i t timers _
    obtain rfl := Option.some.inj h
    have hw' : Ends P { w with timers := timers } := ⟨hw.courses, hw.endings⟩
    exact ends_fire hw' t
  · split at h
    · rename_i i ready _
      obtain rfl := Option.some.inj h
      have hw' : Ends P { w with ready := ready } := ⟨hw.courses, hw.endings⟩
      exact ends_turn habort hw' observer i
    · cases h

include habort in
/-- A wave keeps what holds of every end of its courses. -/
theorem ends_run {w : Wave} (observer : Observer) (hw : w.Ends P) : (w.run observer).Ends P := by
  -- along the steps of the run, up to the wave that has no more steps to take
  induction w using run.induct observer with
  | case1 w v h ih =>
    rw [run.eq_def]
    split
    · rename_i v' h'
      obtain rfl := Option.some.inj (h.symm.trans h')
      exact ih (ends_step habort h hw)
    · exact hw
  | case2 w h =>
    rw [run.eq_def]
    split
    · rename_i v' h'
      rw [h] at h'
      cases h'
    · exact hw

end Wave

end Ends

/-! ## Runs -/

/-- An end by which a run fails, if it does, with the failure of a node. -/
def Ending.IsOfNode (ending : Ending) : Prop :=
  ∀ e, ending = .failed e → ∃ node message, e = .nodeFailed node message

/-- The first error of a wave that has run is the failure of a node. -/
theorem Wave.firstError?_run {s : Settings} {world : World} {nodes : List Node} {observer : Observer}
    {e : Error} (h : ((Wave.ofNodes s world nodes).run observer).firstError? = some e) :
    ∃ node message, e = .nodeFailed node message := by
  have hends : ((Wave.ofNodes s world nodes).run observer).Ends Ending.IsOfNode := by
    -- neither an abort nor a pass is a failure that would have to be the node's
    refine Wave.ends_run ?_ observer (Wave.ends_ofNodes ?_ s world ?_)
    · exact fun message e he => nomatch he
    · exact fun e he => nomatch he
    · rintro n - message e he
      exact ⟨n.id, message, (Ending.failed.inj he).symm⟩
  obtain ⟨⟨i, ending⟩, hmem, herror⟩ := List.exists_of_findSome?_eq_some h
  cases ending with
  | passed => cases herror
  | failed e' =>
    obtain rfl := Option.some.inj herror
    exact hends.endings _ hmem e' rfl
  | aborted message =>
    obtain rfl := Option.some.inj herror
    exact ⟨_, message, rfl⟩

/-- The waves of a run fail with the failure of a node. -/
theorem error_runWaves {o : Options} {world : World} {first : Option Error}
    {waves : List (List Node)}
    (hfirst : ∀ e, first = some e → ∃ node message, e = .nodeFailed node message) {e : Error}
    (h : (runWaves o world first waves).2 = some e) :
    ∃ node message, e = .nodeFailed node message := by
  induction waves generalizing world first with
  | nil => exact hfirst e h
  | cons nodes waves ih =>
    refine ih ?_ h
    intro e' he'
    rcases Option.or_eq_some_iff.1 he' with he' | ⟨-, he'⟩
    · exact hfirst e' he'
    · exact Wave.firstError?_run he'

/-- A graph of which no node is left behind fails, once it is executed, with the failure of a
node. -/
theorem Graph.error_execute {g : Graph} (hstuck : g.schedule.stuck = []) {context : Value}
    {mode : Mode} {o : Options} {f : Failure} (h : (g.execute context mode o).result = .error f) :
    ∃ node message, f.error = .nodeFailed node message := by
  simp only [execute, hstuck] at h
  split at h
  · rename_i e he
    obtain rfl := Except.error.inj h
    refine error_runWaves (fun e he => ?_) he
    cases he
  · cases h

/-- A run of such a graph fails with the failure of a node, unless it was refused for its
settings. -/
theorem Graph.error_run {g : Graph} (hstuck : g.schedule.stuck = []) {context : Value} {mode : Mode}
    {o : Options} {f : Failure} (h : (g.run context mode o).result = .error f) :
    (∃ fault, f.error = .settings fault) ∨ ∃ node message, f.error = .nodeFailed node message := by
  unfold run Settings.check at h
  cases hfault : o.settings.fault? with
  | some fault =>
    rw [hfault] at h
    obtain rfl := Except.error.inj h
    exact .inl ⟨fault, rfl⟩
  | none =>
    rw [hfault] at h
    exact .inr (error_execute hstuck h)

end Wavefront
