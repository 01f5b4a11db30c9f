/-
Executions come to their end, whoever has the next turn.

A host can let time pass and cancel the run, which leaves the courses as they are. Whatever else
happens makes a course smaller, shortens what the wave has lined up, or begins one of the waves that
are left. So it happens only so often, in whatever order; and until the execution is over, it can
happen.
-/
import Mathlib
import Wavefront.Proofs.Run.Execution

set_option autoImplicit false

namespace Wavefront

namespace Wave

variable {observer : Observer} {u v w : Wave}

/-- Only the number of what is lined up counts, not the order. -/
theorem Less.of_load (h : Less v u) (hcourses : u.courses = w.courses) (hload : u.load = w.load) :
    Less v w := by
  rwa [Less, hcourses, hload] at h

variable [Schema.Validator]

/-- A turn of any course in the line makes the wave smaller. -/
theorem less_turn {i : Nat} {before after : List Nat} (hready : w.ready = before ++ i :: after) :
    Less (turn { w with ready := before ++ after } observer i) w := by
  have hless : Less (turn { w with ready := before ++ after } observer i)
      { w with ready := i :: (before ++ after) } :=
    turn_less (w := { w with ready := i :: (before ++ after) }) rfl
  refine hless.of_load rfl ?_
  rw [load, load, hready, List.perm_middle.length_eq]

omit [Schema.Validator] in
/-- So does any timer that goes off. -/
theorem less_fire {t : Timer} {before after : List Timer} (htimers : w.timers = before ++ t :: after) :
    Less (fire { w with timers := before ++ after } t) w := by
  have hextract : extract? t.due (t :: (before ++ after)) = some (t, before ++ after) := by
    rw [extract?, if_pos (Nat.le_refl _)]
  have hless : Less (fire { w with timers := before ++ after } t)
      { w with timers := t :: (before ++ after) } :=
    fire_less (w := { w with timers := t :: (before ++ after) }) hextract
  refine hless.of_load rfl ?_
  rw [load, load, htimers, List.perm_middle.length_eq]

/-- A move makes the wave smaller, unless only time passes or the run is cancelled. -/
theorem Move.less_or (h : Move observer w v) : Less v w ∨
    ∃ now cancelled, v = { w with world := { w.world with now := now, cancelled := cancelled } } := by
  cases h with
  | turn hready => exact .inl (less_turn hready)
  | fire htimers => exact .inl (less_fire htimers)
  | wait ms => exact .inr ⟨_, _, rfl⟩
  | cancel => exact .inr ⟨w.world.now, true, rfl⟩

/-- Until the wave is over, there is a move that makes it smaller. -/
theorem InLine.exists_less {width : Nat} (hwidth : 0 < width) (h : InLine width w)
    (hover : ¬ w.IsOver) (observer : Observer) : ∃ v, Move observer w v ∧ Less v w := by
  cases hready : w.ready with
  | cons i ready =>
    have hhead : w.ready = [] ++ i :: ready := hready
    exact ⟨_, .turn hhead, less_turn hhead⟩
  | nil =>
    cases htimers : w.timers with
    | cons t timers =>
      have hhead : w.timers = [] ++ t :: timers := htimers
      exact ⟨_, .fire hhead, less_fire hhead⟩
    -- with an empty line and no timers the wave is over
    | nil => exact absurd (h.isOver_of_idle hwidth hready htimers) hover

end Wave

namespace Execution

/-- Nothing happens but that time passes or the run is cancelled. -/
def Idles (e e' : Execution) : Prop :=
  ∃ now cancelled, e' = { e with wave :=
    { e.wave with world := { e.wave.world with now := now, cancelled := cancelled } } }

/-- What is left to be done: the waves to come, the courses, and what is lined up for them. -/
def rest (e : Execution) : Nat × List Course × Nat := (e.waves.length, e.wave.courses, e.wave.load)

/-- Less is left to be done. -/
def Less (e' e : Execution) : Prop :=
  Prod.Lex (· < ·) (Prod.Lex (OneLess Course.Less) (· < ·)) e'.rest e.rest

theorem wellFounded_less : WellFounded Less :=
  InvImage.wf rest (Nat.lt_wfRel.wf.prod_lex
    (WellFounded.prod_lex ⟨acc_oneLess Course.acc_less⟩ Nat.lt_wfRel.wf))

variable {o : Options} {e e' : Execution}

theorem rest_of_idles (h : e.Idles e') : e'.rest = e.rest := by
  obtain ⟨now, cancelled, rfl⟩ := h
  rfl

/-- An execution whose present wave is smaller is smaller. -/
theorem less_of_wave {v : Wave} (h : Wave.Less v e.wave) : ({ e with wave := v } : Execution).Less e := by
  rcases h with h | ⟨hcourses, h⟩
  · exact .right _ (.left _ _ h)
  · rw [Less, rest, rest, hcourses]
    exact .right _ (.right _ h)

variable [Schema.Validator]

/-- A step leaves less to be done, or it is idle. -/
theorem Step.less_or (h : Step o e e') : e'.Less e ∨ e.Idles e' := by
  cases h with
  | move hmove =>
    rcases hmove.less_or with hless | ⟨now, cancelled, rfl⟩
    · exact .inl (less_of_wave hless)
    · exact .inr ⟨now, cancelled, rfl⟩
  | next _ hwaves =>
    refine .inl (.left _ _ ?_)
    rw [hwaves]
    exact Nat.lt_succ_self _

omit [Schema.Validator] in
/-- What makes an execution smaller is not the mere passing of time. -/
theorem Less.not_idles (h : e'.Less e) : ¬ e.Idles e' := by
  intro hidles
  rw [Less, rest_of_idles hidles] at h
  exact wellFounded_less.irrefl.irrefl e h

/-- However an execution goes on, from some point on nothing happens but that time passes. -/
theorem exists_idles_from {f : Nat → Execution} (h : ∀ n, Step o (f n) (f (n + 1))) :
    ∃ N, ∀ n, N ≤ n → (f n).Idles (f (n + 1)) := by
  -- a point at which as little is left to be done as ever
  obtain ⟨_, ⟨N, rfl⟩, hmin⟩ := wellFounded_less.has_min (Set.range f) ⟨f 0, 0, rfl⟩
  -- while nothing has been done since, there is nothing that could be
  have hstays : ∀ n, N ≤ n → (f n).rest = (f N).rest → (f n).Idles (f (n + 1)) := by
    intro n _ hsame
    refine (h n).less_or.resolve_left fun hless => hmin (f (n + 1)) ⟨n + 1, rfl⟩ ?_
    rwa [Less, hsame] at hless
  have hsame : ∀ n, N ≤ n → (f n).rest = (f N).rest := by
    intro n hn
    induction n, hn using Nat.le_induction with
    | base => rfl
    | succ n hn ih => exact (rest_of_idles (hstays n hn ih)).trans ih
  exact ⟨N, fun n hn => hstays n hn (hsame n hn)⟩

/-- From here on the execution comes to its end whoever has the next turn: it is not brought to a
stop before it is over, and it does not go on forever. -/
structure Finishes (o : Options) (e : Execution) : Prop where
  goesOn : ∀ e', Relation.ReflTransGen (Step o) e e' →
    e'.IsOver ∨ ∃ e'', Step o e' e'' ∧ ¬ e'.Idles e''
  stops : ∀ f : Nat → Execution, f 0 = e → (∀ n, Step o (f n) (f (n + 1))) →
    ∃ N, ∀ n, N ≤ n → (f n).Idles (f (n + 1))

end Execution

namespace Graph

variable {g : Graph} {o : Options} {e : Execution} {context : Value} {mode : Mode}

variable [Schema.Validator]

/-- Until the execution is over, there is a step that leaves less to be done. -/
theorem Traced.isOver_or_less (h : g.Traced o e) :
    e.IsOver ∨ ∃ e', Execution.Step o e e' ∧ e'.Less e := by
  by_cases hover : e.wave.IsOver
  · cases hwaves : e.waves with
    | nil => exact .inl ⟨hover, hwaves⟩
    | cons nodes waves =>
      refine .inr ⟨_, .next hover hwaves, .left _ _ ?_⟩
      rw [hwaves]
      exact Nat.lt_succ_self _
  · obtain ⟨v, hmove, hless⟩ := h.inLine.exists_less (width_pos o) hover o.observer
    exact .inr ⟨_, .move hmove, Execution.less_of_wave hless⟩

/-- From every point that is reached, an execution comes to its end. -/
theorem Reaches.finishes (h : g.Reaches context mode o e) : e.Finishes o where
  goesOn e' hsteps := by
    rcases (Reaches.traced (h.trans hsteps)).isOver_or_less with hover | ⟨e'', hstep, hless⟩
    · exact .inl hover
    · exact .inr ⟨e'', hstep, hless.not_idles⟩
  stops _ _ hsteps := Execution.exists_idles_from hsteps

end Graph

end Wavefront
