/-
Whose turn it is that does something.

What nodes share is changed by turns of courses, one at a time, and so is what can be seen of a run
from outside. Every other move hands a permit on, wakes a course, takes note of an end or lets time
pass; it writes nothing, calls nobody and tells nobody anything.
-/
import Wavefront.Proofs.Run.Line

set_option autoImplicit false

namespace Wavefront

variable [Schema.Validator]

namespace Wave

/-- The course in this place has a turn, which makes this of the wave. -/
inductive Acts (observer : Observer) (w : Wave) (i : Nat) (c : Course) : Wave → Prop
  | intro {before after : List Nat} {t : Turn Course} (hready : w.ready = before ++ i :: after)
      (hc : w.courses[i]? = some c)
      (hturn : c.turn observer i w.busy w.world w.timers = some t) :
      Acts observer w i c
        { w with
          world := t.world
          timers := t.timers
          courses := w.courses.set i t.next
          ready := i :: (before ++ after) }

variable {observer : Observer} {v w : Wave} {i : Nat} {c : Course}

/-- To act is a move: the course whose turn it is has no other turn to take. -/
theorem Acts.move (h : Acts observer w i c v) : Move observer w v := by
  obtain @⟨before, after, t, hready, hc, hturn⟩ := h
  have hmove : Move observer w (turn { w with ready := before ++ after } observer i) := .turn hready
  -- the turn of the wave comes to the turn of the course, as the other kinds of courses have none
  have heq : turn { w with ready := before ++ after } observer i
      = { w with
          world := t.world
          timers := t.timers
          courses := w.courses.set i t.next
          ready := i :: (before ++ after) } := by
    have hbusy : busy { w with ready := before ++ after } = w.busy := rfl
    unfold turn
    split
    · rename_i hnone
      cases hnone.symm.trans hc
    · rename_i ending hended
      obtain rfl := Option.some.inj (hended.symm.trans hc)
      cases hturn
    · rename_i next hpermit
      obtain rfl := Option.some.inj (hpermit.symm.trans hc)
      cases hturn
    · rename_i hc'
      obtain rfl := Option.some.inj (hc'.symm.trans hc)
      rw [hbusy, hturn]
  exact heq ▸ hmove

omit [Schema.Validator] in
/-- Handing on a permit leaves the world alone. -/
theorem world_release (w : Wave) : w.release.world = w.world := by
  unfold release
  split
  · rfl
  · split <;> rfl

omit [Schema.Validator] in
/-- Handing on a permit ends nobody. -/
theorem endings_release (w : Wave) : w.release.endings = w.endings := by
  unfold release
  split
  · rfl
  · split <;> rfl

/-- Note is taken of an end when its course has come to it. -/
theorem Move.endings_or (h : Move observer w v) : v.endings = w.endings ∨
    ∃ i ending, w.courses[i]? = some (.ended ending) ∧ v.endings = w.endings ++ [(i, ending)] := by
  cases h.change with
  | ends _ hc => exact .inr ⟨_, _, hc, endings_release _⟩
  | acts _ _ _ => exact .inl rfl
  | rests _ _ _ _ _ => exact .inl rfl
  | enters _ _ _ => exact .inl rfl
  | queues _ _ _ => exact .inl rfl
  | misses _ _ => exact .inl rfl
  | wakes _ _ => exact .inl rfl
  | lapses _ _ => exact .inl rfl
  | outside _ _ _ => exact .inl rfl

/-- No move adds a course or drops one. -/
theorem length_courses_move (h : Move observer w v) : v.courses.length = w.courses.length := by
  cases h.change with
  | acts _ _ _ => exact List.length_set
  | enters _ _ _ => exact List.length_set
  | wakes _ _ => exact List.length_set
  | ends _ _ =>
    unfold release
    split
    · rfl
    · split
      · exact List.length_set
      · rfl
  | rests _ _ _ _ _ => rfl
  | queues _ _ _ => rfl
  | misses _ _ => rfl
  | lapses _ _ => rfl
  | outside _ _ _ => rfl

omit [Schema.Validator] in
/-- The place where one course is replaced is that of a given course, or the given course stays. -/
theorem getElem?_set_or {courses : List Course} {j : Nat} {b : Course} (hb : courses[j]? = some b)
    (hc : courses[i]? = some c) (d : Course) :
    i = j ∧ b = c ∧ (courses.set j d)[i]? = some d ∨ (courses.set j d)[i]? = some c := by
  by_cases hij : i = j
  · subst hij
    refine .inl ⟨rfl, Option.some.inj (hb.symm.trans hc), ?_⟩
    exact List.getElem?_set_self (List.getElem?_eq_some_iff.1 hb).1
  · exact .inr ((List.getElem?_set_ne (Ne.symm hij)).trans hc)

omit [Schema.Validator] in
/-- A course is the same when a permit has been handed on, or it was the one that waited for it. -/
theorem courses_release (hc : w.courses[i]? = some c) :
    ∃ d, w.release.courses[i]? = some d ∧ (d = c ∨ c = .permit d) := by
  unfold release
  split
  · exact ⟨c, hc, .inl rfl⟩
  · split
    · rename_i next hnext
      rcases getElem?_set_or hnext hc next with ⟨-, heq, hd⟩ | hd
      · exact ⟨next, hd, .inr heq.symm⟩
      · exact ⟨c, hd, .inl rfl⟩
    · exact ⟨c, hc, .inl rfl⟩

/-- The course in some place has a turn, or else it stays as it is, gets its permit or is woken. -/
theorem Move.course_or (h : Move observer w v) (hc : w.courses[i]? = some c) :
    Acts observer w i c v ∨ ∃ d, v.courses[i]? = some d ∧
      (d = c ∨ c = .permit d ∨ ∃ purpose, d = c.wake purpose) := by
  cases h.change with
  | @acts j before after b t hready hb hturn =>
    rcases getElem?_set_or hb hc t.next with ⟨rfl, rfl, -⟩ | hd
    · exact .inl (.intro hready hb hturn)
    · exact .inr ⟨c, hd, .inl rfl⟩
  | @enters j before after next _ hnext _ =>
    rcases getElem?_set_or hnext hc next with ⟨-, heq, hd⟩ | hd
    · exact .inr ⟨next, hd, .inr (.inl heq.symm)⟩
    · exact .inr ⟨c, hd, .inl rfl⟩
  | @wakes t before after b _ hb =>
    rcases getElem?_set_or hb hc (b.wake t.purpose) with ⟨-, rfl, hd⟩ | hd
    · exact .inr ⟨_, hd, .inr (.inr ⟨t.purpose, rfl⟩)⟩
    · exact .inr ⟨c, hd, .inl rfl⟩
  -- who has ended hands his permit on, which may be what this course waits for
  | @ends j before after ending _ _ =>
    obtain ⟨d, hd, hsame | hpermit⟩ :=
      courses_release (w := record { w with ready := before ++ after } j ending) hc
    · exact .inr ⟨d, hd, .inl hsame⟩
    · exact .inr ⟨d, hd, .inr (.inl hpermit)⟩
  | rests _ _ _ _ _ => exact .inr ⟨c, hc, .inl rfl⟩
  | queues _ _ _ => exact .inr ⟨c, hc, .inl rfl⟩
  | misses _ _ => exact .inr ⟨c, hc, .inl rfl⟩
  | lapses _ _ => exact .inr ⟨c, hc, .inl rfl⟩
  | outside _ _ _ => exact .inr ⟨c, hc, .inl rfl⟩

/-- What happens is a turn of some course, or else nothing is written and nobody is told or
called. -/
theorem Move.acts_or (h : Move observer w v) : (∃ i c, Acts observer w i c v) ∨
    v.world.context = w.world.context ∧ v.world.events = w.world.events := by
  cases h.change with
  | acts hready hc hturn => exact .inl ⟨_, _, .intro hready hc hturn⟩
  -- an end by a panic closes the entry of the node; the trace is neither the context nor an event
  | @ends i before after ending _ _ =>
    rw [world_release]
    exact .inr (by cases ending <;> exact ⟨rfl, rfl⟩)
  | rests _ _ _ _ _ => exact .inr ⟨rfl, rfl⟩
  | enters _ _ _ => exact .inr ⟨rfl, rfl⟩
  | queues _ _ _ => exact .inr ⟨rfl, rfl⟩
  | misses _ _ => exact .inr ⟨rfl, rfl⟩
  | wakes _ _ => exact .inr ⟨rfl, rfl⟩
  | lapses _ _ => exact .inr ⟨rfl, rfl⟩
  | outside _ _ _ => exact .inr ⟨rfl, rfl⟩

end Wave

namespace Execution

/-- The course in this place of the wave that is under way has a turn. -/
def Acts (o : Options) (e : Execution) (i : Nat) (c : Course) (e' : Execution) : Prop :=
  ∃ v, e.wave.Acts o.observer i c v ∧ e' = { e with wave := v }

variable {o : Options} {e e' : Execution} {i : Nat} {c : Course}

theorem Acts.step (h : e.Acts o i c e') : Step o e e' := by
  obtain ⟨v, hv, rfl⟩ := h
  exact .move hv.move

/-- What happens in an execution is a turn of some course, or else nothing is written and nobody is
told or called. -/
theorem Step.acts_or (h : Step o e e') : (∃ i c, e.Acts o i c e') ∨
    e'.wave.world.context = e.wave.world.context ∧ e'.wave.world.events = e.wave.world.events := by
  cases h with
  | move hmove =>
    rcases hmove.acts_or with ⟨i, c, hacts⟩ | hsame
    · exact .inl ⟨i, c, _, hacts, rfl⟩
    · exact .inr hsame
  | next _ _ => exact .inr ⟨rfl, rfl⟩

end Execution

end Wavefront
