/-
How many nodes are at work at once.

A node is at work from when it is given its permit until note is taken of its end, be that a result,
a failure or a panic; it is at work in the pauses between its attempts as well. The permits that are
left and the nodes at work always add up to the width of the wave. A wave has its permits to itself:
those before it are over, and nobody in them is at work any more.
-/
import Mathlib
import Wavefront.Proofs.Run.Attempts
import Wavefront.Proofs.Run.Deeds
import Wavefront.Schema.Reader

set_option autoImplicit false

namespace Wavefront

namespace Wave

/-- The places of the courses that have been given a permit. -/
def begun (w : Wave) : List Nat := (w.courses.zipIdx.filter fun p => !p.1.isPermit).map Prod.snd

/-- The places of the courses that have a permit: they have been given one, and no note has been
taken of their end. -/
def atWork (w : Wave) : List Nat := w.begun.filter (· ∉ w.settled)

variable {observer : Observer} {v w : Wave} {width i : Nat} {c : Course}

/-- Those who have begun are the courses that have had their permit. -/
theorem mem_begun : i ∈ w.begun ↔ ∃ c, w.courses[i]? = some c ∧ c.isPermit = false := by
  rw [begun, List.mem_map]
  constructor
  · rintro ⟨⟨c, j⟩, hmem, rfl⟩
    obtain ⟨hmem, hpermit⟩ := List.mem_filter.1 hmem
    exact ⟨c, List.mem_zipIdx_iff_getElem?.1 hmem, by simpa using hpermit⟩
  · rintro ⟨c, hc, hpermit⟩
    have hmem : (c, i) ∈ w.courses.zipIdx := List.mem_zipIdx_iff_getElem?.2 hc
    exact ⟨(c, i), List.mem_filter.2 ⟨hmem, by simpa using hpermit⟩, rfl⟩

theorem mem_atWork : i ∈ w.atWork ↔ i ∈ w.begun ∧ i ∉ w.settled := by
  rw [atWork, List.mem_filter, decide_eq_true_iff]

theorem nodup_begun (w : Wave) : w.begun.Nodup :=
  List.Nodup.sublist (List.filter_sublist.map Prod.snd) (List.nodup_zipIdx_map_snd w.courses)

/-- As many have begun as have entered. -/
theorem length_begun (w : Wave) : w.begun.length = entered w.courses := by
  rw [begun, List.length_map, ← List.countP_eq_length_filter, entered]
  conv_rhs => rw [← List.zipIdx_map_fst 0 w.courses, List.countP_map]
  rfl

/-- Whoever has ended was given a permit before. -/
theorem InLine.mem_begun_of_settled (h : InLine width w) (hi : i ∈ w.settled) : i ∈ w.begun := by
  obtain ⟨p, hp, rfl⟩ := List.mem_map.1 hi
  exact mem_begun.2 ⟨_, h.ended p hp, rfl⟩

/-- The permits that are left and the courses at work are as many as there were permits. -/
theorem InLine.length_atWork (h : InLine width w) : w.permits + w.atWork.length = width := by
  -- those that are at work are those that were given a permit, without those that have ended
  have hsettled : (w.begun.filter (· ∈ w.settled)).Perm w.settled := by
    refine (List.perm_ext_iff_of_nodup (w.nodup_begun.filter _) h.settled_nodup).2 fun i => ?_
    rw [List.mem_filter, decide_eq_true_iff]
    exact and_iff_right_of_imp h.mem_begun_of_settled
  have hlength : w.begun.length = w.settled.length + w.atWork.length := by
    rw [← hsettled.length_eq, atWork, w.begun.length_eq_length_filter_add (· ∈ w.settled)]
    simp only [decide_not]
  have hpermits := h.permits
  rw [← length_begun, hlength, settled, List.length_map] at hpermits
  omega

/-- In a wave that is over nobody is at work. -/
theorem atWork_of_isOver (h : w.IsOver) : w.atWork = [] := by
  refine List.eq_nil_iff_forall_not_mem.2 fun i hi => ?_
  obtain ⟨hbegun, hsettled⟩ := mem_atWork.1 hi
  obtain ⟨c, hc, -⟩ := mem_begun.1 hbegun
  exact hsettled (h i (List.getElem?_eq_some_iff.1 hc).1)

/-- Whoever has been given a permit and has not ended is at work. -/
theorem InLine.mem_atWork_of_open (h : InLine width w) (hc : w.courses[i]? = some c)
    (hpermit : c.isPermit = false) (hended : c.isEnded = false) : i ∈ w.atWork := by
  refine mem_atWork.2 ⟨mem_begun.2 ⟨c, hc, hpermit⟩, h.not_settled hc ?_⟩
  rintro ending rfl
  cases hended

variable [Schema.Validator]

/-- Whoever has a turn is at work, before it and after it. -/
theorem InLine.atWork_of_acts (h : InLine width w) (hacts : w.Acts observer i c v) :
    i ∈ w.atWork ∧ i ∈ v.atWork := by
  obtain @⟨before, after, t, hready, hc, hturn⟩ := hacts
  have hsettled : i ∉ w.settled := (h.ready_open i (head_mem_ready hready)).2
  obtain ⟨hpermit, hpermit'⟩ := Course.isPermit_turn (h.timed i c hc) hturn
  have hlt : i < w.courses.length := (List.getElem?_eq_some_iff.1 hc).1
  exact ⟨mem_atWork.2 ⟨mem_begun.2 ⟨c, hc, hpermit⟩, hsettled⟩,
    mem_atWork.2 ⟨mem_begun.2 ⟨t.next, List.getElem?_set_self hlt, hpermit'⟩, hsettled⟩⟩

/-- Nobody asks for a permit again. -/
theorem InLine.mem_begun_move (h : InLine width w) (hmove : Move observer w v) (hi : i ∈ w.begun) :
    i ∈ v.begun := by
  obtain ⟨c, hc, hpermit⟩ := mem_begun.1 hi
  rcases hmove.course_or hc with hacts | ⟨d, hd, rfl | rfl | ⟨purpose, rfl⟩⟩
  · exact (mem_atWork.1 (h.atWork_of_acts hacts).2).1
  · exact mem_begun.2 ⟨d, hd, hpermit⟩
  · cases hpermit
  · exact mem_begun.2 ⟨_, hd, (Course.isPermit_wake (h.timed i c hc) purpose).trans hpermit⟩

/-- Whoever is at work stays so until note is taken of his end. -/
theorem InLine.mem_atWork_move (h : InLine width w) (hmove : Move observer w v) (hi : i ∈ w.atWork) :
    i ∈ v.atWork ∨ ∃ ending, w.courses[i]? = some (.ended ending) ∧ (i, ending) ∈ v.endings := by
  obtain ⟨hbegun, hsettled⟩ := mem_atWork.1 hi
  have hbegun' : i ∈ v.begun := h.mem_begun_move hmove hbegun
  rcases hmove.endings_or with heq | ⟨j, ending, hc, heq⟩
  · exact .inl (mem_atWork.2 ⟨hbegun', by rwa [settled, heq]⟩)
  -- only the one whose end is noted stops being at work
  · by_cases hij : i = j
    · subst hij
      exact .inr ⟨ending, hc, heq ▸ List.mem_append_right _ (List.mem_singleton_self _)⟩
    · refine .inl (mem_atWork.2 ⟨hbegun', ?_⟩)
      rw [settled, heq, List.map_append, List.mem_append, List.map_singleton, List.mem_singleton]
      exact not_or.2 ⟨hsettled, hij⟩

end Wave

/-! ## Executions -/

/-- A tool is called at a turn of an attempt only. -/
theorem Execution.Step.acts_of_called [Schema.Validator] {o : Options} {e e' : Execution}
    (h : Step o e e')
    (hcalled : e'.wave.world.called ≠ e.wave.world.called) :
    ∃ i limit work next, e.Acts o i (.attempt limit work next) e' := by
  -- calls are events, so only a turn can have made one, and only the turn of an attempt
  rcases h.acts_or with ⟨i, c, hacts⟩ | ⟨-, hevents⟩
  · have hcalls : c.calling? ≠ none := by
      intro hnone
      obtain ⟨v, ⟨_, _, hturn⟩, rfl⟩ := hacts
      refine hcalled ((Course.called_turn hturn).trans ?_)
      rw [hnone]
      exact List.append_nil _
    obtain ⟨call, hcall⟩ := Option.ne_none_iff_exists'.1 hcalls
    obtain ⟨f, hf, -⟩ := Option.bind_eq_some_iff.1 hcall
    obtain ⟨limit, next, rest, rfl⟩ := Course.eq_attempt_of_fanout? hf
    exact ⟨i, limit, _, rest, hacts⟩
  · exact absurd (by rw [World.called, World.called, hevents]) hcalled

namespace Graph

variable {g : Graph} {o : Options} {e e' : Execution} {context : Value} {mode : Mode}

/-- The waves that are past are over. -/
theorem Reaches.past_isOver [Schema.Validator] (h : g.Reaches context mode o e) :
    ∀ w ∈ e.past, w.IsOver := by
  induction h with
  | refl => exact fun w hw => absurd hw List.not_mem_nil
  | tail _ hstep ih =>
    cases hstep with
    | move _ => exact ih
    | next hover _ => exact List.forall_mem_append.2 ⟨ih, List.forall_mem_singleton.2 hover⟩

theorem Reaches.atWork_past [Schema.Validator] (h : g.Reaches context mode o e) :
    ∀ w ∈ e.past, w.atWork = [] :=
  fun w hw => Wave.atWork_of_isOver (h.past_isOver w hw)

/-- At every point of every execution, at most as many nodes are at work as the settings say, and
one if they say none: together with the permits that are left they are exactly as many, and those of
past waves are none. A node is at work from its permit to its end without a break, also between its
attempts; and whatever turn it has is within that time, so every call of a tool is. -/
theorem atWork_bounded [Schema.Validator] (g : Graph) (context : Value) (mode : Mode)
    (o : Options) :
    (∃ e, g.Reaches context mode o e ∧ e.IsOver ∧ g.execute context mode o = g.reportOf o e) ∧
    ∀ e, g.Reaches context mode o e →
      (e.allWaves.flatMap Wave.atWork).length ≤ max o.settings.concurrency.toNat 1 ∧
      e.wave.permits + e.wave.atWork.length = max o.settings.concurrency.toNat 1 ∧
      (∀ w ∈ e.past, w.atWork = []) ∧
      (∀ i c, e.wave.courses[i]? = some c → c.isPermit = false → c.isEnded = false →
        i ∈ e.wave.atWork) ∧
      (∀ i c e', e.Acts o i c e' → i ∈ e.wave.atWork ∧ i ∈ e'.wave.atWork) ∧
      ∀ e', Execution.Step o e e' →
        (∀ i ∈ e.wave.atWork, i ∈ e'.wave.atWork ∨
          ∃ ending, e.wave.courses[i]? = some (.ended ending) ∧ (i, ending) ∈ e'.wave.endings) ∧
        (e'.wave.world.called ≠ e.wave.world.called →
          ∃ i limit work next, e.Acts o i (.attempt limit work next) e') := by
  refine ⟨g.exists_execute_eq context mode o, fun e hreaches => ?_⟩
  have hline : e.wave.InLine (width o) := hreaches.traced.inLine
  have hlength := hline.length_atWork
  have hle : e.wave.atWork.length ≤ width o := hlength ▸ Nat.le_add_left _ _
  have hpast := hreaches.atWork_past
  refine ⟨?_, hlength, hpast, fun i c hc => hline.mem_atWork_of_open hc, ?_, fun e' hstep => ⟨?_, ?_⟩⟩
  · -- past waves count for nothing
    rw [Execution.allWaves, List.flatMap_append, List.flatMap_eq_nil_iff.2 hpast, List.nil_append,
      List.flatMap_singleton]
    exact hle
  · rintro i c _ ⟨v, hacts, rfl⟩
    exact hline.atWork_of_acts hacts
  · intro i hi
    cases hstep with
    | move hmove => exact hline.mem_atWork_move hmove hi
    | next hover _ => exact absurd (Wave.atWork_of_isOver hover ▸ hi) List.not_mem_nil
  · exact hstep.acts_of_called

/-- Three nodes that take some time and wait for nobody. -/
def sleepers : Graph where
  nodes :=
    [.ofTool "a" [] (Stock.tool (.sleep 5) "s" none none) .null {},
     .ofTool "b" [] (Stock.tool (.sleep 5) "s" none none) .null {},
     .ofTool "c" [] (Stock.tool (.sleep 5) "s" none none) .null {}]
  nodup := by decide

/-- Of three nodes two are at work, with two calls made, and the third one waits for a permit. -/
theorem atWork_bounded_sleepers :
    let o : Options := { planId := "p", settings := { concurrency := 2 } }
    ∃ e, sleepers.Reaches .null .dag o e ∧ e.wave.waiting = [2] ∧ e.wave.atWork = [0, 1] ∧
      e.wave.world.called = [("s", .null), ("s", .null)] ∧
      (e.allWaves.flatMap Wave.atWork).length ≤ 2 := by
  intro o
  -- two nodes sleep in their tools, and the third one waits for a permit
  have hpoint : ((sleepers.paused .null .dag o 1 20).wave.waiting,
      (sleepers.paused .null .dag o 1 20).wave.atWork,
      (sleepers.paused .null .dag o 1 20).wave.world.called)
      = ([2], [0, 1], [("s", .null), ("s", .null)]) := by cbv
  obtain ⟨hwaiting, hpoint⟩ := Prod.mk.inj hpoint
  obtain ⟨hwork, hcalled⟩ := Prod.mk.inj hpoint
  have hreaches := sleepers.reaches_paused .null .dag o 1 20
  obtain ⟨hbound, -⟩ := (atWork_bounded sleepers .null .dag o).2 _ hreaches
  exact ⟨_, hreaches, hwaiting, hwork, hcalled, hbound⟩

end Graph

end Wavefront
