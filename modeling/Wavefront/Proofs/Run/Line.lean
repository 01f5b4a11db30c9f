/-
Lines: every course of a wave comes to its end, whoever has the next turn.

A course that has not ended is in the line, waits for a permit, or has a timer. Permits are neither
lost nor made up: those that are left and those of the courses at work, which have theirs from
before they first act until note has been taken of their end, are always as many as there were. A
course waits for a permit only when none is left. So if no course is in the line and no timer is
set, nobody is at work, all permits are there, nobody waits for one, and all courses have ended.
-/
import Mathlib.Data.List.Basic
import Mathlib.Data.List.Nodup
import Mathlib.Data.List.Perm.Basic
import Wavefront.Proofs.Run.Move
import Wavefront.Proofs.Run.Timed

set_option autoImplicit false

namespace Wavefront

/-- Has the course still to ask for its permit? -/
def Course.isPermit : Course → Bool
  | permit _ => true
  | _ => false

/-- A course that does not wait yet has its permit. -/
theorem Course.Fresh.isPermit_eq_false {c : Course} (h : c.Fresh) : c.isPermit = false := by
  cases c with
  | permit _ => exact h.elim
  | _ => rfl

/-- Nobody asks for a permit twice. -/
theorem Course.isPermit_turn [Schema.Validator] {c : Course} {timers : List Timer}
    (h : c.Timed timers)
    {observer : Observer} {course busy : Nat} {w : World} {all : List Timer} {t : Turn Course}
    (ht : c.turn observer course busy w all = some t) :
    c.isPermit = false ∧ t.next.isPermit = false := by
  cases turns_of_turn ht with
  | begin _ _ => exact ⟨rfl, Fresh.isPermit_eq_false (h.1 _)⟩
  | tells _ next => exact ⟨rfl, Fresh.isPermit_eq_false (c := next) h.1⟩
  | upsets _ _ => exact ⟨rfl, rfl⟩
  | asks _ => exact ⟨rfl, Fresh.isPermit_eq_false (h.1 _)⟩
  | inspects _ => exact ⟨rfl, Fresh.isPermit_eq_false (h.1 _)⟩
  -- an attempt is answered, panics or goes on, and has its permit all the time
  | attempts hturn =>
    cases hturn with
    | ends r _ => exact ⟨rfl, Fresh.isPermit_eq_false (h.1 r)⟩
    | panics _ _ => exact ⟨rfl, rfl⟩
    | works _ _ _ => exact ⟨rfl, rfl⟩
    | limits _ => exact ⟨rfl, rfl⟩
  | settles _ _ next => exact ⟨rfl, Fresh.isPermit_eq_false (c := next) h.1⟩
  | skips next => exact ⟨rfl, Fresh.isPermit_eq_false (c := next) h.1⟩
  | pauses _ _ _ => exact ⟨rfl, rfl⟩

/-- Waking hands out no permits. -/
theorem Course.isPermit_wake {c : Course} {timers : List Timer} (h : c.Timed timers)
    (purpose : Purpose) : (c.wake purpose).isPermit = c.isPermit := by
  unfold wake
  split
  · exact Fresh.isPermit_eq_false h.1
  · rfl
  · rfl
  · rfl

/-- The number of courses that have their permit or have given it back. -/
def entered (courses : List Course) : Nat := courses.countP fun c => !c.isPermit

/-- Replacing a course by one that is in the same case about its permit changes no count. -/
theorem entered_set {courses : List Course} {i : Nat} {c d : Course} (hc : courses[i]? = some c)
    (h : d.isPermit = c.isPermit) : entered (courses.set i d) = entered courses := by
  induction courses generalizing i with
  | nil => rfl
  | cons first courses ih =>
    cases i with
    | zero =>
      obtain rfl : first = c := by simpa using hc
      rw [List.set_cons_zero, entered, entered, List.countP_cons, List.countP_cons, h]
    | succ i =>
      have hrest := ih (i := i) (by simpa using hc)
      rw [entered, entered] at hrest
      rw [List.set_cons_succ, entered, entered, List.countP_cons, List.countP_cons, hrest]

/-- One more has entered when a course that waited for its permit gets it. -/
theorem entered_set_of_permit {courses : List Course} {i : Nat} {next d : Course}
    (hc : courses[i]? = some (.permit next)) (h : d.isPermit = false) :
    entered (courses.set i d) = entered courses + 1 := by
  induction courses generalizing i with
  | nil => simp at hc
  | cons first courses ih =>
    cases i with
    | zero =>
      obtain rfl : first = .permit next := by simpa using hc
      rw [List.set_cons_zero, entered, entered, List.countP_cons, List.countP_cons, h]
      rfl
    | succ i =>
      have hrest := ih (i := i) (by simpa using hc)
      rw [entered, entered] at hrest
      rw [List.set_cons_succ, entered, entered, List.countP_cons, List.countP_cons, hrest]
      omega

/-- If every course that has entered has its place in a list, that list is at least as long. -/
theorem entered_le_length {courses : List Course} {places : List Nat}
    (h : ∀ (i : Nat) (c : Course), courses[i]? = some c → c.isPermit = false → i ∈ places) :
    entered courses ≤ places.length := by
  induction courses generalizing places with
  | nil => exact Nat.zero_le _
  | cons first courses ih =>
    -- the places of the rest are one higher, and 0 is none of them
    have hrest : entered courses ≤ (places.filter (· ≠ 0)).length := by
      rw [← List.length_map Nat.pred]
      refine ih fun i c hc hpermit => List.mem_map.2 ⟨i + 1, List.mem_filter.2 ⟨?_, by simp⟩, rfl⟩
      exact h (i + 1) c (by simpa using hc) hpermit
    rw [entered, List.countP_cons]
    rw [entered] at hrest
    cases hfirst : first.isPermit with
    | true => exact Nat.le_trans hrest (List.length_filter_le _ _)
    | false =>
      have hzero : 0 ∈ places := h 0 first rfl hfirst
      have hless : (places.filter (· ≠ 0)).length < places.length :=
        List.length_filter_lt_length_iff_exists.2 ⟨0, hzero, by simp⟩
      exact Nat.lt_of_le_of_lt hrest hless

namespace Wave

/-- Those in a line that somebody has joined. -/
theorem mem_join {i j : Nat} {line : List Nat} : j ∈ join i line ↔ j = i ∨ j ∈ line := by
  unfold join
  split
  · rename_i hi
    constructor
    · exact .inr
    · rintro (rfl | hj)
      · exact hi
      · exact hj
  · rw [List.mem_append, List.mem_singleton, or_comm]

/-- Nobody is in a line twice, since one who is there already does not join. -/
theorem nodup_join {i : Nat} {line : List Nat} (h : line.Nodup) : (join i line).Nodup := by
  unfold join
  split
  · exact h
  · rename_i hi
    exact List.nodup_append.2 ⟨h, List.nodup_singleton i, fun j hj k hk heq =>
      hi (List.mem_singleton.1 hk ▸ heq ▸ hj)⟩

/-- The places of the courses whose end has been taken note of. -/
def settled (w : Wave) : List Nat := w.endings.map Prod.fst

@[simp] theorem settled_record (w : Wave) (i : Nat) (ending : Ending) :
    (w.record i ending).settled = w.settled ++ [i] := List.map_append

/-- Every course is where something will let it go on, and permits are accounted for. -/
structure InLine (width : Nat) (w : Wave) : Prop where
  ready_nodup : w.ready.Nodup
  waiting_nodup : w.waiting.Nodup
  settled_nodup : w.settled.Nodup
  ready_open : ∀ i ∈ w.ready, i ∉ w.waiting ∧ i ∉ w.settled
  waiting_permit : ∀ i ∈ w.waiting, ∃ next, w.courses[i]? = some (.permit next)
  ended : ∀ p ∈ w.endings, w.courses[p.1]? = some (.ended p.2)
  timed : ∀ (i : Nat) (c : Course), w.courses[i]? = some c → c.Timed (timersOf i w.timers)
  somewhere : ∀ i < w.courses.length,
    i ∈ w.ready ∨ i ∈ w.waiting ∨ i ∈ w.settled ∨ timersOf i w.timers ≠ []
  permits : w.permits + entered w.courses = width + w.endings.length
  waiting_full : w.waiting ≠ [] → w.permits = 0

/-- A wave in whose line all courses are, and in which nothing has happened yet. -/
theorem inLine_of_range {w : Wave} (hready : w.ready = List.range w.courses.length)
    (hwaiting : w.waiting = []) (htimers : w.timers = []) (hendings : w.endings = [])
    (htimed : ∀ c ∈ w.courses, c.Timed []) : InLine (w.permits + entered w.courses) w where
  ready_nodup := hready ▸ List.nodup_range
  waiting_nodup := hwaiting ▸ List.nodup_nil
  settled_nodup := by
    rw [settled, hendings]
    exact List.nodup_nil
  ready_open i _ := by
    rw [hwaiting, settled, hendings]
    exact ⟨List.not_mem_nil, List.not_mem_nil⟩
  waiting_permit i hi := by
    rw [hwaiting] at hi
    exact absurd hi List.not_mem_nil
  ended p hp := by
    rw [hendings] at hp
    exact absurd hp List.not_mem_nil
  timed i c hc := by
    rw [htimers]
    exact htimed c (List.mem_of_getElem? hc)
  somewhere i hi := .inl (hready ▸ List.mem_range.2 hi)
  permits := by rw [hendings, List.length_nil, Nat.add_zero]
  waiting_full h := absurd hwaiting h

/-- A wave begins with all of its courses in the line and all permits there. -/
theorem inLine_ofNodes [Schema.Validator] (s : Settings) (world : World) (nodes : List Node) :
    InLine (max s.concurrency.toNat 1) (ofNodes s world nodes) := by
  have hentered : entered (ofNodes s world nodes).courses = 0 := by
    refine List.countP_eq_zero.2 fun c hc => ?_
    obtain ⟨n, _, rfl⟩ := List.mem_map.1 hc
    exact Bool.false_ne_true
  have htimed : ∀ c ∈ (ofNodes s world nodes).courses, c.Timed [] := by
    intro c hc
    obtain ⟨n, _, rfl⟩ := List.mem_map.1 hc
    exact Course.timed_ofNode s n
  have hrange : (ofNodes s world nodes).ready
      = List.range (ofNodes s world nodes).courses.length := by
    simp only [ofNodes, List.length_map]
  have h := inLine_of_range hrange rfl rfl rfl htimed
  rwa [hentered] at h

/-! ## Moves -/

variable {width : Nat} {w : Wave}

/-- Note is taken only of courses that have ended. -/
theorem InLine.not_settled (h : InLine width w) {i : Nat} {c : Course}
    (hc : w.courses[i]? = some c) (hended : ∀ ending, c ≠ .ended ending) : i ∉ w.settled := by
  intro hi
  obtain ⟨p, hp, rfl⟩ := List.mem_map.1 hi
  exact hended p.2 (Option.some.inj (hc.symm.trans (h.ended p hp)))

/-- Only courses in want of a permit wait for one. -/
theorem InLine.not_waiting (h : InLine width w) {i : Nat} {c : Course}
    (hc : w.courses[i]? = some c) (hpermit : ∀ next, c ≠ .permit next) : i ∉ w.waiting := by
  intro hi
  obtain ⟨next, hnext⟩ := h.waiting_permit i hi
  exact hpermit next (Option.some.inj (hc.symm.trans hnext))

theorem mem_iff_mem_and_ne {i : Nat} {line : List Nat} (h : i ∉ line) (j : Nat) :
    j ∈ line ↔ j ∈ line ∧ j ≠ i :=
  ⟨fun hj => ⟨hj, fun heq => h (heq ▸ hj)⟩, And.left⟩

/-- A course of which no end has been noted is replaced by another one, and joins the line. -/
theorem InLine.replace (h : InLine width w) {v : Wave} {width' i : Nat} {d : Course}
    (hcourses : v.courses = w.courses.set i d) (hendings : v.endings = w.endings)
    (hready : v.ready.Nodup) (hmem : ∀ j, j ∈ v.ready ↔ j = i ∨ j ∈ w.ready)
    (hwaiting : v.waiting.Nodup) (hmem' : ∀ j, j ∈ v.waiting ↔ j ∈ w.waiting ∧ j ≠ i)
    (hsettled : i ∉ w.settled) (hd : d.Timed (timersOf i v.timers))
    (hother : ∀ j, j ≠ i → timersOf j v.timers = timersOf j w.timers)
    (hpermits : v.permits + entered v.courses = width' + v.endings.length)
    (hfull : v.waiting ≠ [] → v.permits = 0) : InLine width' v := by
  have hsame : v.settled = w.settled := by rw [settled, settled, hendings]
  have hcourse : ∀ j, j ≠ i → v.courses[j]? = w.courses[j]? := by
    intro j hj
    rw [hcourses, List.getElem?_set_ne (Ne.symm hj)]
  constructor
  case ready_nodup => exact hready
  case waiting_nodup => exact hwaiting
  case settled_nodup => exact hsame ▸ h.settled_nodup
  case ready_open =>
    intro j hj
    rw [hsame]
    rcases (hmem j).1 hj with rfl | hj
    · exact ⟨fun hmem => ((hmem' j).1 hmem).2 rfl, hsettled⟩
    · exact ⟨fun hmem => (h.ready_open j hj).1 ((hmem' j).1 hmem).1, (h.ready_open j hj).2⟩
  case waiting_permit =>
    intro j hj
    obtain ⟨hj, hne⟩ := (hmem' j).1 hj
    rw [hcourse j hne]
    exact h.waiting_permit j hj
  case ended =>
    intro p hp
    rw [hendings] at hp
    have hne : p.1 ≠ i := fun heq => hsettled (heq ▸ List.mem_map_of_mem hp)
    rw [hcourse p.1 hne]
    exact h.ended p hp
  case timed =>
    intro j c hc
    by_cases hj : j = i
    · subst hj
      rw [hcourses, List.getElem?_set_self'] at hc
      obtain ⟨_, _, rfl⟩ := Option.map_eq_some_iff.1 hc
      exact hd
    · rw [hcourse j hj] at hc
      rw [hother j hj]
      exact h.timed j c hc
  -- the course replaced is in the line now; every other one is where it was
  case somewhere =>
    intro j hj
    rw [hcourses, List.length_set] at hj
    by_cases hji : j = i
    · exact .inl ((hmem j).2 (.inl hji))
    · rw [hmem, hmem', hsame, hother j hji]
      have hsomewhere := h.somewhere j hj
      tauto
  case permits => exact hpermits
  case waiting_full => exact hfull

section Head

variable {i : Nat} {before after : List Nat} (hready : w.ready = before ++ i :: after)
include hready

theorem mem_ready_iff (j : Nat) : j ∈ w.ready ↔ j = i ∨ j ∈ before ++ after := by
  rw [hready, List.mem_append, List.mem_cons, List.mem_append]
  tauto

theorem mem_cons_rest_iff (j : Nat) : j ∈ i :: (before ++ after) ↔ j = i ∨ j ∈ w.ready := by
  rw [mem_ready_iff hready, List.mem_cons]
  tauto

/-- Nobody is in the line twice after that. -/
theorem nodup_cons_rest (h : InLine width w) : (i :: (before ++ after)).Nodup := by
  refine List.perm_middle.nodup_iff.1 ?_
  rw [← hready]
  exact h.ready_nodup

theorem head_mem_ready : i ∈ w.ready := (mem_ready_iff hready i).2 (.inl rfl)

/-- A course leaves the line, for a timer or for the line of those that wait. -/
theorem InLine.leave (h : InLine width w) {v : Wave} (hcourses : v.courses = w.courses)
    (hv : v.ready = before ++ after) (htimers : v.timers = w.timers)
    (hpermits : v.permits = w.permits) (hendings : v.endings = w.endings)
    (hwaiting : v.waiting = w.waiting ∧ (w.courses[i]? = none ∨ timersOf i w.timers ≠ []) ∨
      v.waiting = w.waiting ++ [i] ∧ w.permits = 0 ∧ ∃ next, w.courses[i]? = some (.permit next)) :
    InLine width v := by
  have hsame : v.settled = w.settled := by rw [settled, settled, hendings]
  have hi := h.ready_open i (head_mem_ready hready)
  have hnodup := nodup_cons_rest hready h
  have hmem : ∀ j, j ∈ v.waiting → j = i ∨ j ∈ w.waiting := by
    intro j hj
    rcases hwaiting with ⟨heq, _⟩ | ⟨heq, _, _⟩
    · exact .inr (heq ▸ hj)
    · rw [heq, List.mem_append, List.mem_singleton] at hj
      exact hj.symm
  constructor
  case ready_nodup =>
    rw [hv]
    exact (List.nodup_cons.1 hnodup).2
  case waiting_nodup =>
    rcases hwaiting with ⟨heq, _⟩ | ⟨heq, _, _⟩
    · exact heq ▸ h.waiting_nodup
    · rw [heq]
      refine List.perm_append_comm.nodup_iff.1 ?_
      exact List.nodup_cons.2 ⟨hi.1, h.waiting_nodup⟩
  case settled_nodup => exact hsame ▸ h.settled_nodup
  case ready_open =>
    intro j hj
    rw [hv] at hj
    have hopen := h.ready_open j ((mem_ready_iff hready j).2 (.inr hj))
    rw [hsame]
    refine ⟨fun hmem' => ?_, hopen.2⟩
    rcases hmem j hmem' with rfl | hmem'
    · exact (List.nodup_cons.1 hnodup).1 hj
    · exact hopen.1 hmem'
  case waiting_permit =>
    intro j hj
    rw [hcourses]
    rcases hwaiting with ⟨heq, _⟩ | ⟨heq, _, hpermit⟩
    · exact h.waiting_permit j (heq ▸ hj)
    · rcases hmem j hj with rfl | hj
      · exact hpermit
      · exact h.waiting_permit j hj
  case ended =>
    rw [hendings, hcourses]
    exact h.ended
  case timed =>
    rw [hcourses, htimers]
    exact h.timed
  -- whoever leaves the line has a timer that brings him back, or a permit to wait for
  case somewhere =>
    intro j hj
    rw [hcourses] at hj
    rw [hv, hsame, htimers]
    rcases h.somewhere j hj with hline | hwait | hrest
    · rcases (mem_ready_iff hready j).1 hline with rfl | hline
      · rcases hwaiting with ⟨_, hnone | htimer⟩ | ⟨heq, _, _⟩
        · rw [List.getElem?_eq_none_iff] at hnone
          omega
        · exact .inr (.inr (.inr htimer))
        · exact .inr (.inl (heq ▸ List.mem_append_right _ (List.mem_singleton_self _)))
      · exact .inl hline
    · refine .inr (.inl ?_)
      rcases hwaiting with ⟨heq, _⟩ | ⟨heq, _, _⟩
      · exact heq ▸ hwait
      · exact heq ▸ List.mem_append_left _ hwait
    · exact .inr (.inr hrest)
  case permits =>
    rw [hpermits, hcourses, hendings]
    exact h.permits
  case waiting_full =>
    rw [hpermits]
    rcases hwaiting with ⟨heq, _⟩ | ⟨_, hnone, _⟩
    · exact heq ▸ h.waiting_full
    · exact fun _ => hnone

/-- Note is taken of an end. The permit of the course is on its way from then on. -/
theorem inLine_record {width : Nat} (h : InLine (width + 1) w) {ending : Ending}
    (hc : w.courses[i]? = some (.ended ending)) :
    InLine width (record { w with ready := before ++ after } i ending) := by
  have hi := h.ready_open i (head_mem_ready hready)
  have hnodup := nodup_cons_rest hready h
  have hsettled : ∀ j, j ∈ (record { w with ready := before ++ after } i ending).settled ↔
      j = i ∨ j ∈ w.settled := by
    intro j
    rw [settled_record, List.mem_append, List.mem_singleton, or_comm]
    exact Iff.rfl
  constructor
  case ready_nodup => exact (List.nodup_cons.1 hnodup).2
  case waiting_nodup => exact h.waiting_nodup
  case settled_nodup =>
    rw [settled_record]
    exact List.perm_append_comm.nodup_iff.1 (List.nodup_cons.2 ⟨hi.2, h.settled_nodup⟩)
  case ready_open =>
    intro j hj
    have hopen := h.ready_open j ((mem_ready_iff hready j).2 (.inr hj))
    refine ⟨hopen.1, fun hmem => ?_⟩
    rcases (hsettled j).1 hmem with rfl | hmem
    · exact (List.nodup_cons.1 hnodup).1 hj
    · exact hopen.2 hmem
  case waiting_permit => exact h.waiting_permit
  case ended =>
    intro p hp
    rcases List.mem_append.1 hp with hp | hp
    · exact h.ended p hp
    · obtain rfl := List.mem_singleton.1 hp
      exact hc
  case timed => exact h.timed
  case somewhere =>
    intro j hj
    rw [hsettled]
    rcases h.somewhere j hj with hline | hwait | hdone | htimer
    · rcases (mem_ready_iff hready j).1 hline with rfl | hline
      · exact .inr (.inr (.inl (.inl rfl)))
      · exact .inl hline
    · exact .inr (.inl hwait)
    · exact .inr (.inr (.inl (.inr hdone)))
    · exact .inr (.inr (.inr htimer))
  -- one more course has ended and no permit is back yet, so there is one less to go round
  case permits =>
    have hpermits := h.permits
    simp only [record, List.length_append, List.length_singleton]
    omega
  case waiting_full => exact h.waiting_full

end Head

/-- A permit that is on its way is handed on, or back. -/
theorem inLine_release (h : InLine width w) : InLine (width + 1) w.release := by
  unfold release
  split
  -- nobody waits, so the permit is there for the next one
  · rename_i hnone
    have hpermits := h.permits
    refine ⟨h.ready_nodup, h.waiting_nodup, h.settled_nodup, h.ready_open, h.waiting_permit, h.ended,
      h.timed, h.somewhere, ?_, fun hwaiting => absurd hnone hwaiting⟩
    simp only
    omega
  -- the first one who waits has the permit at once, and none is left over
  · rename_i j waiting hwaiting
    have hj : j ∈ w.waiting := by
      rw [hwaiting]
      exact List.mem_cons_self
    obtain ⟨next, hnext⟩ := h.waiting_permit j hj
    have htimed := h.timed j _ hnext
    have hnodup := h.waiting_nodup
    rw [hwaiting, List.nodup_cons] at hnodup
    have hfull : w.permits = 0 := h.waiting_full (List.ne_nil_of_mem hj)
    have hpermits := h.permits
    have hentered := entered_set_of_permit hnext htimed.1.isPermit_eq_false
    rw [hnext]
    refine h.replace rfl rfl (nodup_join h.ready_nodup) (fun k => mem_join) hnodup.2 ?_
      (h.not_settled hnext fun _ => Course.noConfusion) ?_ (fun _ _ => rfl) ?_ fun _ => hfull
    · intro k
      rw [hwaiting, List.mem_cons]
      refine ⟨fun hk => ⟨.inr hk, ?_⟩, fun hk => hk.1.resolve_left hk.2⟩
      rintro rfl
      exact hnodup.1 hk
    · rw [htimed.2]
      exact htimed.1.timed
    · simp only [hentered]
      omega

/-- A course that a timer is set for has a timer. -/
theorem timersOf_ne_nil {t : Timer} {before after : List Timer}
    (htimers : w.timers = before ++ t :: after) : timersOf t.course w.timers ≠ [] := by
  refine List.ne_nil_of_mem (a := t) (mem_timersOf.2 ⟨?_, rfl⟩)
  rw [htimers]
  exact List.mem_append_right _ List.mem_cons_self

/-- A timer that is taken away is missed by its course alone. -/
theorem timersOf_of_ne {t : Timer} {before after : List Timer}
    (htimers : w.timers = before ++ t :: after) {j : Nat} (hj : j ≠ t.course) :
    timersOf j (before ++ after) = timersOf j w.timers := by
  rw [htimers, timersOf_append, timersOf_append, ← List.singleton_append (x := t),
    timersOf_append, timersOf_singleton_of_ne (Ne.symm hj), List.nil_append]

/-- Whoever has a timer has not come to his end. -/
theorem InLine.not_settled_of_timer (h : InLine width w) {t : Timer} {before after : List Timer}
    (htimers : w.timers = before ++ t :: after) : t.course ∉ w.settled := by
  intro hmem
  obtain ⟨p, hp, heq⟩ := List.mem_map.1 hmem
  have hended := h.timed _ _ (h.ended p hp)
  rw [heq] at hended
  exact timersOf_ne_nil htimers hended.2

/-- Every move leaves the courses where something will let them go on. -/
theorem inLine_move [Schema.Validator] (hwidth : 0 < width) {observer : Observer} {v : Wave}
    (h : InLine width w)
    (hmove : Move observer w v) : InLine width v := by
  obtain ⟨k, rfl⟩ := Nat.exists_eq_add_of_lt hwidth
  cases hmove.change with
  | @acts i before after c t hready hc hturn =>
    have hi := h.ready_open i (head_mem_ready hready)
    obtain ⟨hcpermit, hnext⟩ := Course.isPermit_turn (h.timed i c hc) hturn
    have hentered : entered (w.courses.set i t.next) = entered w.courses :=
      entered_set hc (hnext.trans hcpermit.symm)
    refine h.replace rfl rfl (nodup_cons_rest hready h) (mem_cons_rest_iff hready) h.waiting_nodup
      (mem_iff_mem_and_ne hi.1) hi.2 (Course.timed_turn (h.timed i c hc) hturn)
      (fun _ hne => Course.timersOf_turn_of_ne hturn hne) ?_ h.waiting_full
    simp only [hentered]
    exact h.permits
  | @rests i before after c hready hc hended hpermit hturn =>
    exact h.leave hready rfl rfl rfl rfl rfl
      (.inl ⟨rfl, .inr ((h.timed i c hc).ne_nil hturn hended hpermit)⟩)
  | @enters i before after next hready hc hpermits =>
    have hi := h.ready_open i (head_mem_ready hready)
    have htimed := h.timed i _ hc
    have hentered := entered_set_of_permit hc htimed.1.isPermit_eq_false
    have hall := h.permits
    refine h.replace rfl rfl (nodup_cons_rest hready h) (mem_cons_rest_iff hready) h.waiting_nodup
      (mem_iff_mem_and_ne hi.1) hi.2 ?_ (fun _ _ => rfl) ?_ ?_
    · simp only [htimed.2]
      exact htimed.1.timed
    · simp only [hentered]
      omega
    · exact fun hwaiting => absurd (h.waiting_full hwaiting) hpermits
  | @queues i before after next hready hc hpermits =>
    exact h.leave hready rfl rfl rfl rfl rfl (.inr ⟨rfl, hpermits, next, hc⟩)
  | @ends i before after ending hready hc =>
    rw [Nat.zero_add] at h ⊢
    exact inLine_release (inLine_record hready h hc)
  | @misses i before after hready hc =>
    exact h.leave hready rfl rfl rfl rfl rfl (.inl ⟨rfl, .inl hc⟩)
  | @wakes t before after c htimers hc =>
    have htimed := h.timed _ c hc
    have hsome := timersOf_ne_nil htimers
    rw [htimers] at htimed
    have hentered : entered (w.courses.set t.course (c.wake t.purpose)) = entered w.courses :=
      entered_set hc (Course.isPermit_wake htimed t.purpose)
    -- a course with a timer does not wait for a permit
    have hout : t.course ∉ w.waiting := fun hmem => by
      obtain ⟨next, hnext⟩ := h.waiting_permit _ hmem
      exact hsome (h.timed _ _ hnext).2
    refine h.replace rfl rfl (nodup_join h.ready_nodup) (fun _ => mem_join) h.waiting_nodup
      (mem_iff_mem_and_ne hout) (h.not_settled_of_timer htimers) (Course.timed_wake rfl htimed)
      (fun j hj => timersOf_of_ne htimers hj) ?_ h.waiting_full
    simp only [hentered]
    exact h.permits
  -- a timer for no course, which no course can miss
  | @lapses t before after htimers hc =>
    refine ⟨h.ready_nodup, h.waiting_nodup, h.settled_nodup, h.ready_open, h.waiting_permit, h.ended,
      ?_, ?_, h.permits, h.waiting_full⟩
    · intro j c hj
      have hne : j ≠ t.course := by
        rintro rfl
        rw [hc] at hj
        cases hj
      rw [timersOf_of_ne htimers hne]
      exact h.timed j c hj
    · intro j hj
      have hne : j ≠ t.course := by
        rintro rfl
        rw [List.getElem?_eq_none_iff] at hc
        exact absurd hj (Nat.not_lt.2 hc)
      rw [timersOf_of_ne htimers hne]
      exact h.somewhere j hj
  | outside now cancelled _ =>
    exact ⟨h.ready_nodup, h.waiting_nodup, h.settled_nodup, h.ready_open, h.waiting_permit, h.ended,
      h.timed, h.somewhere, h.permits, h.waiting_full⟩

/-- Any number of moves keep the line. -/
theorem inLine_moves [Schema.Validator] (hwidth : 0 < width) {observer : Observer} {v : Wave}
    (h : InLine width w)
    (hmoves : Relation.ReflTransGen (Move observer) w v) : InLine width v := by
  induction hmoves with
  | refl => exact h
  | tail _ hmove ih => exact inLine_move hwidth ih hmove

/-! ## When nothing is left to happen -/

/-- Note is taken only of courses that are there. -/
theorem InLine.settled_lt (h : InLine width w) {i : Nat} (hi : i ∈ w.settled) :
    i < w.courses.length := by
  obtain ⟨p, hp, rfl⟩ := List.mem_map.1 hi
  exact (List.getElem?_eq_some_iff.1 (h.ended p hp)).1

/-- If no course is in the line and no timer is set, all courses have ended. -/
theorem InLine.isOver_of_idle (hwidth : 0 < width) (h : InLine width w) (hready : w.ready = [])
    (htimers : w.timers = []) : w.IsOver := by
  have hplace : ∀ i < w.courses.length, i ∈ w.waiting ∨ i ∈ w.settled := by
    intro i hi
    rcases h.somewhere i hi with hline | hwait | hdone | htimer
    · rw [hready] at hline
      exact absurd hline List.not_mem_nil
    · exact .inl hwait
    · exact .inr hdone
    · rw [htimers] at htimer
      exact absurd rfl htimer
  rcases Classical.em (w.waiting = []) with hnone | hsome
  · intro i hi
    rcases hplace i hi with hwait | hdone
    · rw [hnone] at hwait
      exact absurd hwait List.not_mem_nil
    · exact hdone
  · -- somebody waits, so more courses have entered than have ended, and one of them is at work
    exfalso
    have hentered : entered w.courses ≤ w.settled.length := by
      refine entered_le_length fun i c hc hpermit => ?_
      refine (hplace i (List.getElem?_eq_some_iff.1 hc).1).resolve_left ?_
      refine h.not_waiting hc fun next heq => ?_
      rw [heq] at hpermit
      cases hpermit
    have hpermits := h.permits
    rw [h.waiting_full hsome] at hpermits
    rw [settled, List.length_map] at hentered
    omega

/-- The run of a wave in line ends with all courses at their end. -/
theorem isOver_run [Schema.Validator] (hwidth : 0 < width) {observer : Observer}
    (h : InLine width w) :
    (w.run observer).IsOver := by
  obtain ⟨hready, htimers⟩ := idle_of_step?_eq_none (step?_run observer w)
  exact (inLine_moves hwidth h (moves_run observer w)).isOver_of_idle hwidth hready htimers

/-- In a wave that is over, every course has ended as note has been taken of it. -/
theorem InLine.exists_ending (h : InLine width w) (hover : w.IsOver) {i : Nat} {c : Course}
    (hc : w.courses[i]? = some c) : ∃ ending, c = .ended ending ∧ (i, ending) ∈ w.endings := by
  obtain ⟨p, hp, rfl⟩ := List.mem_map.1 (hover i (List.getElem?_eq_some_iff.1 hc).1)
  exact ⟨p.2, Option.some.inj (hc.symm.trans (h.ended p hp)), hp⟩

/-- When all courses have ended, note has been taken of each of them once. -/
theorem InLine.settled_perm (h : InLine width w) (hover : w.IsOver) :
    w.settled.Perm (List.range w.courses.length) := by
  refine (List.perm_ext_iff_of_nodup h.settled_nodup List.nodup_range).2 fun i => ?_
  rw [List.mem_range]
  exact ⟨h.settled_lt, hover i⟩

end Wave

end Wavefront
