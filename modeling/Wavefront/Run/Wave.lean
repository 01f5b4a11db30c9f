/-
Waves: the courses of the nodes that are executed together, one round of the loop in `run_graph`.

A wave gives turns to one course at a time. The course at the head of the ready line keeps its turn
until it has to wait or has ended; it then leaves the line, and whoever comes to be able to go on
joins the line at its end. A course that has a permit keeps it to its end and hands it to the first
that waits for one. Time stands still while a course is ready; when none is, it goes on to the
earliest timer. All timers that are due go off before the next turn, in the order in which they were
set.

Each step of a wave makes one course smaller, or leaves all courses as they are and shortens what
the wave has lined up. So a wave ends, and it is over when no step is left.
-/
import Wavefront.Run.World

set_option autoImplicit false

namespace Wavefront

/-! ## Smaller lists -/

/-- One member of the list below has been replaced by a smaller one. -/
inductive OneLess {α : Type} (r : α → α → Prop) : List α → List α → Prop
  | head {a b : α} (l : List α) (h : r b a) : OneLess r (b :: l) (a :: l)
  | tail (a : α) {l m : List α} (h : OneLess r m l) : OneLess r (a :: m) (a :: l)

/-- Lists with one member more: the members become smaller one at a time. -/
theorem acc_oneLess_cons {α : Type} {r : α → α → Prop} {a : α} (ha : Acc r a) :
    ∀ {l : List α}, Acc (OneLess r) l → Acc (OneLess r) (a :: l) := by
  induction ha with
  | intro a _ iha =>
    intro l hl
    induction hl with
    | intro l hacc ihl =>
      refine Acc.intro _ fun m hm => ?_
      cases hm with
      | head _ h => exact iha _ h (Acc.intro _ hacc)
      | tail _ h => exact ihl _ h

/-- Replacing members by smaller ones comes to an end when every member is accessible. -/
theorem acc_oneLess {α : Type} {r : α → α → Prop} (hr : ∀ a, Acc r a) (l : List α) :
    Acc (OneLess r) l := by
  induction l with
  | nil => exact Acc.intro _ fun _ h => by cases h
  | cons a l ih => exact acc_oneLess_cons (hr a) ih

/-- Replacing the member at a place by a smaller one is one such step. -/
theorem oneLess_set {α : Type} {r : α → α → Prop} {l : List α} {i : Nat} {a b : α}
    (hi : l[i]? = some a) (h : r b a) : OneLess r (l.set i b) l := by
  induction l generalizing i with
  | nil => simp at hi
  | cons x l ih =>
    cases i with
    | zero =>
      obtain rfl : x = a := by simpa using hi
      exact .head l h
    | succ i => exact .tail x (ih (by simpa using hi))

/-- Putting a member where it is changes nothing. -/
theorem set_eq_self {α : Type} {l : List α} {i : Nat} {a : α} (hi : l[i]? = some a) :
    l.set i a = l := by
  induction l generalizing i with
  | nil => rfl
  | cons x l ih =>
    cases i with
    | zero =>
      obtain rfl : x = a := by simpa using hi
      rfl
    | succ i => simp [ih (by simpa using hi)]

/-! ## Waking -/

theorem Stage.wake_eq_or_lt (s : Stage) : s.wake = s ∨ s.wake.weight < s.weight := by
  cases s <;> simp [Stage.wake, Stage.weight]

/-- A fan-out in which a call is woken stays as it is or becomes lighter. -/
theorem Fanout.wake_eq_or_lt (f : Fanout) (number : Nat) :
    f.wake number = f ∨ (f.wake number).weight < f.weight := by
  obtain ⟨width, untaken, held, results⟩ := f
  cases hplace : held[number - results.length]? with
  | none =>
    left
    simp only [Fanout.wake, Fanout.mk.injEq, true_and, and_true]
    exact List.modify_eq_self (List.getElem?_eq_none_iff.1 hplace)
  | some h =>
    rcases Stage.wake_eq_or_lt h.stage with heq | hlt
    · left
      simp only [Fanout.wake, Fanout.mk.injEq, true_and, and_true]
      refine List.ext_getElem? fun i => ?_
      rw [List.getElem?_modify]
      by_cases hi : number - results.length = i
      · subst hi
        simp [hplace, heq]
      · simp [hi]
    · right
      have : Fanout.heldWeight (Fanout.wake ⟨width, untaken, held, results⟩ number).held
          < Fanout.heldWeight held := Fanout.heldWeight_modify_lt hplace hlt
      simp only [Fanout.weight, Fanout.wake] at this ⊢
      omega

/-- A course that is woken stays as it is or is smaller. -/
theorem Course.wake_eq_or_less (c : Course) (p : Purpose) :
    c.wake p = c ∨ Course.Less (c.wake p) c := by
  unfold Course.wake
  split
  · exact .inr (.wake _)
  · exact .inr (.limit _ _ (by simp [Limit.rank]))
  · rename_i number limit f next k
    rcases Fanout.wake_eq_or_lt f number with h | h
    · exact .inl (by rw [h])
    · exact .inr (.work _ _ (.advance _ h))
  · exact .inl rfl

/-! ## Waves -/

/-- The number of calls of a course that tools are at work for. -/
def Course.busy : Course → Nat
  | attempt _ (.gather f _) _ => f.busy
  | _ => 0

/-- A wave, which is what `run_graph` spawns and joins in one round of its loop. Courses are known
by their places. -/
structure Wave where
  world : World
  /-- The ids of the nodes. -/
  ids : List String
  courses : List Course
  /-- The courses that can go on, in the order of their turns. -/
  ready : List Nat
  /-- The courses that wait for a permit. -/
  waiting : List Nat := []
  /-- The number of permits that are left. -/
  permits : Nat
  /-- The timers, in the order in which they were set. -/
  timers : List Timer := []
  /-- How courses ended, in the order in which they did. -/
  endings : List (Nat × Ending) := []

namespace Wave

variable [Schema.Validator]

/-- The wave of some nodes, of which at most `width` are at work at once: that many permits the
semaphore has. -/
def ofNodes (s : Settings) (world : World) (nodes : List Node) : Wave where
  world := world
  ids := nodes.map Node.id
  courses := nodes.map (Course.ofNode s)
  ready := List.range nodes.length
  permits := max s.concurrency.toNat 1

/-- The number of calls that tools are at work for. -/
def busy (w : Wave) : Nat := w.courses.foldr (fun c n => c.busy + n) 0

/-- Joins a line, unless it is there already. -/
def join (i : Nat) (line : List Nat) : List Nat := if i ∈ line then line else line ++ [i]

/-- Hands a permit on: to the first that waits for one, or back. -/
def release (w : Wave) : Wave :=
  match w.waiting with
  | [] => { w with permits := w.permits + 1 }
  | j :: waiting =>
      match w.courses[j]? with
      -- the permit changes hands without being free in between
      | some (.permit next) =>
          { w with
            waiting := waiting
            courses := w.courses.set j next
            ready := join j w.ready }
      | _ => { w with waiting := waiting }

/-- Records how a course ended, as `run_graph` does when it joins a task. The entry of one that was
aborted fails if it has not been settled. -/
def record (w : Wave) (i : Nat) (ending : Ending) : Wave :=
  let world := match ending with
    | .aborted message =>
        { w.world with
          trace := w.world.trace.failUnsettled w.world.moment (w.ids.getD i "") message }
    | .passed | .failed _ => w.world
  { w with world := world, endings := w.endings ++ [(i, ending)] }

/-- The turn of the course in some place, which has been taken off the head of the line. -/
def turn (w : Wave) (observer : Observer) (i : Nat) : Wave :=
  match w.courses[i]? with
  | none => w
  | some (.ended ending) => (w.record i ending).release
  | some (.permit next) =>
      if w.permits = 0 then { w with waiting := w.waiting ++ [i] }
      else
        { w with
          permits := w.permits - 1
          courses := w.courses.set i next
          ready := i :: w.ready }
  | some c =>
      match c.turn observer i w.busy w.world w.timers with
      -- it has to wait, and a timer will put it back in line
      | none => w
      | some t =>
          { w with
            world := t.world
            timers := t.timers
            courses := w.courses.set i t.next
            -- it keeps its place at the head of the line
            ready := i :: w.ready }

/-- A timer goes off, which has been taken off the timers. -/
def fire (w : Wave) (t : Timer) : Wave :=
  match w.courses[t.course]? with
  | none => w
  | some c =>
      { w with
        world := { w.world with now := max w.world.now t.due }
        courses := w.courses.set t.course (c.wake t.purpose)
        ready := join t.course w.ready }

/-- The time of the earliest timer, or a given time if there is none. -/
def earliest (default : Nat) : List Timer → Nat
  | [] => default
  | t :: timers => timers.foldl (fun time t => min time t.due) t.due

/-- The time up to which timers go off: now, or if no course is ready that of the earliest. -/
def horizon (w : Wave) : Nat :=
  if w.ready.isEmpty then earliest w.world.now w.timers else w.world.now

/-- The first timer that is due at some time, and the others. -/
def extract? (time : Nat) : List Timer → Option (Timer × List Timer)
  | [] => none
  | t :: timers =>
      if t.due ≤ time then some (t, timers)
      else (extract? time timers).map fun (first, rest) => (first, t :: rest)

/-- The next step of a wave: a timer that is due goes off, or the course at the head of the line has
a turn. -/
def step? (w : Wave) (observer : Observer) : Option Wave :=
  match extract? w.horizon w.timers with
  | some (t, timers) => some (fire { w with timers := timers } t)
  | none =>
      match w.ready with
      | i :: ready => some (turn { w with ready := ready } observer i)
      | [] => none

/-! ## Waves end -/

/-- What a wave has lined up. -/
def load (w : Wave) : Nat := 3 * w.timers.length + 2 * w.ready.length + w.waiting.length

/-- One course is smaller, or the courses are the same and less is lined up. -/
def Less (v w : Wave) : Prop :=
  OneLess Course.Less v.courses w.courses ∨ v.courses = w.courses ∧ v.load < w.load

omit [Schema.Validator] in
/-- What a wave has lined up only shrinks as long as its courses stay the same. -/
theorem acc_less_of_courses {l : List Course} (hl : Acc (OneLess Course.Less) l) :
    ∀ (n : Nat) (w : Wave), w.courses = l → w.load = n → Acc Less w := by
  induction hl with
  | intro l _ ihl =>
    intro n
    induction n using Nat.strongRecOn with
    | ind n ihn =>
      intro w hw hn
      refine Acc.intro _ fun v hv => ?_
      rcases hv with h | ⟨hc, h⟩
      · exact ihl _ (hw ▸ h) _ v rfl rfl
      · exact ihn _ (hn ▸ h) v (hc.trans hw) rfl

instance : WellFoundedRelation Wave where
  rel := Less
  wf := ⟨fun w => acc_less_of_courses (acc_oneLess Course.acc_less _) _ w rfl rfl⟩

omit [Schema.Validator] in
theorem length_join_le (i : Nat) (line : List Nat) : (join i line).length ≤ line.length + 1 := by
  unfold join
  split <;> simp

omit [Schema.Validator] in
/-- Taking a timer off the timers leaves one less. -/
theorem length_extract? {time : Nat} {timers rest : List Timer} {t : Timer}
    (h : extract? time timers = some (t, rest)) : rest.length + 1 = timers.length := by
  induction timers generalizing rest with
  | nil => simp [extract?] at h
  | cons first timers ih =>
    unfold extract? at h
    split at h
    · obtain ⟨rfl, rfl⟩ := Prod.mk.inj (Option.some.inj h)
      rfl
    · obtain ⟨⟨u, others⟩, hu, heq⟩ := Option.map_eq_some_iff.1 h
      obtain ⟨rfl, rfl⟩ := Prod.mk.inj heq
      have := ih hu
      simp only [List.length_cons]
      omega

omit [Schema.Validator] in
/-- A timer that goes off makes a wave smaller. -/
theorem fire_less {w : Wave} {time : Nat} {t : Timer} {timers : List Timer}
    (h : extract? time w.timers = some (t, timers)) :
    Less (fire { w with timers := timers } t) w := by
  have hlen := length_extract? h
  unfold fire
  split
  · exact .inr ⟨rfl, by simp only [load]; omega⟩
  · rename_i c hc
    rcases Course.wake_eq_or_less c t.purpose with heq | hless
    · refine .inr ⟨?_, ?_⟩
      · simp only [heq]
        exact set_eq_self hc
      · have := length_join_le t.course w.ready
        simp only [load]
        omega
    · exact .inl (oneLess_set hc hless)

/-- A turn makes a wave smaller. -/
theorem turn_less {w : Wave} {observer : Observer} {i : Nat} {ready : List Nat}
    (h : w.ready = i :: ready) : Less (turn { w with ready := ready } observer i) w := by
  have hlen : w.ready.length = ready.length + 1 := by rw [h]; rfl
  unfold turn
  split
  · exact .inr ⟨rfl, by simp only [load]; omega⟩
  · unfold release record
    split
    · exact .inr ⟨rfl, by simp_all only [load]; omega⟩
    · rename_i j waiting hw
      simp only at hw
      split
      · rename_i next hj
        exact .inl (oneLess_set hj (.permit _))
      · refine .inr ⟨rfl, ?_⟩
        simp only [load, hw, List.length_cons]
        omega
  · rename_i next hc
    split
    · refine .inr ⟨rfl, ?_⟩
      simp only [load, List.length_append, List.length_cons, List.length_nil]
      omega
    · exact .inl (oneLess_set hc (.permit _))
  · rename_i c _ _ hc
    split
    · exact .inr ⟨rfl, by simp only [load]; omega⟩
    · rename_i t ht
      exact .inl (oneLess_set hc (Course.turn_less ht))

/-- A step makes a wave smaller. -/
theorem step?_less {v w : Wave} {observer : Observer} (h : w.step? observer = some v) :
    Less v w := by
  unfold step? at h
  split at h
  · rename_i t timers ht
    obtain rfl := Option.some.inj h
    exact fire_less ht
  · split at h
    · rename_i i ready hr
      obtain rfl := Option.some.inj h
      exact turn_less hr
    · cases h

/-! ## Running waves -/

/-- Takes steps until none is left. -/
def run (w : Wave) (observer : Observer) : Wave :=
  match _h : w.step? observer with
  | some v => v.run observer
  | none => w
termination_by w
decreasing_by exact step?_less _h

end Wave

end Wavefront
