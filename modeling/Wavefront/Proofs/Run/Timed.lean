/-
Courses and their timers: whoever waits has a timer that will put him back in line.

A paused course has one timer, for the end of its pause. An attempt within its time limit has the
timer of that limit, or else every call that a tool is at work for has one of its own. No other
course has any. Turns and timers keep this, since what a course goes on with is fresh: nothing in it
waits already.
-/
import Wavefront.Proofs.Run.Turn

set_option autoImplicit false

namespace Wavefront

/-! ## What is fresh -/

/-- No fan-out of the work has a call that a tool is already at work for. -/
def Work.Fresh {α : Type} : Work α → Prop
  | done _ => True
  | read next => ∀ context, (next context).Fresh
  | write _ _ next => ∀ fault, (next fault).Fresh
  | gather f next =>
      (∀ h ∈ f.held, ∀ outcome, h.stage ≠ .running outcome) ∧ ∀ r, (next r).Fresh

/-- The course has its permit, and it does not wait yet, nor has any time limit of it been set
off. -/
def Course.Fresh : Course → Prop
  | ended _ => True
  | permit _ => False
  | begin _ next => ∀ index, (next index).Fresh
  | notify _ next => next.Fresh
  | ask next => ∀ cancelled, (next cancelled).Fresh
  | inspect next => ∀ context, (next context).Fresh
  | attempt limit _ next => limit ≠ .running ∧ ∀ r, (next r).Fresh
  | settle _ _ next => next.Fresh
  | pause _ next => next.Fresh
  | paused _ => False

/-- What comes after an attempt that has failed. -/
def Course.afterFailure [Schema.Validator] (s : Settings) (n : Node) (index : Nat) :
    (left retry : Nat) → Error → Course
  | 0, retry, e => fail n index retry e.message
  | left + 1, retry, _ =>
      .pause (s.backoffMs (UInt32.ofNat (retry + 1))).toNat (attempts s n index left (retry + 1))

/-- All attempts are alike: a check, a look at the context, the work, and what follows a failure. -/
theorem Course.attempts_eq [Schema.Validator] (s : Settings) (n : Node) (index left retry : Nat) :
    attempts s n index left retry = .ask fun cancelled =>
      if cancelled then cancel index retry
      else .inspect fun context =>
        match requireContext n.id n.policy.inputSchema context with
        | .error e => afterFailure s n index left retry e
        | .ok () =>
            .attempt (.set (limitOf s n)) (n.task.work s n.id).run fun
              | some (.ok output) => succeed n index retry output
              | some (.error e) => afterFailure s n index left retry e
              | none => afterFailure s n index left retry (.timeout n.id (limitOf s n)) := by
  cases left <;> rfl

/-- Attempts have a property if everything that comes up in them has it from what comes next. Behind
a look at the context, where an attempt begins, it may be another one, and there it is known whether
the context was refused. What an attempt goes on with is known as well: a result ends the course,
and after anything else comes a failure, or a pause and the attempts that are left. -/
theorem Course.attempts_induction_of_results [Schema.Validator] {P : Course → Prop}
    {Q : Value → Course → Prop} {s : Settings} {n : Node} {index : Nat}
    (hcancel : ∀ retry, P (cancel index retry))
    (hpause : ∀ ms next, P next → P (.pause ms next))
    (hask : ∀ next, (∀ cancelled, P (next cancelled)) → P (.ask next))
    (hinspect : ∀ next, (∀ context, Q context (next context)) → P (.inspect next))
    (hrefuse : ∀ retry context e next, requireContext n.id n.policy.inputSchema context = .error e →
      (P (fail n index retry e.message) → P next) → Q context next)
    (hattempt : ∀ retry context next, requireContext n.id n.policy.inputSchema context = .ok () →
      (∀ output, next (some (.ok output)) = succeed n index retry output) →
      (∀ e, P (fail n index retry e.message) → P (next (some (.error e)))) →
      (P (fail n index retry (Error.timeout n.id (limitOf s n)).message) → P (next none)) →
      Q context (.attempt (.set (limitOf s n)) (n.task.work s n.id).run next)) (left retry : Nat) :
    P (attempts s n index left retry) := by
  induction left using Nat.strongRecOn generalizing retry with
  | ind left ih =>
    -- after a failure comes the end, or a pause and the attempts that are left
    have hafter : ∀ e : Error, P (fail n index retry e.message) →
        P (afterFailure s n index left retry e) := by
      intro e hfail
      cases left with
      | zero => exact hfail
      | succ left => exact hpause _ _ (ih left (Nat.lt_succ_self left) (retry + 1))
    rw [attempts_eq]
    refine hask _ fun cancelled => ?_
    cases cancelled with
    | true => exact hcancel retry
    | false =>
      refine hinspect _ fun context => ?_
      cases hcontext : requireContext n.id n.policy.inputSchema context with
      | error e => exact hrefuse retry context e _ hcontext (hafter e)
      | ok _ => exact hattempt retry context _ hcontext (fun _ => rfl) hafter (hafter _)

/-- Attempts have a property if what they end with has, and everything else that comes up in them
has it from what comes next. -/
theorem Course.attempts_induction [Schema.Validator] {P : Course → Prop} {s : Settings} {n : Node}
    {index : Nat}
    (hcancel : ∀ retry, P (cancel index retry))
    (hsucceed : ∀ retry output, P (succeed n index retry output))
    (hfail : ∀ retry message, P (fail n index retry message))
    (hpause : ∀ ms next, P next → P (.pause ms next))
    (hask : ∀ next, (∀ cancelled, P (next cancelled)) → P (.ask next))
    (hinspect : ∀ next, (∀ context, P (next context)) → P (.inspect next))
    (hattempt : ∀ next, (∀ r, P (next r)) →
      P (.attempt (.set (limitOf s n)) (n.task.work s n.id).run next)) (left retry : Nat) :
    P (attempts s n index left retry) := by
  refine attempts_induction_of_results (Q := fun _ => P) hcancel hpause hask hinspect
    (fun retry _ e _ _ hnext => hnext (hfail retry e.message))
    (fun retry _ next _ hok herror hnone => hattempt next ?_) left retry
  rintro (_ | (e | output))
  · exact hnone (hfail retry _)
  · exact herror e (hfail retry _)
  · exact hok output ▸ hsucceed retry output

/-- Nothing in the attempts of a node waits already. -/
theorem Course.fresh_attempts [Schema.Validator] (s : Settings) (n : Node)
    (index left retry : Nat) :
    (attempts s n index left retry).Fresh :=
  attempts_induction (fun _ => trivial) (fun _ _ => trivial) (fun _ _ => trivial)
    (fun _ _ hnext => hnext) (fun _ hnext => hnext) (fun _ hnext => hnext)
    (fun _ hnext => ⟨Limit.noConfusion, hnext⟩) left retry

/-! ## Timers -/

/-- Every call that a tool is at work for has a timer, and what the work goes on with is fresh. -/
def Work.Clocked (timers : List Timer) : Work (Except Error Value) → Prop
  | .gather f next =>
      (∀ place h outcome, f.held[place]? = some h → h.stage = .running outcome →
        ∃ t ∈ timers, t.purpose = .call (f.number place)) ∧ ∀ r, (next r).Fresh
  | work => work.Fresh

/-- Where no call is under way, none needs a timer. -/
theorem Work.Fresh.clocked {work : Work (Except Error Value)} (h : work.Fresh)
    (timers : List Timer) : work.Clocked timers := by
  cases work with
  | done r => exact h
  | read next => exact h
  | write path value next => exact h
  | gather f next =>
    refine ⟨fun place held outcome hplace hrunning => ?_, h.2⟩
    exact absurd hrunning (h.1 held (List.mem_of_getElem? hplace) outcome)

/-- The timers of a course are those that it needs. -/
def Course.Timed (timers : List Timer) : Course → Prop
  | .permit next => next.Fresh ∧ timers = []
  | .paused next => next.Fresh ∧ ∃ t, timers = [t] ∧ t.purpose = .pause
  | .attempt limit work next =>
      (∀ r, (next r).Fresh) ∧
        (limit = .running → (∃ t ∈ timers, t.purpose = .limit) ∨ work.Clocked timers)
  | c => c.Fresh ∧ timers = []

/-- A fresh course needs no timers. -/
theorem Course.Fresh.timed {c : Course} (h : c.Fresh) : c.Timed [] := by
  cases c with
  | permit next => exact h.elim
  | paused next => exact h.elim
  | attempt limit work next => exact ⟨h.2, fun hlimit => absurd hlimit h.1⟩
  | ended _ => exact ⟨h, rfl⟩
  | begin _ _ => exact ⟨h, rfl⟩
  | notify _ _ => exact ⟨h, rfl⟩
  | ask _ => exact ⟨h, rfl⟩
  | inspect _ => exact ⟨h, rfl⟩
  | settle _ _ _ => exact ⟨h, rfl⟩
  | pause _ _ => exact ⟨h, rfl⟩

theorem Course.timed_ofNode [Schema.Validator] (s : Settings) (n : Node) : (ofNode s n).Timed [] :=
  ⟨fun index => fresh_attempts s n index (retriesOf s n) 0, rfl⟩

/-! ## Calls keep their timers -/

namespace Fanout

/-- A call that a tool is at work for after the change of another one was there before. -/
theorem held_of_setStage {f : Fanout} {place k : Nat} {stage : Stage} {h : Held} {outcome : Outcome}
    (hk : (f.setStage place stage).held[k]? = some h) (hrunning : h.stage = .running outcome)
    (hstage : ∀ outcome, stage ≠ .running outcome) : f.held[k]? = some h := by
  rw [setStage, List.getElem?_modify] at hk
  by_cases hplace : place = k
  · obtain ⟨old, _, rfl⟩ := Option.map_eq_some_iff.1 hk
    simp only [hplace, if_true] at hrunning
    exact absurd hrunning (hstage outcome)
  · simpa [hplace] using hk

/-- A call that is under way was so before a result was collected, one place further behind. -/
theorem held_of_collect {f : Fanout} {v : Value} {k : Nat} {h : Held} {outcome : Outcome}
    (hk : (f.collect v).held[k]? = some h) (hrunning : h.stage = .running outcome) :
    f.held[k + 1]? = some h := by
  have hlt : k < f.held.tail.length := by
    refine Nat.lt_of_not_le fun hle => ?_
    rw [collect, fill, List.getElem?_append_right hle] at hk
    obtain ⟨call, _, rfl⟩ := List.mem_map.1 (List.mem_of_getElem? hk)
    cases hrunning
  rw [collect, fill, List.getElem?_append_left hlt, List.getElem?_tail] at hk
  exact hk

/-- A fan-out that waits has a call that a tool is at work for. -/
theorem exists_running_of_wait {f : Fanout} (h : f.next = .wait) :
    ∃ held outcome, f.held[0]? = some held ∧ held.stage = .running outcome := by
  unfold next at h
  split at h
  · cases h
  · cases h
  · cases h
  · rename_i hnil herror hok
    obtain ⟨width, untaken, held, results⟩ := f
    -- the oldest call decides: in any other stage there would be something to do
    rcases held with _ | ⟨⟨call, stage⟩, held⟩
    · exact absurd rfl hnil
    · refine ⟨⟨call, stage⟩, ?_⟩
      cases stage with
      | running outcome => exact ⟨outcome, rfl, rfl⟩
      | ended result =>
        cases result with
        | error e => exact absurd rfl (herror call e held)
        | ok v => exact absurd rfl (hok call v held)
      | fresh => cases h
      | awake outcome => cases h

end Fanout

/-- A call that has ended needs no timer. -/
theorem Work.Clocked.ended {f : Fanout} {next : Except Error (List Value) → Work (Except Error Value)}
    {timers : List Timer} (h : (gather f next).Clocked timers) (place : Nat)
    (r : Except Error Value) : (gather (f.setStage place (.ended r)) next).Clocked timers := by
  refine ⟨fun k held outcome hk hrunning => ?_, h.2⟩
  exact h.1 k held outcome (Fanout.held_of_setStage hk hrunning fun _ => Stage.noConfusion) hrunning

/-- Turns keep the timers that are needed, and a call that takes time gets one when it begins. -/
theorem Work.clocked_turn [Schema.Validator] {work work' : Work (Except Error Value)}
    {course busy : Nat} {w : World}
    {timers : List Timer} {t : Turn Advance} (h : work.Clocked (timersOf course timers))
    (ht : work.turn course busy w timers = some t) (hwork : t.next = .on work') :
    work'.Clocked (timersOf course t.timers) := by
  cases turns_of_turn ht with
  | reads next => exact Advance.on.inj hwork ▸ Fresh.clocked (h _) _
  | writes _ _ _ => exact Advance.on.inj hwork ▸ Fresh.clocked (h _) _
  | finishes _ _ => exact Advance.on.inj hwork ▸ Fresh.clocked (h.2 _) _
  | refuses _ _ _ => exact Advance.on.inj hwork ▸ h.ended _ _
  | returns _ _ _ _ _ => exact Advance.on.inj hwork ▸ h.ended _ _
  | concludes _ _ _ => exact Advance.on.inj hwork ▸ h.ended _ _
  | upsets _ _ _ _ _ => cases hwork
  | panics _ _ _ => cases hwork
  -- places move up by one while the results grow by one, so the numbers of calls stay
  | collects _ _ =>
    obtain rfl := Advance.on.inj hwork
    refine ⟨fun k held outcome hk hrunning => ?_, h.2⟩
    obtain ⟨u, hu, hpurpose⟩ := h.1 (k + 1) held outcome (Fanout.held_of_collect hk hrunning) hrunning
    refine ⟨u, hu, hpurpose.trans ?_⟩
    rw [Fanout.number, Fanout.number, Fanout.collect, Fanout.fill, List.length_append,
      List.length_singleton, Nat.add_right_comm, Nat.add_assoc]
  -- the call that begins has its own timer set in this turn
  | @begins f place c next _ _ _ =>
    obtain rfl := Advance.on.inj hwork
    refine ⟨fun k held outcome hk hrunning => ?_, h.2⟩
    rw [timersOf_append, timersOf_singleton_self]
    by_cases hplace : place = k
    · rw [← hplace]
      exact ⟨_, List.mem_append_right _ (List.mem_singleton_self _), rfl⟩
    · have hheld : f.held[k]? = some held := by
        rw [Fanout.setStage, List.getElem?_modify] at hk
        simpa [hplace] using hk
      obtain ⟨u, hu, hpurpose⟩ := h.1 k held outcome hheld hrunning
      exact ⟨u, List.mem_append_left _ hu, hpurpose⟩

/-- Work that has to wait has a timer. -/
theorem Work.Clocked.ne_nil [Schema.Validator] {work : Work (Except Error Value)}
    {timers : List Timer}
    (h : work.Clocked timers) {course busy : Nat} {w : World} {all : List Timer}
    (ht : work.turn course busy w all = none) (hdone : ∀ r, work ≠ .done r) : timers ≠ [] := by
  rcases Work.waits_of_turn_eq_none ht with ⟨r, rfl⟩ | ⟨f, next, rfl, hnext⟩
  · exact absurd rfl (hdone r)
  · obtain ⟨held, outcome, hheld, hrunning⟩ := Fanout.exists_running_of_wait hnext
    obtain ⟨t, ht', _⟩ := h.1 0 held outcome hheld hrunning
    exact List.ne_nil_of_mem ht'

/-- More timers keep what each call needs. -/
theorem Work.Clocked.mono {work : Work (Except Error Value)} {ts us : List Timer}
    (h : work.Clocked ts) (hsub : ∀ t ∈ ts, ∀ number, t.purpose = .call number → t ∈ us) :
    work.Clocked us := by
  cases work with
  | done r => exact h
  | read next => exact h
  | write path value next => exact h
  | gather f next =>
    refine ⟨fun k held outcome hk hrunning => ?_, h.2⟩
    obtain ⟨t, ht, hpurpose⟩ := h.1 k held outcome hk hrunning
    exact ⟨t, hsub t ht _ hpurpose, hpurpose⟩

/-- The timer that wakes a call is not missed. -/
theorem Work.Clocked.wake {f : Fanout} {next : Except Error (List Value) → Work (Except Error Value)}
    {ts us : List Timer} {number : Nat} (h : (gather f next).Clocked ts)
    (hsub : ∀ t ∈ ts, t.purpose ≠ .call number → t ∈ us) :
    (gather (f.wake number) next).Clocked us := by
  refine ⟨fun k held outcome hk hrunning => ?_, h.2⟩
  simp only [Fanout.wake, List.getElem?_modify] at hk
  -- the call whose timer went off is awake now, and needs none any more
  by_cases hplace : number - f.results.length = k
  · simp only [hplace, if_true] at hk
    obtain ⟨old, _, rfl⟩ := Option.map_eq_some_iff.1 hk
    cases hstage : old.stage <;> simp [hstage, Stage.wake] at hrunning
  · have hheld : f.held[k]? = some held := by simpa [hplace] using hk
    obtain ⟨t, ht, hpurpose⟩ := h.1 k held outcome hheld hrunning
    refine ⟨t, hsub t ht ?_, hpurpose⟩
    rw [hpurpose, Fanout.number]
    intro heq
    have hnumber := Purpose.call.inj heq
    omega

/-! ## Turns keep the timers that are needed -/

/-- A turn within a time limit leaves the attempt with the timers that it needs. -/
theorem Limit.timed_turn [Schema.Validator] {limit : Limit} {work : Work (Except Error Value)}
    {next : Option (Except Error Value) → Course} {course busy : Nat} {w : World}
    {timers : List Timer} {t : Turn Course} (h : (Course.attempt limit work next).Timed
      (timersOf course timers))
    (ht : limit.turn work next course busy w timers = some t) :
    t.next.Timed (timersOf course t.timers) := by
  obtain ⟨hnext, hlimit⟩ := h
  cases does_of_turn ht with
  | ends r =>
    rw [timersOf_dropTimers_self]
    exact (hnext (some r)).timed
  | works hturn =>
    refine ⟨hnext, fun hrunning => ?_⟩
    rcases hlimit hrunning with ⟨u, hu, hpurpose⟩ | hclocked
    · refine .inl ⟨u, ?_, hpurpose⟩
      have hsame := Work.sameButCalls_turn hturn
      exact hsame.mem_timersOf (by rw [hpurpose]; rfl) hu
    · exact .inr (Work.clocked_turn hclocked hturn rfl)
  | panics _ =>
    rw [timersOf_dropTimers_self]
    exact ⟨trivial, rfl⟩
  | limits due _ =>
    refine ⟨hnext, fun _ => .inl ?_⟩
    rw [timersOf_append, timersOf_singleton_self]
    exact ⟨_, List.mem_append_right _ (List.mem_singleton_self _), rfl⟩
  | stops _ =>
    rw [timersOf_dropTimers_self]
    exact (hnext none).timed

namespace Course

/-- A turn keeps the timers that are needed, and nobody gives his permit back by it. -/
theorem timed_turn [Schema.Validator] {c : Course} {observer : Observer} {course busy : Nat}
    {w : World}
    {timers : List Timer} {t : Turn Course} (h : c.Timed (timersOf course timers))
    (ht : c.turn observer course busy w timers = some t) :
    t.next.Timed (timersOf course t.timers) := by
  cases c with
  | ended _ => cases ht
  | permit _ => cases ht
  | paused _ => cases ht
  | attempt limit work next => exact Limit.timed_turn h ht
  | begin entry next =>
    obtain rfl := Option.some.inj ht
    simp only [h.2]
    exact (h.1 _).timed
  | notify notice next =>
    cases turns_of_turn ht with
    | tells =>
      simp only [h.2]
      exact (show next.Fresh from h.1).timed
    | upsets =>
      simp only [h.2]
      exact ⟨trivial, rfl⟩
  | ask next =>
    obtain rfl := Option.some.inj ht
    simp only [h.2]
    exact (h.1 _).timed
  | inspect next =>
    obtain rfl := Option.some.inj ht
    simp only [h.2]
    exact (h.1 _).timed
  | settle index change next =>
    obtain rfl := Option.some.inj ht
    simp only [h.2]
    exact (show next.Fresh from h.1).timed
  -- a pause of no length has no timer, and any other one sets just its own
  | pause ms next =>
    have hfresh : next.Fresh := h.1
    cases turns_of_turn ht with
    | skips =>
      simp only [h.2]
      exact hfresh.timed
    | pauses _ due _ =>
      refine ⟨hfresh, ⟨due, course, .pause⟩, ?_, rfl⟩
      rw [timersOf_append, h.2, timersOf_singleton_self]
      rfl

/-- Whoever waits has a timer. -/
theorem Timed.ne_nil [Schema.Validator] {c : Course} {observer : Observer} {course busy : Nat}
    {w : World}
    {timers : List Timer} (h : c.Timed (timersOf course timers))
    (ht : c.turn observer course busy w timers = none) (hended : ∀ ending, c ≠ .ended ending)
    (hpermit : ∀ next, c ≠ .permit next) : timersOf course timers ≠ [] := by
  rcases waits_of_turn_eq_none ht hended hpermit with ⟨next, rfl⟩ | ⟨work, next, rfl⟩
  · obtain ⟨t, htimers, _⟩ := h.2
    rw [htimers]
    exact List.cons_ne_nil _ _
  · rcases h.2 rfl with ⟨t, hmem, _⟩ | hclocked
    · exact List.ne_nil_of_mem hmem
    · have hlimit : Limit.running.turn work next course busy w timers = none := ht
      obtain ⟨-, hdone, hturn⟩ := Limit.waits_of_turn_eq_none hlimit
      exact hclocked.ne_nil hturn hdone

section Wake

variable {course : Nat} {t : Timer} {before after : List Timer}

/-- The timers of a course, one of which stands between others. -/
theorem timersOf_append_cons_self (hcourse : t.course = course) :
    timersOf course (before ++ t :: after)
      = timersOf course before ++ t :: timersOf course after := by
  rw [timersOf_append, timersOf, timersOf, timersOf, List.filter_cons_of_pos (by simpa using hcourse)]

/-- When a timer goes off, the other ones stay. -/
theorem mem_timersOf_of_ne {u : Timer} (hu : u ∈ timersOf course (before ++ t :: after))
    (hne : u ≠ t) : u ∈ timersOf course (before ++ after) := by
  obtain ⟨hu, huc⟩ := mem_timersOf.1 hu
  refine mem_timersOf.2 ⟨?_, huc⟩
  rcases List.mem_append.1 hu with hu | hu
  · exact List.mem_append_left _ hu
  · exact List.mem_append_right _ ((List.mem_cons.1 hu).resolve_left hne)

/-- An attempt has the timers that it needs without the one that goes off: either its time is over
then, or the call that is woken needs a timer no more. -/
theorem timed_wake_attempt {limit : Limit} {work : Work (Except Error Value)}
    {next : Option (Except Error Value) → Course}
    (h : (attempt limit work next).Timed (timersOf course (before ++ t :: after))) :
    ((attempt limit work next).wake t.purpose).Timed (timersOf course (before ++ after)) := by
  obtain ⟨hnext, hlimit⟩ := h
  have hkept : ∀ u ∈ timersOf course (before ++ t :: after), u.purpose ≠ t.purpose →
      u ∈ timersOf course (before ++ after) := fun u hu hpurpose =>
    mem_timersOf_of_ne hu fun heq => hpurpose (by rw [heq])
  have hlimits : t.purpose ≠ .limit →
      (∃ u ∈ timersOf course (before ++ t :: after), u.purpose = .limit) →
      ∃ u ∈ timersOf course (before ++ after), u.purpose = .limit := by
    rintro hpurpose ⟨u, hu, hulimit⟩
    exact ⟨u, hkept u hu (hulimit ▸ Ne.symm hpurpose), hulimit⟩
  cases hpurpose : t.purpose with
  -- an attempt whose limit went off does not wait, and so needs no timers
  | limit =>
    cases limit with
    | running => exact ⟨hnext, Limit.noConfusion⟩
    | set ms => exact ⟨hnext, Limit.noConfusion⟩
    | expired => exact ⟨hnext, Limit.noConfusion⟩
  | pause =>
    rw [hpurpose] at hkept hlimits
    refine ⟨hnext, fun hrunning => (hlimit hrunning).imp (hlimits Purpose.noConfusion) ?_⟩
    refine fun hclocked => hclocked.mono fun u hu number hcall => hkept u hu ?_
    rw [hcall]
    exact Purpose.noConfusion
  | call number =>
    rw [hpurpose] at hkept hlimits
    have hlimits := hlimits Purpose.noConfusion
    cases work with
    | gather f next' =>
      exact ⟨hnext, fun hrunning => (hlimit hrunning).imp hlimits fun hclocked =>
        hclocked.wake hkept⟩
    | done _ => exact ⟨hnext, fun hrunning => (hlimit hrunning).imp hlimits id⟩
    | read _ => exact ⟨hnext, fun hrunning => (hlimit hrunning).imp hlimits id⟩
    | write _ _ _ => exact ⟨hnext, fun hrunning => (hlimit hrunning).imp hlimits id⟩

/-- When a timer goes off, the course that it wakes has the timers that it needs without it. -/
theorem timed_wake {c : Course} (hcourse : t.course = course)
    (h : c.Timed (timersOf course (before ++ t :: after))) :
    (c.wake t.purpose).Timed (timersOf course (before ++ after)) := by
  have hsplit : timersOf course (before ++ t :: after)
      = timersOf course before ++ t :: timersOf course after := timersOf_append_cons_self hcourse
  have hsome : timersOf course (before ++ t :: after) ≠ [] := by
    rw [hsplit]
    exact List.append_ne_nil_of_right_ne_nil _ (List.cons_ne_nil _ _)
  cases c with
  | paused next =>
    obtain ⟨hfresh, u, htimers, hpurpose⟩ := h
    -- it has one timer only, so that is the one that goes off
    rw [hsplit] at htimers
    obtain ⟨hbefore, hu⟩ := List.append_eq_singleton_iff.1 htimers |>.resolve_right
      fun hright => by simpa using hright.2
    obtain ⟨rfl, hafter⟩ := List.cons.inj hu
    rw [hpurpose, timersOf_append, hbefore, hafter]
    exact hfresh.timed
  | attempt limit work next => exact timed_wake_attempt h
  | permit _ => exact absurd h.2 hsome
  | ended _ => exact absurd h.2 hsome
  | begin _ _ => exact absurd h.2 hsome
  | notify _ _ => exact absurd h.2 hsome
  | ask _ => exact absurd h.2 hsome
  | inspect _ => exact absurd h.2 hsome
  | settle _ _ _ => exact absurd h.2 hsome
  | pause _ _ => exact absurd h.2 hsome

end Wake

end Course

end Wavefront
