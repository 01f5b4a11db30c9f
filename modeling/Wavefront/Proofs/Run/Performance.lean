/-
Performances: how a piece of work is carried out, whoever else has turns in between.

A performance is told by its own turns. Each of them finds a world, in which others may have done
anything since the turn before, and leaves another one. Between the turns calls are woken, whichever
of them comes to its end first. So what holds of every performance holds whatever the others write
and however long calls take.

A performance does not go on forever, since whatever happens makes the work smaller. Nor is it
brought to a stop, unless a tool panics: until the work has ended it has a turn, or one of its calls
is still to be woken.
-/
import Wavefront.Proofs.Run.Attempts

set_option autoImplicit false

namespace Wavefront

/-! ## Deeds -/

/-- A turn of a piece of work: the world that it found, the world that it left, and the call that it
began, if it began one, with its number. -/
structure Deed where
  found : World
  left : World
  begun : Option (Nat × Call) := none

/-- The turn left the context as it found it. -/
def Deed.Spares (d : Deed) : Prop := d.left.context = d.found.context

/-! ## What happens to work -/

/-- The call that a fan-out begins at its next turn, with its number. -/
def Fanout.begins? (f : Fanout) : Option (Nat × Call) :=
  match f.next with
  | .start place call => some (f.number place, call)
  | _ => none

variable [Schema.Validator]

namespace Work

/-- The call that the work begins at its next turn, with its number. -/
def begins? {α : Type} : Work α → Option (Nat × Call)
  | gather f _ => f.begins?
  | _ => none

/-- What can happen next to a piece of work: it has a turn in some world, or a call that a tool is
at work for is woken. -/
inductive Goes : Work (Except Error Value) → Option Deed → Work (Except Error Value) → Prop
  | acts {work v : Work (Except Error Value)} {course busy : Nat} {w : World} {timers : List Timer}
      {t : Turn Advance} (ht : work.turn course busy w timers = some t) (hv : t.next = .on v) :
      Goes work (some ⟨w, t.world, work.begins?⟩) v
  | wakes {f : Fanout} {next : Except Error (List Value) → Work (Except Error Value)} {place : Nat}
      {call : Call} {outcome : Outcome} (h : f.held[place]? = some ⟨call, .running outcome⟩) :
      Goes (.gather f next) none (.gather (f.wake (f.number place)) next)

/-- The work is carried out by these turns until it is the other. -/
inductive Performs : Work (Except Error Value) → List Deed → Work (Except Error Value) → Prop
  | refl (work : Work (Except Error Value)) : Performs work [] work
  | head {work v u : Work (Except Error Value)} {d : Option Deed} {ds : List Deed}
      (h : Goes work d v) (hs : Performs v ds u) : Performs work (d.toList ++ ds) u

end Work

/-- What a call comes to that begins now: its result, or the message that its tool panics with. -/
def World.answer (w : World) (c : Call) : Except String (Except Error Value) :=
  match c.tool.check c.params with
  | .error e => .ok (.error e)
  | .ok () => (w.reaction c).outcome.result c.tool.id

/-- The call comes to this result, or has come to it. Of a call that has not begun nothing is
known. -/
def Held.Tends (h : Held) (r : Except Error Value) : Prop :=
  match h.stage with
  | .fresh => True
  | .running outcome | .awake outcome => outcome.result h.call.tool.id = .ok r
  | .ended result => result = r

/-! ### Fan-outs -/

/-- What can happen next to a fan-out: the result of its oldest call is collected, a call begins,
comes to its end or is woken. -/
inductive Fanout.Goes (f : Fanout) : Option Deed → Fanout → Prop
  | collects {v : Value} (hn : f.next = .collect v) (w : World) :
      Goes f (some ⟨w, w, none⟩) (f.collect v)
  | begins {place : Nat} {call : Call} {stage : Stage} {found left : World}
      (hn : f.next = .start place call) (hcontext : left.context = found.context)
      (hstage : ∀ r, found.answer call = .ok r → (Held.mk call stage).Tends r) :
      Goes f (some ⟨found, left, some (f.number place, call)⟩) (f.setStage place stage)
  | concludes {place : Nat} {call : Call} {outcome : Outcome} {result : Except Error Value}
      (hn : f.next = .conclude place call outcome)
      (hresult : outcome.result call.tool.id = .ok result) (w : World) :
      Goes f (some ⟨w, w, none⟩) (f.setStage place (.ended result))
  | wakes (place : Nat) : Goes f none (f.wake (f.number place))

omit [Schema.Validator] in
/-- To be woken changes a call only if a tool is at work for it. -/
theorem Fanout.wake_eq_or_running (f : Fanout) (number : Nat) : f.wake number = f ∨
    ∃ place call outcome, f.held[place]? = some ⟨call, .running outcome⟩ ∧
      f.wake number = f.wake (f.number place) := by
  have hnumber : f.number (number - f.results.length) - f.results.length
      = number - f.results.length := Nat.add_sub_cancel_left _ _
  have hwake : f.wake number = f.wake (f.number (number - f.results.length)) := by
    rw [wake, wake, hnumber]
  -- only a call that a tool is at work for can be woken
  by_cases hrunning : ∃ call outcome, f.held[number - f.results.length]? = some ⟨call, .running outcome⟩
  · obtain ⟨call, outcome, hplace⟩ := hrunning
    exact .inr ⟨_, call, outcome, hplace, hwake⟩
  · -- all other stages are left as they are, and so is a list without the place
    have hheld : (f.held.modify (number - f.results.length) fun h => { h with stage := h.stage.wake })
        = f.held := by
      refine List.ext_getElem? fun i => ?_
      rw [List.getElem?_modify]
      split
      · rename_i hi
        subst hi
        cases hplace : f.held[number - f.results.length]? with
        | none => rfl
        | some h =>
          obtain ⟨call, stage⟩ := h
          cases stage with
          | running outcome => exact absurd ⟨call, outcome, hplace⟩ hrunning
          | _ => rfl
      · cases f.held[i]? <;> rfl
    exact .inl (by rw [wake, hheld])

/-- What happens to a fan-out leaves the context as it is. -/
theorem Fanout.Goes.spares {f g : Fanout} {d : Option Deed} (h : f.Goes d g) : ∀ e ∈ d, e.Spares := by
  intro e he
  cases h with
  | collects _ _ =>
    obtain rfl := Option.some.inj he
    rfl
  | begins _ hcontext _ =>
    obtain rfl := Option.some.inj he
    exact hcontext
  | concludes _ _ _ =>
    obtain rfl := Option.some.inj he
    rfl
  | wakes _ => cases he

section Cases

variable {f : Fanout} {next : Except Error (List Value) → Work (Except Error Value)}
  {v : Work (Except Error Value)}

/-- A call that does not panic lets the work go on when it begins. -/
theorem Fanout.exists_of_answer {w : World} {c : Call} {r : Except Error Value}
    (hr : w.answer c = .ok r) (f : Fanout) (place : Nat)
    (next : Except Error (List Value) → Work (Except Error Value)) :
    ∃ v, (f.start place c next 0 0 w []).next = .on v := by
  rw [World.answer] at hr
  unfold start
  -- parameters that are refused are an answer as well
  cases hcheck : c.tool.check c.params with
  | error e => exact ⟨_, rfl⟩
  | ok _ =>
    rw [hcheck] at hr
    have hresult : (w.reaction c).outcome.result c.tool.id = .ok r := hr
    simp only
    split
    · unfold conclude
      rw [World.reaction] at hresult
      rw [hresult]
      exact ⟨_, rfl⟩
    · exact ⟨_, rfl⟩

/-! ### Case by case -/

namespace Work

variable {d : Option Deed}

theorem Goes.of_done {r : Except Error Value} (h : Goes (.done r) d v) : False := by
  cases h with
  | acts ht _ => cases ht

/-- Work that reads goes on with the context that it finds. -/
theorem Goes.of_read {next : Value → Work (Except Error Value)} (h : Goes (.read next) d v) :
    ∃ w, d = some ⟨w, w, none⟩ ∧ v = next w.context := by
  cases h with
  | @acts _ _ _ _ w _ _ ht hv =>
    obtain rfl := Option.some.inj ht
    exact ⟨w, rfl, (Advance.on.inj hv).symm⟩

/-- Work that writes leaves the context written, and goes on with what the write came to. -/
theorem Goes.of_write {path : String} {value : Value}
    {next : Option WriteFault → Work (Except Error Value)} (h : Goes (.write path value next) d v) :
    ∃ w, d = some ⟨w, { w with context := (w.context.set path value).tree }, none⟩ ∧
      v = next (w.context.set path value).fault := by
  cases h with
  | @acts _ _ _ _ w _ _ ht hv =>
    obtain rfl := Option.some.inj ht
    exact ⟨w, rfl, (Advance.on.inj hv).symm⟩

/-- A fan-out goes on, or it has ended and the work goes on with what it has come to. -/
theorem Goes.of_gather (h : Goes (.gather f next) d v) :
    (∃ g, f.Goes d g ∧ v = .gather g next) ∨
      ∃ r w, f.next = .finish r ∧ d = some ⟨w, w, none⟩ ∧ v = next r := by
  cases h with
  | @wakes _ _ place _ _ _ => exact .inl ⟨_, .wakes place, rfl⟩
  | @acts _ _ _ _ w _ t ht hv =>
    -- the deed has the number of the call only if the turn begins one
    rw [begins?, Fanout.begins?]
    cases turns_of_turn ht with
    | @finishes _ r _ hn =>
      rw [hn]
      exact .inr ⟨r, w, rfl, rfl, (Advance.on.inj hv).symm⟩
    | collects _ hn =>
      obtain rfl := Advance.on.inj hv
      rw [hn]
      exact .inl ⟨_, .collects hn w, rfl⟩
    | @refuses _ place c e _ hn hcheck =>
      obtain rfl := Advance.on.inj hv
      rw [hn]
      refine .inl ⟨_, .begins hn rfl fun r hr => ?_, rfl⟩
      rw [World.answer, hcheck] at hr
      exact Except.ok.inj hr
    | @begins _ place c _ hn hcheck _ =>
      obtain rfl := Advance.on.inj hv
      rw [hn]
      refine .inl ⟨_, .begins hn rfl fun r hr => ?_, rfl⟩
      rw [World.answer, hcheck] at hr
      exact hr
    | @returns _ place c result _ hn hcheck _ hresult =>
      obtain rfl := Advance.on.inj hv
      rw [hn]
      refine .inl ⟨_, .begins hn rfl fun r hr => ?_, rfl⟩
      rw [World.answer, hcheck] at hr
      exact Except.ok.inj (hresult.symm.trans hr)
    | concludes _ hn hresult =>
      obtain rfl := Advance.on.inj hv
      rw [hn]
      exact .inl ⟨_, .concludes hn hresult w, rfl⟩
    | upsets _ _ _ _ _ => cases hv
    | panics _ _ _ => cases hv

end Work

end Cases

namespace Work

variable {work v : Work (Except Error Value)} {ds : List Deed}

/-- One more turn at the end. -/
theorem Performs.tail {u : Work (Except Error Value)} {d : Option Deed} (h : work.Performs ds v)
    (hgoes : v.Goes d u) : work.Performs (ds ++ d.toList) u := by
  induction h with
  | refl _ =>
    have hone := Performs.head hgoes (.refl u)
    rwa [List.append_nil] at hone
  | head hfirst _ ih =>
    rw [List.append_assoc]
    exact .head hfirst (ih hgoes)

/-- Work that is done performs nothing more. -/
theorem Performs.of_done {r : Except Error Value} (h : Performs (.done r) ds v) :
    ds = [] ∧ v = .done r := by
  cases h with
  | refl _ => exact ⟨rfl, rfl⟩
  | head hgoes _ => exact hgoes.of_done.elim

/-! ## Performances end -/

/-- Whatever happens to the work makes it smaller. -/
theorem Goes.less {d : Option Deed} (h : Goes work d v) : Less v work := by
  cases h with
  | acts ht hv => exact turn_less ht hv
  -- to be woken is no turn, but a call that has been woken weighs less
  | @wakes f next place call outcome hplace =>
    refine .advance next ?_
    have hnumber : f.number place - f.results.length = place := Nat.add_sub_cancel_left _ _
    have hlt : Fanout.heldWeight (f.wake (f.number place)).held < Fanout.heldWeight f.held := by
      rw [Fanout.wake, hnumber]
      refine Fanout.heldWeight_modify_lt hplace ?_
      simp only [Stage.wake, Stage.weight]
      omega
    simp only [Fanout.weight, Fanout.wake] at hlt ⊢
    omega

/-- No performance goes on forever. -/
theorem acc_goes (work : Work (Except Error Value)) : Acc (fun v u => ∃ d, Goes u d v) work := by
  induction work.acc_less with
  | intro u _ ih => exact Acc.intro _ fun v ⟨_, h⟩ => ih v h.less

/-- Until the work has ended it goes on, in whatever world, if none of its calls panics there. -/
theorem exists_goes (hne : ∀ r, work ≠ .done r) {w : World}
    (hheld : ∀ f next, work = .gather f next → ∀ h ∈ f.held, ∃ r, h.Tends r)
    (hbegins : ∀ number call, work.begins? = some (number, call) → ∃ r, w.answer call = .ok r) :
    ∃ d v, work.Goes d v ∧ ∀ e ∈ d, e.found = w := by
  have hfound : ∀ (left : World) (begun : Option (Nat × Call)),
      ∀ e ∈ some (Deed.mk w left begun), e.found = w := fun _ _ e he => Option.some.inj he ▸ rfl
  -- the place of the course and the timers do not matter
  have hacts : ∀ {t : Turn Advance} {v : Work (Except Error Value)},
      work.turn 0 0 w [] = some t → t.next = .on v → ∃ d v, work.Goes d v ∧ ∀ e ∈ d, e.found = w :=
    fun ht hv => ⟨_, _, .acts ht hv, hfound _ _⟩
  cases work with
  | done r => exact absurd rfl (hne r)
  | read next => exact hacts rfl rfl
  | write path value next => exact hacts rfl rfl
  | gather f next =>
    have hmem : ∀ {place : Nat} {h : Held}, f.held[place]? = some h → ∃ r, h.Tends r :=
      fun hplace => hheld f next rfl _ (List.mem_of_getElem? hplace)
    rw [turn] at hacts
    rw [begins?, Fanout.begins?] at hbegins
    cases hn : f.next with
    | finish r =>
      rw [hn] at hacts
      exact hacts rfl rfl
    | collect value =>
      rw [hn] at hacts
      exact hacts rfl rfl
    | start place c =>
      rw [hn] at hacts hbegins
      obtain ⟨r, hr⟩ := hbegins _ _ rfl
      obtain ⟨v, hv⟩ := Fanout.exists_of_answer hr f place next
      exact hacts rfl hv
    | conclude place c outcome =>
      rw [hn] at hacts
      obtain ⟨r, hr⟩ := hmem (Fanout.held_of_conclude hn)
      have hresult : outcome.result c.tool.id = .ok r := hr
      have hconclude : f.conclude place c.tool.id outcome next
          = .on (.gather (f.setStage place (.ended r)) next) := by
        rw [Fanout.conclude, hresult]
      exact hacts rfl hconclude
    | wait =>
      obtain ⟨⟨call, stage⟩, outcome, hplace, hrunning⟩ := Fanout.exists_running_of_wait hn
      obtain rfl : stage = .running outcome := hrunning
      exact ⟨_, _, .wakes hplace, fun e he => by cases he⟩

end Work

/-! ## Alone -/

namespace Work

/-- What the work has ended with, if it has. -/
def result? {α : Type} : Work α → Option α
  | done a => some a
  | _ => none

/-- Carries work out while nobody else has turns: for each item of a schedule the work has a turn,
or the call in the place is woken. -/
def play (w : World) (work : Work (Except Error Value)) :
    List (Option Nat) → Option (List Deed × Work (Except Error Value))
  | [] => some ([], work)
  | none :: schedule =>
      match work.turn 0 0 w [] with
      | some ⟨w', _, .on v⟩ =>
          (v.play w' schedule).map fun (ds, u) => (⟨w, w', work.begins?⟩ :: ds, u)
      | _ => none
  | some place :: schedule =>
      match work with
      | gather f next =>
          match f.held[place]? with
          | some ⟨_, .running _⟩ => (gather (f.wake (f.number place)) next).play w schedule
          | _ => none
      | _ => none

/-- A performance that is played by a schedule is one. -/
theorem performs_of_play {w : World} {work v : Work (Except Error Value)} {ds : List Deed}
    {schedule : List (Option Nat)} (h : work.play w schedule = some (ds, v)) :
    work.Performs ds v := by
  induction schedule generalizing w work ds with
  | nil =>
    obtain ⟨rfl, rfl⟩ := Prod.mk.inj (Option.some.inj h)
    exact .refl _
  | cons item schedule ih =>
    -- the schedule has a turn next, or a place whose call is woken
    cases item with
    | none =>
      rw [play] at h
      split at h
      · rename_i hturn
        obtain ⟨⟨rest, u⟩, hplay, heq⟩ := Option.map_eq_some_iff.1 h
        obtain ⟨rfl, rfl⟩ := Prod.mk.inj heq
        exact .head (.acts hturn rfl) (ih hplay)
      · cases h
    | some place =>
      cases work with
      | gather f next =>
        rw [play] at h
        split at h
        · rename_i hplace
          exact .head (.wakes hplace) (ih h)
        · cases h
      | _ => cases h

end Work

/-! ## Performances in executions -/

namespace Course

/-- The course is before an attempt, or within one that has come as far as it is by a performance of
the work. -/
inductive Performing (work : Work (Except Error Value)) : Course → Prop
  | before {c : Course} (h : c.Retries work) : Performing work c
  | inside {limit : Limit} {w : Work (Except Error Value)}
      {next : Option (Except Error Value) → Course} {ds : List Deed} (hw : work.Performs ds w)
      (hnext : ∀ r, (next r).Retries work) : Performing work (.attempt limit w next)

variable {work : Work (Except Error Value)} {c : Course}

/-- An attempt that is under way performs the work from its beginning. -/
theorem Performing.exists_performs {limit : Limit} {w : Work (Except Error Value)}
    {next : Option (Except Error Value) → Course} (h : (attempt limit w next).Performing work) :
    ∃ ds, work.Performs ds w ∧ ∀ r, (next r).Retries work := by
  cases h with
  | before h => exact ⟨[], h.1 ▸ .refl w, h.2⟩
  | inside hw hnext => exact ⟨_, hw, hnext⟩

/-- A course that is between attempts has the whole work before it. -/
theorem Performing.retries (h : c.Performing work) (hc : ∀ limit w next, c ≠ .attempt limit w next) :
    c.Retries work := by
  cases h with
  | before h => exact h
  | inside _ _ => exact absurd rfl (hc _ _ _)

/-- A turn of the course is a turn of the performance, or begins or ends one. -/
theorem Performing.turn (h : c.Performing work) {observer : Observer} {course busy : Nat}
    {w : World} {timers : List Timer} {t : Turn Course}
    (ht : c.turn observer course busy w timers = some t) : t.next.Performing work := by
  cases turns_of_turn ht with
  | attempts _ =>
    obtain ⟨ds, hw, hnext⟩ := h.exists_performs
    cases Limit.does_of_turn ht with
    | ends r => exact .before (hnext (some r))
    | works hturn => exact .inside (hw.tail (.acts hturn rfl)) hnext
    | panics _ => exact .before trivial
    | limits _ _ => exact .inside hw hnext
    | stops _ => exact .before (hnext none)
  | begin entry next => exact .before (h.retries nofun _)
  | tells notice next => exact .before (h.retries nofun)
  | upsets next _ => exact .before trivial
  | asks next => exact .before (h.retries nofun _)
  | inspects next => exact .before (h.retries nofun _)
  | settles index change next => exact .before (h.retries nofun)
  | skips next => exact .before (h.retries nofun)
  | pauses ms due next => exact .before (h.retries nofun)

/-- Waking the course wakes a call of the performance, or begins or ends none. -/
theorem Performing.wake (h : c.Performing work) (purpose : Purpose) :
    (c.wake purpose).Performing work := by
  unfold Course.wake
  split
  · exact .before (h.retries nofun)
  · obtain ⟨ds, hw, hnext⟩ := h.exists_performs
    exact .inside hw hnext
  · rename_i number _ f next _
    obtain ⟨ds, hw, hnext⟩ := h.exists_performs
    rcases f.wake_eq_or_running number with heq | ⟨place, call, outcome, hplace, heq⟩
    · -- a timer for a call that no tool is at work for is no event of the performance
      rw [heq]
      exact .inside hw hnext
    · rw [heq]
      exact .inside (hw.tail (.wakes hplace)) hnext
  · exact h

/-- Whatever a node goes through, the attempt that is under way performs its task. -/
theorem Undergoes.performing {s : Settings} {n : Node} {observer : Observer}
    {history : List Attempt} (h : (ofNode s n).Undergoes observer history c) :
    c.Performing (n.task.work s n.id).run := by
  induction h with
  | begins => exact .before (retries_ofNode s n)
  | enters _ ih => exact .before (ih.retries nofun)
  | wakes _ purpose ih => exact ih.wake purpose
  | acts _ ht ih => exact ih.turn ht

end Course

/-- Every attempt that is under way in an execution is a performance of the work of its node. -/
theorem Graph.Reaches.exists_performs {g : Graph} {context : Value} {mode : Mode} {o : Options}
    {e : Execution} (h : g.Reaches context mode o e) {i : Nat} {limit : Limit}
    {work : Work (Except Error Value)} {next : Option (Except Error Value) → Course}
    (hc : e.wave.courses[i]? = some (.attempt limit work next)) :
    ∃ n ds, (g.wave e.past.length)[i]? = some n ∧
      (n.task.work o.settings n.id).run.Performs ds work := by
  obtain ⟨n, history, hn, hhistory⟩ := h.exists_undergoes hc
  obtain ⟨ds, hds, -⟩ := hhistory.performing.exists_performs
  exact ⟨n, ds, hn, hds⟩

end Wavefront
