/-
The order in which a node goes through its attempts.

Every attempt comes right behind a check that has found the run not cancelled; where it finds the
run cancelled, the node is settled with the number of attempts that have been made, and that is its
end. A host is told that a node has started, or that it has come to its end, and then nothing else
follows.
-/
import Wavefront.Proofs.Run.Attempts

set_option autoImplicit false

namespace Wavefront

variable [Schema.Validator]

namespace Course

/-- What is left of a course that has made so many attempts is in order, and if the next thing is an
attempt then the check before it has been made. -/
def Orderly : Course → (made : Nat) → (checked : Bool) → Prop
  | ended _, _, _ => True
  | permit next, made, _ => next.Orderly made false
  | begin _ next, made, _ => ∀ index, (next index).Orderly made false
  | notify notice next, made, _ =>
      ((∃ node, notice = .started node) ∨
        ∃ ending, next = .ended ending ∧ ∀ message, ending ≠ .aborted message) ∧
        next.Orderly made false
  | ask next, made, _ => (∃ index, next true = cancel index made) ∧ (next false).Orderly made true
  | inspect next, made, checked =>
      checked = true ∧ ∀ context, (next context).Orderly (made + 1) false
  | attempt _ _ next, made, _ => ∀ r, (next r).Orderly made false
  | settle _ _ next, made, _ => next.Orderly made false
  | pause _ next, made, _ => next.Orderly made false
  | paused next, made, _ => next.Orderly made false

omit [Schema.Validator] in
theorem orderly_succeed (n : Node) (index retry : Nat) (output : Value) (made : Nat) :
    (succeed n index retry output).Orderly made false :=
  ⟨.inr ⟨.passed, rfl, fun _ => Ending.noConfusion⟩, trivial⟩

omit [Schema.Validator] in
theorem orderly_fail (n : Node) (index retry : Nat) (message : String) (made : Nat) :
    (fail n index retry message).Orderly made false :=
  ⟨.inr ⟨.failed (.nodeFailed n.id message), rfl, fun _ => Ending.noConfusion⟩, trivial⟩

/-- The retries are counted as they are made. -/
theorem orderly_attempts (s : Settings) (n : Node) (index left retry : Nat) :
    (attempts s n index left retry).Orderly retry false := by
  induction left using Nat.strongRecOn generalizing retry with
  | ind left ih =>
    -- after a failed attempt the node gives up or has one attempt less left
    have hafter : ∀ e, (afterFailure s n index left retry e).Orderly (retry + 1) false := by
      intro e
      cases left with
      | zero => exact orderly_fail n index retry _ _
      | succ left => exact ih left (Nat.lt_succ_self left) (retry + 1)
    rw [attempts_eq]
    refine ⟨⟨index, rfl⟩, rfl, fun context => ?_⟩
    beta_reduce
    cases requireContext n.id n.policy.inputSchema context with
    | error e => exact hafter e
    | ok _ =>
      -- no result in time, an error, or an output
      rintro (_ | (e | output))
      · exact hafter _
      · exact hafter e
      · exact orderly_succeed n index retry output _

theorem orderly_ofNode (s : Settings) (n : Node) : (ofNode s n).Orderly 0 false :=
  fun index => ⟨.inl ⟨n.id, rfl⟩, orderly_attempts s n index (retriesOf s n) 0⟩

section Orderly

variable {c : Course} {made : Nat} {checked : Bool} {observer : Observer} {history : List Attempt}

/-- A turn within a time limit goes on with the attempt or leaves it behind, in order. -/
theorem Orderly.limit_turn {limit : Limit} {work : Work (Except Error Value)}
    {next : Option (Except Error Value) → Course} (h : (attempt limit work next).Orderly made checked)
    {course busy : Nat} {w : World} {timers : List Timer} {t : Turn Course}
    (ht : limit.turn work next course busy w timers = some t) : t.next.Orderly made false := by
  cases Limit.does_of_turn ht with
  | ends r => exact h (some r)
  | works _ => exact h
  | panics _ => exact trivial
  | limits _ _ => exact h
  | stops _ => exact h none

/-- A turn of an attempt adds nothing to the history: it is the latest attempt that grows. -/
theorem length_record_attempt (limit : Limit) (work : Work (Except Error Value))
    (next : Option (Except Error Value) → Course) (context : Value) (history : List Attempt) :
    ((attempt limit work next).record context history).length = history.length :=
  List.length_modifyHead

/-- A turn keeps the order. In a run that is cancelled, no attempt comes next. -/
theorem Orderly.turn (h : c.Orderly history.length checked) {course busy : Nat} {w : World}
    {timers : List Timer} {t : Turn Course} (ht : c.turn observer course busy w timers = some t) :
    ∃ checked', t.next.Orderly (c.record w.context history).length checked' ∧
      (w.cancelled = true → checked' = false) := by
  cases turns_of_turn ht with
  | attempts _ =>
    refine ⟨false, ?_, fun _ => rfl⟩
    rw [length_record_attempt]
    exact h.limit_turn ht
  | asks next =>
    obtain ⟨⟨index, hcancel⟩, hgo⟩ := h
    cases hcancelled : w.cancelled with
    | false => exact ⟨true, hgo, Bool.noConfusion⟩
    | true => exact ⟨false, hcancel ▸ trivial, fun _ => rfl⟩
  | begin entry next => exact ⟨false, h _, fun _ => rfl⟩
  | tells notice next => exact ⟨false, h.2, fun _ => rfl⟩
  | upsets next _ => exact ⟨false, trivial, fun _ => rfl⟩
  | inspects next => exact ⟨false, h.2 _, fun _ => rfl⟩
  | settles index change next => exact ⟨false, h, fun _ => rfl⟩
  | skips next => exact ⟨false, h, fun _ => rfl⟩
  | pauses ms due next => exact ⟨false, h, fun _ => rfl⟩

omit [Schema.Validator] in
/-- Whoever is woken goes on as he was, or no attempt comes next. -/
theorem Orderly.wake (h : c.Orderly made checked) (purpose : Purpose) :
    c.wake purpose = c ∨ (c.wake purpose).Orderly made false := by
  unfold Course.wake
  split
  · exact .inr h
  · exact .inr h
  · exact .inr h
  · exact .inl rfl

/-- Whatever a node goes through, it is in order. -/
theorem Undergoes.exists_orderly {s : Settings} {n : Node}
    (h : (ofNode s n).Undergoes observer history c) : ∃ checked, c.Orderly history.length checked := by
  -- the history grows by the turns, and each of them keeps the order
  induction h with
  | begins => exact ⟨false, orderly_ofNode s n⟩
  | enters _ ih =>
    obtain ⟨_, h⟩ := ih
    exact ⟨false, h⟩
  | wakes _ purpose ih =>
    obtain ⟨checked, h⟩ := ih
    rcases h.wake purpose with heq | h
    · exact ⟨checked, heq.symm ▸ h⟩
    · exact ⟨false, h⟩
  | acts _ ht ih =>
    obtain ⟨_, h⟩ := ih
    obtain ⟨checked, h, -⟩ := h.turn ht
    exact ⟨checked, h⟩

end Orderly

end Course

namespace Graph

variable {g : Graph} {o : Options} {e e' : Execution} {context : Value} {mode : Mode} {i : Nat}

/-- At every point of an execution what is left of a course is in order. -/
theorem Reaches.exists_orderly (h : g.Reaches context mode o e) {c : Course}
    (hc : e.wave.courses[i]? = some c) :
    ∃ (history : List Attempt) (checked : Bool), c.Orderly history.length checked := by
  obtain ⟨n, history, -, hundergoes⟩ := h.exists_undergoes hc
  exact ⟨history, hundergoes.exists_orderly⟩

/-- While the run is cancelled, nobody comes to the beginning of an attempt who was not there. -/
theorem Reaches.inspect_of_step (h : g.Reaches context mode o e)
    (hcancelled : e.wave.world.cancelled = true) (hstep : Execution.Step o e e')
    {next : Value → Course} (hnext : e'.wave.courses[i]? = some (.inspect next)) :
    e'.past = e.past ∧ e.wave.courses[i]? = some (.inspect next) := by
  cases hstep with
  | move hmove =>
    obtain ⟨c, hc, hcourse⟩ := Wave.exists_courseMove hmove hnext
    obtain ⟨history, checked, horderly⟩ := h.exists_orderly hc
    -- whatever else led there would have skipped the check
    have hunchecked : ∀ made, ¬ (Course.inspect next).Orderly made false := fun _ h => by cases h.1
    generalize hd : Course.inspect next = d at hcourse
    cases hcourse with
    | same => exact ⟨rfl, hd ▸ hc⟩
    | enters heq =>
      subst heq hd
      exact absurd horderly (hunchecked _)
    | wakes purpose =>
      rcases horderly.wake purpose with heq | horderly
      · exact ⟨rfl, hc.trans (congrArg some heq.symm)⟩
      · exact absurd (hd.symm ▸ horderly) (hunchecked _)
    | acts hturn =>
      obtain ⟨checked', horderly, hfalse⟩ := horderly.turn hturn
      rw [hfalse hcancelled, ← hd] at horderly
      exact absurd horderly (hunchecked _)
  | next _ _ =>
    rw [Wave.ofNodes, List.getElem?_map] at hnext
    obtain ⟨n, -, hn⟩ := Option.map_eq_some_iff.1 hnext
    cases hn

end Graph

end Wavefront
