/-
What becomes of nodes once a run is cancelled.

The signal is never taken back. An attempt begins right behind a check, so whoever begins an attempt
later made his check before. A check that finds the run cancelled gives the node up: all that it
still does is to settle its entry, with the number of attempts it has made, and that is no failure.
-/
import Mathlib
import Wavefront.Proofs.Run.Progress
import Wavefront.Proofs.Run.Told
import Wavefront.Schema.Reader

set_option autoImplicit false

namespace Wavefront

/-! ## The signal -/

/-- No work takes the signal back. -/
theorem World.Worked.cancelled {w w' : World} (h : w.Worked w') (hcancelled : w.cancelled = true) :
    w'.cancelled = true := by
  cases h with
  | rests => exact hcancelled
  | writes _ => exact hcancelled
  | calls _ _ r => exact Bool.or_eq_true_iff.2 (.inl hcancelled)

/-- No turn of a course takes the signal back. -/
theorem Course.cancelled_turn [Schema.Validator] {c : Course} {observer : Observer}
    {course busy : Nat} {w : World}
    {timers : List Timer} {t : Turn Course} (ht : c.turn observer course busy w timers = some t)
    (hcancelled : w.cancelled = true) : t.world.cancelled = true := by
  cases turns_of_turn ht with
  | attempts _ => exact (Limit.worked_turn ht).cancelled hcancelled
  | _ => exact hcancelled

/-- No move takes the signal back: of all that can happen, only the outside touches it, and only to
give it. -/
theorem Wave.Move.cancelled [Schema.Validator] {observer : Observer} {v w : Wave}
    (h : Move observer w v)
    (hcancelled : w.world.cancelled = true) : v.world.cancelled = true := by
  cases h.change with
  | acts _ _ hturn => exact Course.cancelled_turn hturn hcancelled
  | @ends i before after ending _ _ =>
    rw [world_release]
    cases ending <;> exact hcancelled
  | outside _ _ hkept => exact hkept hcancelled
  | rests _ _ _ _ _ => exact hcancelled
  | enters _ _ _ => exact hcancelled
  | queues _ _ _ => exact hcancelled
  | misses _ _ => exact hcancelled
  | wakes _ _ => exact hcancelled
  | lapses _ _ => exact hcancelled

namespace Execution

variable {o : Options} {e e' : Execution}

variable [Schema.Validator]

/-- No step of an execution takes the signal back. -/
theorem Step.cancelled (h : Step o e e') (hcancelled : e.wave.world.cancelled = true) :
    e'.wave.world.cancelled = true := by
  cases h with
  | move hmove => exact hmove.cancelled hcancelled
  | next _ _ => exact hcancelled

/-- A run that is cancelled stays cancelled. -/
theorem cancelled_of_steps (h : Relation.ReflTransGen (Step o) e e')
    (hcancelled : e.wave.world.cancelled = true) : e'.wave.world.cancelled = true := by
  induction h with
  | refl => exact hcancelled
  | tail _ hstep ih => exact hstep.cancelled ih

end Execution

/-! ## Nodes that are given up -/

namespace Course

/-- If the next thing is a check, the number of attempts that it would settle the node with if it
found the run cancelled. -/
def countAtCheck? : Course → Option Nat
  | ask next =>
    match next true with
    | settle _ change _ => some (change .epoch { nodeId := "", startTime := .epoch }).retryCount
    | _ => none
  | _ => none

/-- That is the number of attempts that have been made. -/
theorem Orderly.of_countAtCheck? {c : Course} {made count : Nat} {checked : Bool}
    (h : c.Orderly made checked) (hcount : c.countAtCheck? = some count) : made = count := by
  cases c with
  | ask next =>
    obtain ⟨⟨index, hnext⟩, -⟩ := h
    rw [countAtCheck?, hnext] at hcount
    exact Option.some.inj hcount
  | _ => cases hcount

/-- A count at a check is read off a course that is about to check. -/
theorem exists_of_countAtCheck? {c : Course} {count : Nat} (h : c.countAtCheck? = some count) :
    ∃ next, c = .ask next := by
  cases c with
  | ask next => exact ⟨next, rfl⟩
  | _ => cases h

theorem wake_cancel (index retry : Nat) (purpose : Purpose) :
    (cancel index retry).wake purpose = cancel index retry := by
  cases purpose <;> rfl

theorem wake_ended (ending : Ending) (purpose : Purpose) :
    (ended ending).wake purpose = ended ending := by
  cases purpose <;> rfl

end Course

namespace Execution

/-- The entry of the node is cancelled, after so many attempts. -/
def CancelledAfter (e : Execution) (node : String) (made : Nat) : Prop :=
  ∃ entry ∈ e.wave.entries,
    entry.nodeId = node ∧ entry.status = .cancelled ∧ entry.retryCount = made

/-- How far the node in some place of the wave of some number has come since its check has found the
run cancelled. -/
inductive Ceases (k i : Nat) (node : String) (made : Nat) (e : Execution) : Prop
  | settling {index : Nat} (hk : e.past.length = k)
      (hc : e.wave.courses[i]? = some (Course.cancel index made))
  | settled (hk : e.past.length = k) (hc : e.wave.courses[i]? = some (.ended .passed))
      (hentry : e.CancelledAfter node made)
  | past {w : Wave} (hw : e.past[k]? = some w) (hending : (i, .passed) ∈ w.endings)
      (hentry : e.CancelledAfter node made)

variable [Schema.Validator]

/-- From here on the node in some place of the wave that is under way does nothing any more but
settle its entry: it makes no call and writes nothing, and the host is not told of any end of it.
When the execution is over it has been executed, and its entry is cancelled, after so many
attempts. -/
structure GivesUp (o : Options) (e : Execution) (i : Nat) (node : String) (made : Nat) : Prop where
  quiet : ∀ e', Relation.ReflTransGen (Step o) e e' → e'.past.length = e.past.length →
    ∀ c e'', e'.Acts o i c e'' → (∃ index, c = Course.cancel index made) ∧
      e''.wave.world.context = e'.wave.world.context ∧ e''.wave.world.events = e'.wave.world.events
  untold : ∀ e', Relation.ReflTransGen (Step o) e e' → ∀ notice ∈ e'.wave.world.notices,
    (∀ result, notice ≠ .completed node result) ∧ ∀ message, notice ≠ .failed node message
  executed : ∀ e', Relation.ReflTransGen (Step o) e e' → e'.IsOver →
    (node, .passed) ∈ e'.outcomes ∧ e'.CancelledAfter node made

/-- A check that finds the run cancelled leaves only the entry to settle. -/
theorem Acts.ceases {o : Options} {e e' : Execution} {i : Nat} {n : Node} {next : Bool → Course}
    (hacts : e.Acts o i (.ask next) e') (hcancelled : e.wave.world.cancelled = true)
    {history : List Attempt}
    (hhistory : (Course.ofNode o.settings n).Undergoes o.observer history (.ask next)) :
    e'.Ceases e.past.length i n.id history.length := by
  obtain ⟨v, ⟨_, hc, hturn⟩, rfl⟩ := hacts
  obtain rfl := Option.some.inj hturn
  obtain ⟨_, ⟨index, hnext⟩, -⟩ := hhistory.exists_orderly
  have hset : (e.wave.courses.set i (next e.wave.world.cancelled))[i]?
      = some (Course.cancel index history.length) := by
    rw [hcancelled, hnext]
    exact List.getElem?_set_self (List.getElem?_eq_some_iff.1 hc).1
  exact .settling rfl hset

/-- A node that has been given up has at most its entry to settle. -/
theorem Ceases.quiet {o : Options} {e e' : Execution} {i made : Nat} {node : String}
    (h : e.Ceases e.past.length i node made) {c : Course} (hacts : e.Acts o i c e') :
    (∃ index, c = Course.cancel index made) ∧
      e'.wave.world.context = e.wave.world.context ∧ e'.wave.world.events = e.wave.world.events := by
  obtain ⟨v, ⟨_, hc, hturn⟩, rfl⟩ := hacts
  cases h with
  | @settling index _ hcancel =>
    obtain rfl := Option.some.inj (hc.symm.trans hcancel)
    obtain rfl := Option.some.inj hturn
    exact ⟨⟨index, rfl⟩, rfl, rfl⟩
  -- a course that has ended has no turn
  | settled _ hended _ =>
    obtain rfl := Option.some.inj (hc.symm.trans hended)
    cases hturn
  -- a wave of the past is not the one that acts
  | past hw _ _ => exact absurd (List.getElem?_eq_some_iff.1 hw).1 (Nat.lt_irrefl _)

end Execution

namespace Graph

variable {g : Graph} {o : Options} {e e' : Execution} {context : Value} {mode : Mode} {i k made : Nat}
  {n : Node}

/-- An entry that a cancelled node has settled stays as it is. -/
theorem Traced.cancelledAfter_step [Schema.Validator] (h : g.Traced o e)
    (hstep : Execution.Step o e e') {node : String}
    (hentry : e.CancelledAfter node made) : e'.CancelledAfter node made := by
  obtain ⟨entry, hmem, hid, hstatus, hretry⟩ := hentry
  exact ⟨entry, h.mem_of_isSettled hstep hmem (.inr (.inr hstatus)), hid, hstatus, hretry⟩

/-- The turn that settles the entry. -/
theorem Traced.cancelledAfter_acts [Schema.Validator] (h : g.Traced o e)
    (hn : (g.wave e.past.length)[i]? = some n)
    {index : Nat} {v : Wave} (hacts : e.wave.Acts o.observer i (Course.cancel index made) v) :
    v.courses[i]? = some (.ended .passed) ∧
      ({ e with wave := v } : Execution).CancelledAfter n.id made := by
  have hid : e.wave.idAt i = n.id := Wave.idAt_eq h.wave_ids hn
  obtain ⟨-, hc, hturn⟩ := hacts
  obtain rfl := Option.some.inj hturn
  refine ⟨List.getElem?_set_self (List.getElem?_eq_some_iff.1 hc).1, ?_⟩
  -- the entry of a node whose course still runs is open, hence the one that the turn finishes
  cases h.logged.logs i _ hc with
  | unbegun hunbegun _ => exact hunbegun.elim
  | @running _ entry hopen hentry hnode _ =>
    obtain ⟨rfl, -⟩ := hopen
    refine ⟨{ entry with retryCount := made }.finish e.wave.world.moment .cancelled,
      List.mem_of_getElem? (i := index) ?_, hnode.trans hid, rfl, rfl⟩
    change (e.wave.entries.modify index _)[index]? = _
    rw [List.getElem?_modify_eq, hentry]
    rfl
  | settled hclosed _ _ => exact hclosed.elim

/-- What a step makes of a node that has been given up. -/
theorem Traced.ceases_step [Schema.Validator] (h : g.Traced o e) (hn : (g.wave k)[i]? = some n)
    (hstep : Execution.Step o e e') (hceases : e.Ceases k i n.id made) : e'.Ceases k i n.id made := by
  cases hceases with
  | @settling index hk hc =>
    subst hk
    cases hstep with
    | move hmove =>
      -- the only turn that is left to the node is the one that settles its entry
      rcases hmove.course_or hc with hacts | ⟨d, hd, rfl | hpermit | ⟨purpose, rfl⟩⟩
      · obtain ⟨hended, hentry⟩ := h.cancelledAfter_acts hn hacts
        exact .settled rfl hended hentry
      · exact .settling rfl hd
      · cases hpermit
      · exact .settling rfl (hd.trans (congrArg some (Course.wake_cancel ..)))
    | next hover _ =>
      -- the wave is not over before that
      obtain ⟨_, hended, -⟩ := h.inLine.exists_ending hover hc
      cases hended
  | settled hk hc hentry =>
    have hentry' := h.cancelledAfter_step hstep hentry
    cases hstep with
    | move hmove =>
      rcases hmove.course_or hc with ⟨_, _, hturn⟩ | ⟨d, hd, rfl | hpermit | ⟨purpose, rfl⟩⟩
      · cases hturn
      · exact .settled hk hd hentry'
      · cases hpermit
      · exact .settled hk (hd.trans (congrArg some (Course.wake_ended ..))) hentry'
    | next hover _ =>
      obtain ⟨_, hended, hending⟩ := h.inLine.exists_ending hover hc
      obtain rfl := Course.ended.inj hended
      refine .past (w := e.wave) ?_ hending hentry'
      rw [← hk]
      exact List.getElem?_concat_length
  | @past w hw hending hentry =>
    have hentry' := h.cancelledAfter_step hstep hentry
    cases hstep with
    | move _ => exact .past hw hending hentry'
    | next _ _ =>
      refine .past (w := w) ?_ hending hentry'
      exact (List.getElem?_append_left (List.getElem?_eq_some_iff.1 hw).1).trans hw

/-- Whoever ceases goes on ceasing, however many steps are taken. -/
theorem Reaches.ceases_steps [Schema.Validator] (h : g.Reaches context mode o e)
    (hn : (g.wave k)[i]? = some n)
    (hsteps : Relation.ReflTransGen (Execution.Step o) e e') (hceases : e.Ceases k i n.id made) :
    e'.Ceases k i n.id made := by
  induction hsteps with
  | refl => exact hceases
  | tail hsteps hstep ih => exact (Reaches.traced (h.trans hsteps)).ceases_step hn hstep ih

/-- The entry of a node that has been given up is running or cancelled. -/
theorem Traced.status_of_ceases (h : g.Traced o e) (hn : (g.wave k)[i]? = some n)
    (hceases : e.Ceases k i n.id made) {entry : Entry} (hentry : entry ∈ e.wave.entries)
    (hid : entry.nodeId = n.id) : entry.status = .running ∨ entry.status = .cancelled := by
  -- a node has one entry at most
  have hsame : ∀ entry' ∈ e.wave.entries, entry'.nodeId = n.id → entry = entry' :=
    fun _ hentry' hid' =>
      List.inj_on_of_nodup_map h.logged.nodup hentry hentry' (hid.trans hid'.symm)
  have hcancelled : e.CancelledAfter n.id made → entry.status = .cancelled := by
    rintro ⟨entry', hentry', hid', hstatus, -⟩
    exact hsame entry' hentry' hid' ▸ hstatus
  cases hceases with
  | settling hk hc =>
    subst hk
    have hnode : e.wave.idAt i = n.id := Wave.idAt_eq h.wave_ids hn
    cases h.logged.logs i _ hc with
    | unbegun hunbegun _ => exact hunbegun.elim
    | running _ hentry' hid' hrunning =>
      exact .inl (hsame _ (List.mem_of_getElem? hentry') (hid'.trans hnode) ▸ hrunning)
    | settled hclosed _ _ => exact hclosed.elim
  | settled _ _ hentry' => exact .inr (hcancelled hentry')
  | past _ _ hentry' => exact .inr (hcancelled hentry')

/-- The host is told of no end of a node that has been given up. -/
theorem Reaches.untold_of_ceases [Schema.Validator] (h : g.Reaches context mode o e)
    (hn : (g.wave k)[i]? = some n)
    (hceases : e.Ceases k i n.id made) {notice : Notice} (hnotice : notice ∈ e.wave.world.notices) :
    (∀ result, notice ≠ .completed n.id result) ∧ ∀ message, notice ≠ .failed n.id message := by
  constructor
  · rintro result rfl
    obtain ⟨_, hstarted⟩ | ⟨entry, hentry, hid, hstatus, -⟩ := h.isAsTold _ hnotice
    · cases hstarted
    · rcases h.traced.status_of_ceases hn hceases hentry hid with hother | hother <;>
        cases hstatus.symm.trans hother
  · rintro message rfl
    obtain ⟨_, hstarted⟩ | ⟨entry, hentry, hid, hstatus, -⟩ := h.isAsTold _ hnotice
    · cases hstarted
    · rcases h.traced.status_of_ceases hn hceases hentry hid with hother | hother <;>
        cases hstatus.symm.trans hother

/-- When the execution is over, a node that has been given up has been executed. -/
theorem Traced.executed_of_ceases (h : g.Traced o e) (hn : (g.wave k)[i]? = some n)
    (hceases : e.Ceases k i n.id made) (hover : e.IsOver) :
    (n.id, .passed) ∈ e.outcomes ∧ e.CancelledAfter n.id made := by
  have houtcome : ∀ w, e.allWaves[k]? = some w → (i, .passed) ∈ w.endings →
      (n.id, .passed) ∈ e.outcomes := by
    intro w hw hending
    rw [← h.idAt_eq hw hn]
    refine Execution.mem_outcomes.2 ⟨k, ?_⟩
    rw [Execution.outcomesAt_of_getElem? hw]
    exact List.mem_map_of_mem hending
  cases hceases with
  -- the course has yet to settle the entry, so nothing is over
  | settling _ hc =>
    obtain ⟨_, hended, -⟩ := h.inLine.exists_ending hover.1 hc
    cases hended
  | settled hk hc hentry =>
    obtain ⟨_, hended, hending⟩ := h.inLine.exists_ending hover.1 hc
    obtain rfl := Course.ended.inj hended
    exact ⟨houtcome e.wave (allWaves_getElem?.2 (.inr ⟨hk.symm, rfl⟩)) hending, hentry⟩
  | past hw hending hentry =>
    exact ⟨houtcome _ (allWaves_getElem?.2 (.inl hw)) hending, hentry⟩

/-- A check that finds the run cancelled gives the node up. -/
theorem Reaches.givesUp [Schema.Validator] (h : g.Reaches context mode o e)
    (hcancelled : e.wave.world.cancelled = true)
    (hn : (g.wave e.past.length)[i]? = some n) {next : Bool → Course} (hacts : e.Acts o i (.ask next) e')
    {history : List Attempt}
    (hhistory : (Course.ofNode o.settings n).Undergoes o.observer history (.ask next)) :
    e'.GivesUp o i n.id history.length := by
  have hreaches : g.Reaches context mode o e' := h.tail hacts.step
  have hpast : e'.past.length = e.past.length := by
    obtain ⟨_, _, rfl⟩ := hacts
    rfl
  have hceases : ∀ e'', Relation.ReflTransGen (Execution.Step o) e' e'' →
      e''.Ceases e.past.length i n.id history.length :=
    fun _ hsteps => hreaches.ceases_steps hn hsteps (hacts.ceases hcancelled hhistory)
  constructor
  · intro e'' hsteps hsame c _ hacts
    exact (hsame.trans hpast ▸ hceases e'' hsteps).quiet hacts
  · exact fun e'' hsteps _ => Reaches.untold_of_ceases (hreaches.trans hsteps) hn (hceases e'' hsteps)
  · intro e'' hsteps
    exact (Reaches.traced (hreaches.trans hsteps)).executed_of_ceases hn (hceases e'' hsteps)

/-! ## Runs that are cancelled -/

/-- While the run is cancelled, whoever comes to the beginning of an attempt was there before. -/
theorem Reaches.inspect_of_steps [Schema.Validator] (h : g.Reaches context mode o e)
    (hcancelled : e.wave.world.cancelled = true)
    (hsteps : Relation.ReflTransGen (Execution.Step o) e e') {next : Value → Course}
    (hnext : e'.wave.courses[i]? = some (.inspect next)) :
    e'.past = e.past ∧ e.wave.courses[i]? = some (.inspect next) := by
  induction hsteps with
  | refl => exact ⟨rfl, hnext⟩
  | tail hsteps hstep ih =>
    have hcancelled' := Execution.cancelled_of_steps hsteps hcancelled
    obtain ⟨hpast, hbefore⟩ := Reaches.inspect_of_step (h.trans hsteps) hcancelled' hstep hnext
    obtain ⟨hpast', hfirst⟩ := ih hbefore
    exact ⟨hpast.trans hpast', hfirst⟩

/-- If no node is stuck and none has failed, the run succeeds. -/
theorem exists_success (h : ∀ n ∈ g.nodes, g.Runnable n.id) (hpassed : ∀ p ∈ e.outcomes, p.2 = .passed) :
    ∃ success, (g.reportOf o e).result = .ok success := by
  have hnone : (g.reportOf o e).error? = none := by
    rw [error?_of_runnable o e h, Execution.firstError?_eq_none_iff]
    intro p hp
    rw [hpassed p hp]
    rfl
  cases hresult : (g.reportOf o e).result with
  | ok success => exact ⟨success, rfl⟩
  | error failure =>
    rw [Report.error?, hresult] at hnone
    cases hnone

/-- Once a run is cancelled, at whatever point of whatever execution, it stays cancelled and still
comes to its end. From then on nobody begins an attempt but who has made the check for it before.
Whoever comes to a check gives up: all that is left of his course is to settle his entry, as
cancelled and with the number of attempts that have been made however he came to the check; it makes
no call and writes nothing, and the host is told of no end. He has been executed with success, so if
nobody fails and nobody is stuck, the run succeeds. -/
theorem cancellation_final [Schema.Validator] (g : Graph) (context : Value) (mode : Mode)
    (o : Options) :
    (∃ e, g.Reaches context mode o e ∧ e.IsOver ∧ g.execute context mode o = g.reportOf o e) ∧
    ∀ e, g.Reaches context mode o e → e.wave.world.cancelled = true →
      e.Finishes o ∧
      ∀ e', Relation.ReflTransGen (Execution.Step o) e e' →
        e'.wave.world.cancelled = true ∧
        (∀ (i : Nat) (next : Value → Course), e'.wave.courses[i]? = some (.inspect next) →
          e'.past = e.past ∧ e.wave.courses[i]? = some (.inspect next)) ∧
        (∀ i next e'', e'.Acts o i (.ask next) e'' →
          ∃ n, (g.wave e'.past.length)[i]? = some n ∧
            (∃ history, (Course.ofNode o.settings n).Undergoes o.observer history (.ask next)) ∧
            ∀ history, (Course.ofNode o.settings n).Undergoes o.observer history (.ask next) →
              e''.GivesUp o i n.id history.length) ∧
        (e'.IsOver → (∀ n ∈ g.nodes, g.Runnable n.id) → (∀ p ∈ e'.outcomes, p.2 = .passed) →
          ∃ success, (g.reportOf o e').result = .ok success) := by
  refine ⟨g.exists_execute_eq context mode o, fun e hreaches hcancelled =>
    ⟨hreaches.finishes, fun e' hsteps => ?_⟩⟩
  have hreaches' : g.Reaches context mode o e' := hreaches.trans hsteps
  have hcancelled' := Execution.cancelled_of_steps hsteps hcancelled
  -- an attempt to begin was there before, since only a check brings one about
  refine ⟨hcancelled', fun i next => hreaches.inspect_of_steps hcancelled hsteps, ?_,
    fun _ => exists_success⟩
  intro i next e'' hacts
  have hc : e'.wave.courses[i]? = some (.ask next) := by
    obtain ⟨_, ⟨_, hc, _⟩, _⟩ := hacts
    exact hc
  obtain ⟨n, history, hn, hhistory⟩ := hreaches'.exists_undergoes hc
  exact ⟨n, hn, ⟨history, hhistory⟩, fun _ => hreaches'.givesUp hcancelled' hn hacts⟩

/-- A node that fails and is tried again, and one that cancels the run in between. -/
def interrupted : Graph where
  nodes :=
    [.ofTool "a" [] (Stock.tool (.fail "no") "f" none none) .null {},
     .ofTool "b" [] (Stock.tool .cancel "c" none none) .null {}]
  nodup := by decide

/-- The first node gives up at the check before its second attempt. -/
theorem cancellation_final_interrupted :
    let o : Options := { planId := "p", settings := { maxRetries := 1, retryBaseDelayMs := 1 } }
    ∃ e next e', interrupted.Reaches .null .dag o e ∧ e.wave.world.cancelled = true ∧
      e.Acts o 0 (.ask next) e' ∧ e'.GivesUp o 0 "a" 1 := by
  intro o
  have hpoint : ((interrupted.paused .null .dag o 1 26).wave.world.cancelled,
      (interrupted.paused .null .dag o 1 26).wave.ready,
      (interrupted.paused .null .dag o 1 26).wave.courses[0]?.bind Course.countAtCheck?)
      = (true, [0], some 1) := by cbv
  obtain ⟨hcancelled, hpoint⟩ := Prod.mk.inj hpoint
  obtain ⟨hready, hcount⟩ := Prod.mk.inj hpoint
  obtain ⟨c, hc, hcount⟩ := Option.bind_eq_some_iff.1 hcount
  obtain ⟨next, rfl⟩ := Course.exists_of_countAtCheck? hcount
  have hreaches := interrupted.reaches_paused .null .dag o 1 26
  have hacts : (interrupted.paused .null .dag o 1 26).Acts o 0 (.ask next) _ :=
    ⟨_, .intro (show _ = [] ++ 0 :: [] from hready) hc rfl, rfl⟩
  obtain ⟨-, hfinal⟩ := (cancellation_final interrupted .null .dag o).2 _ hreaches hcancelled
  obtain ⟨-, -, hchecks, -⟩ := hfinal _ .refl
  obtain ⟨n, hn, ⟨history, hhistory⟩, hgivesUp⟩ := hchecks 0 next _ hacts
  have hid : ((interrupted.wave (interrupted.paused .null .dag o 1 26).past.length)[0]?).map Node.id
      = some "a" := by cbv
  rw [hn] at hid
  have hid : n.id = "a" := Option.some.inj hid
  -- the count that the course carries is the length of the history behind it
  obtain ⟨_, horderly⟩ := hhistory.exists_orderly
  have hmade : history.length = 1 := horderly.of_countAtCheck? hcount
  exact ⟨_, next, _, hreaches, hcancelled, hacts, hid ▸ hmade ▸ hgivesUp history hhistory⟩

end Graph

end Wavefront
