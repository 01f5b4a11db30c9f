/-
Retries: what a node makes of the attempts that it has.

A node begins its entry, tells the host that it has started, and goes from attempt to attempt.
Before each of them it checks whether the run was cancelled, and behind each that fails it pauses,
as long as another one is left. There are three ways out of that: a check that finds the run
cancelled, an attempt that succeeds, and the last attempt when it fails. On each of them the entry
is settled with the number of attempts that have failed before, and the host is told only then.

The marks of a node are written down here as a grammar, and the marks of every node in every
chronicle are found to be of it. What is left of a course is known from the attempts that are left,
so the induction is on these, with the marks of those that have failed so far in front.
-/
import Wavefront.Proofs.Run.Chronicle
import Wavefront.Proofs.Run.Progress
import Wavefront.Schema.Reader

set_option autoImplicit false

namespace Wavefront

open Course

/-! ## The grammar of marks -/

namespace Node

variable [Schema.Validator]

/-- An attempt of the node leaves these marks and comes to this result. -/
inductive ComesTo (s : Settings) (n : Node) : List Mark → Except Error Value → Prop
  /-- The context is none that the node takes, and its task does not begin. -/
  | refuses {context : Value} {e : Error}
      (h : requireContext n.id n.policy.inputSchema context = .error e) :
      ComesTo s n [.inspects context] (.error e)
  | returns {context : Value} (h : requireContext n.id n.policy.inputSchema context = .ok ())
      (r : Except Error Value) : ComesTo s n [.inspects context, .answers (some r)] r
  | overruns {context : Value} (h : requireContext n.id n.policy.inputSchema context = .ok ()) :
      ComesTo s n [.inspects context, .answers none] (.error (.timeout n.id (limitOf s n)))

/-- The first attempts of the node have failed with these errors, none of them was the last one, and
they have left these marks. -/
inductive Retried (s : Settings) (n : Node) : List Error → List Mark → Prop
  | none : Retried s n [] []
  | more {errors : List Error} {ms attempt : List Mark} {e : Error} {retry : UInt32}
      (h : Retried s n errors ms) (hattempt : n.ComesTo s attempt (.error e))
      (hleft : errors.length < retriesOf s n) (hretry : retry.toNat = errors.length + 1) :
      Retried s n (errors ++ [e])
        (ms ++ .checks false :: attempt ++ [.pauses (s.backoffMs retry).toNat])

/-- From its first check on the node leaves these marks; it settles its entry, which has this index,
in this way, and comes to this end. -/
inductive Concludes (s : Settings) (n : Node) (index : Nat) : List Mark → Entry → Ending → Prop
  /-- The run was cancelled. -/
  | cancelled {errors : List Error} {ms : List Mark} {entry : Entry} (h : n.Retried s errors ms)
      (hstatus : entry.status = .cancelled) (hretry : entry.retryCount = errors.length) :
      Concludes s n index (ms ++ [.checks true, .settles index entry]) entry .passed
  | succeeded {errors : List Error} {ms attempt : List Mark} {entry : Entry} {output : Value}
      (h : n.Retried s errors ms) (hattempt : n.ComesTo s attempt (.ok output))
      (hstatus : entry.status = .success) (hretry : entry.retryCount = errors.length)
      (houtput : entry.output = some output) :
      Concludes s n index
        (ms ++ .checks false :: attempt ++ [.settles index entry, .tells (.completed n.id output)])
        entry .passed
  /-- No attempt is left. -/
  | failed {errors : List Error} {ms attempt : List Mark} {entry : Entry} {e : Error}
      (h : n.Retried s errors ms) (hlast : errors.length = retriesOf s n)
      (hattempt : n.ComesTo s attempt (.error e)) (hstatus : entry.status = .failed)
      (hretry : entry.retryCount = retriesOf s n) (herror : entry.error = some e.message) :
      Concludes s n index
        (ms ++ .checks false :: attempt ++ [.settles index entry, .tells (.failed n.id e.message)])
        entry (.failed (.nodeFailed n.id e.message))

variable {s : Settings} {n : Node} {errors : List Error} {ms : List Mark} {index : Nat} {entry : Entry}
  {ending : Ending}

/-- No more attempts fail than there are retries, as long as another one follows. -/
theorem Retried.length_le (h : n.Retried s errors ms) : errors.length ≤ retriesOf s n := by
  cases h with
  | none => exact Nat.zero_le _
  | more _ _ hleft _ =>
    rw [List.length_append]
    exact hleft

/-- No entry has more retries on record than there are. -/
theorem Concludes.retryCount_le (h : n.Concludes s index ms entry ending) :
    entry.retryCount ≤ retriesOf s n := by
  cases h with
  | cancelled h _ hretry => exact hretry ▸ h.length_le
  | succeeded h _ _ hretry _ => exact hretry ▸ h.length_le
  | failed _ _ _ _ hretry _ => exact Nat.le_of_eq hretry

/-- The entry that a node concludes with is the one that it settles. -/
theorem Concludes.settles_mem (h : n.Concludes s index ms entry ending) :
    .settles index entry ∈ ms := by
  cases h <;> simp only [List.mem_append, List.mem_cons, true_or, or_true]

end Node

/-! ## What the attempts of a course play -/

namespace Course

variable {observer : Observer} {s : Settings} {n : Node} {index left retry : Nat} {node : String}
  {ms : List Mark} {ending : Ending}

variable [Schema.Validator]

namespace Plays

/-- A node that gives up settles its entry as cancelled and tells nobody. -/
theorem of_cancel (h : (cancel index retry).Plays observer node ms (.ended ending)) :
    ∃ entry, ms = [.settles index entry] ∧ ending = .passed ∧ entry.status = .cancelled ∧
      entry.retryCount = retry := by
  obtain ⟨now, old, rest, rfl, hrest⟩ := h.of_settle
  obtain ⟨rfl, hended⟩ := hrest.of_ended
  exact ⟨_, rfl, Course.ended.inj hended, rfl, rfl⟩

/-- A node that succeeds settles its entry with the output and tells the host of it. -/
theorem of_succeed {output : Value}
    (h : (succeed n index retry output).Plays observer node ms (.ended ending))
    (hordinary : ∀ message, ending ≠ .aborted message) :
    ∃ entry, ms = [.settles index entry, .tells (.completed n.id output)] ∧ ending = .passed ∧
      entry.status = .success ∧ entry.retryCount = retry ∧ entry.output = some output := by
  obtain ⟨now, old, rest, rfl, htell⟩ := h.of_settle
  obtain ⟨rest, rfl, hrest⟩ := htell.of_notify hordinary
  obtain ⟨rfl, hended⟩ := hrest.of_ended
  exact ⟨_, rfl, Course.ended.inj hended, rfl, rfl, rfl⟩

/-- A node that fails settles its entry with the message and tells the host of it. -/
theorem of_fail {message : String}
    (h : (fail n index retry message).Plays observer node ms (.ended ending))
    (hordinary : ∀ message, ending ≠ .aborted message) :
    ∃ entry, ms = [.settles index entry, .tells (.failed n.id message)] ∧
      ending = .failed (.nodeFailed n.id message) ∧
      entry.status = .failed ∧ entry.retryCount = retry ∧ entry.error = some message := by
  obtain ⟨now, old, rest, rfl, htell⟩ := h.of_settle
  obtain ⟨rest, rfl, hrest⟩ := htell.of_notify hordinary
  obtain ⟨rfl, hended⟩ := hrest.of_ended
  exact ⟨_, rfl, Course.ended.inj hended, rfl, rfl, rfl⟩

/-- A check finds the run cancelled, or an attempt follows, which succeeds or fails. -/
theorem of_attempts (h : (attempts s n index left retry).Plays observer node ms (.ended ending))
    (hordinary : ∀ message, ending ≠ .aborted message) :
    (∃ rest, ms = .checks true :: rest ∧
        (cancel index retry).Plays observer node rest (.ended ending)) ∨
      ∃ attempt rest, ms = .checks false :: attempt ++ rest ∧
        ((∃ output, n.ComesTo s attempt (.ok output) ∧
            (succeed n index retry output).Plays observer node rest (.ended ending)) ∨
          ∃ e, n.ComesTo s attempt (.error e) ∧
            (afterFailure s n index left retry e).Plays observer node rest (.ended ending)) := by
  rw [attempts_eq] at h
  obtain ⟨cancelled, rest, rfl, hchecked⟩ := h.of_ask
  cases cancelled with
  | true => exact .inl ⟨rest, rfl, hchecked⟩
  | false =>
    obtain ⟨context, rest, rfl, hlooked⟩ := of_inspect hchecked
    cases hcontext : requireContext n.id n.policy.inputSchema context with
    | error e =>
      rw [hcontext] at hlooked
      exact .inr ⟨[_], rest, rfl, .inr ⟨e, .refuses hcontext, hlooked⟩⟩
    | ok _ =>
      rw [hcontext] at hlooked
      obtain ⟨r, rest, rfl, hrest⟩ := of_attempt hlooked hordinary
      -- no result in time, an error, or an output
      rcases r with _ | (e | output)
      · exact .inr ⟨[_, _], rest, rfl, .inr ⟨_, .overruns hcontext, hrest⟩⟩
      · exact .inr ⟨[_, _], rest, rfl, .inr ⟨e, .returns hcontext _, hrest⟩⟩
      · exact .inr ⟨[_, _], rest, rfl, .inl ⟨output, .returns hcontext _, hrest⟩⟩

end Plays

/-- Behind the attempts that have failed so far, the next one concludes the node, or fails as
well. -/
theorem concludes_or_fails {errors : List Error} {before : List Mark}
    (hbefore : n.Retried s errors before)
    (h : (attempts s n index left errors.length).Plays observer node ms (.ended ending))
    (hordinary : ∀ message, ending ≠ .aborted message) :
    (∃ entry, n.Concludes s index (before ++ ms) entry ending) ∨
      ∃ attempt e rest, ms = .checks false :: attempt ++ rest ∧ n.ComesTo s attempt (.error e) ∧
        (afterFailure s n index left errors.length e).Plays observer node rest (.ended ending) := by
  rcases h.of_attempts hordinary with ⟨rest, rfl, hcancel⟩ |
    ⟨attempt, rest, rfl, ⟨output, hattempt, hsucceed⟩ | ⟨e, hattempt, hfailed⟩⟩
  · obtain ⟨entry, rfl, rfl, hstatus, hretry⟩ := hcancel.of_cancel
    exact .inl ⟨entry, .cancelled hbefore hstatus hretry⟩
  · obtain ⟨entry, rfl, rfl, hstatus, hretry, houtput⟩ := hsucceed.of_succeed hordinary
    rw [← List.append_assoc]
    exact .inl ⟨entry, .succeeded hbefore hattempt hstatus hretry houtput⟩
  · exact .inr ⟨attempt, e, rest, rfl, hattempt, hfailed⟩

omit [Schema.Validator] in
/-- A pause counts from 1, and no count is too large for its word. -/
theorem toNat_ofNat_of_lt_retriesOf {retry : Nat} (h : retry < retriesOf s n) :
    (UInt32.ofNat (retry + 1)).toNat = retry + 1 :=
  UInt32.toNat_ofNat_of_lt' (Nat.lt_of_le_of_lt h (UInt32.toNat_lt _))

/-- Behind the attempts that have failed so far, those that are left conclude the node. -/
theorem concludes_attempts {errors : List Error} {before : List Mark}
    (hbefore : n.Retried s errors before) (hleft : errors.length + left = retriesOf s n)
    (h : (attempts s n index left errors.length).Plays observer node ms (.ended ending))
    (hordinary : ∀ message, ending ≠ .aborted message) :
    ∃ entry, n.Concludes s index (before ++ ms) entry ending := by
  -- on the attempts left; those that have failed are in front, and grow by one with each
  induction left generalizing errors before ms with
  | zero =>
    rcases concludes_or_fails hbefore h hordinary with hentry | ⟨attempt, e, rest, rfl, hattempt, hfail⟩
    · exact hentry
    · obtain ⟨entry, rfl, rfl, hstatus, hretry, herror⟩ := Plays.of_fail hfail hordinary
      rw [← List.append_assoc]
      exact ⟨entry, .failed hbefore hleft hattempt hstatus (hretry.trans hleft) herror⟩
  | succ left ih =>
    rcases concludes_or_fails hbefore h hordinary with hentry | ⟨attempt, e, rest, rfl, hattempt, hpause⟩
    · exact hentry
    · -- the attempt joins those that have failed
      obtain ⟨rest, rfl, hrest⟩ := Plays.of_pause hpause
      have hlt : errors.length < retriesOf s n := by omega
      have hmore := hbefore.more hattempt hlt (toNat_ofNat_of_lt_retriesOf hlt)
      have hlength : (errors ++ [e]).length = errors.length + 1 := List.length_append
      obtain ⟨entry, hentry⟩ := ih hmore (by omega) (hlength ▸ hrest)
      refine ⟨entry, ?_⟩
      rwa [List.append_assoc, List.append_assoc] at hentry

/-- A node begins its entry, tells the host that it has started, and makes its attempts. -/
theorem exists_concludes_ofNode (h : (ofNode s n).Plays observer node ms (.ended ending))
    (hordinary : ∀ message, ending ≠ .aborted message) :
    ∃ index rest entry, ms = .begins index :: .tells (.started n.id) :: rest ∧
      n.Concludes s index rest entry ending := by
  obtain ⟨index, rest, rfl, hbegun⟩ := h.of_permit.of_begin
  obtain ⟨rest, rfl, htold⟩ := hbegun.of_notify hordinary
  obtain ⟨entry, hentry⟩ := concludes_attempts .none (Nat.zero_add _) htold hordinary
  exact ⟨index, rest, entry, rfl, hentry⟩

end Course

/-! ## Executions -/

namespace Graph

variable {g : Graph} {o : Options} {e : Execution} {context : Value} {mode : Mode}

/-- The marks of a node that was executed are those of a node that retries, with its own entry in
the trace. -/
theorem Chronicles.exists_concludes [Schema.Validator] {marks : List (String × Mark)}
    (h : g.Chronicles context mode o marks e) {n : Node} (hn : n ∈ g.nodes) {ending : Ending}
    (hmem : (n.id, ending) ∈ e.outcomes) (hordinary : ∀ message, ending ≠ .aborted message) :
    ∃ index ms entry,
      Mark.ofNode n.id marks = .begins index :: .tells (.started n.id) :: ms ∧
        n.Concludes o.settings index ms entry ending ∧
        entry ∈ e.wave.entries ∧ entry.nodeId = n.id := by
  obtain ⟨n', hn', hid, hplays⟩ := h.plays_of_mem_outcomes hmem
  obtain rfl := node_unique hn' hn hid
  obtain ⟨index, ms, entry, heq, hentry⟩ := Course.exists_concludes_ofNode hplays hordinary
  refine ⟨index, ms, entry, heq, hentry, ?_⟩
  have hsettles : .settles index entry ∈ Mark.ofNode n'.id marks := by
    rw [heq]
    exact List.mem_cons_of_mem _ (List.mem_cons_of_mem _ hentry.settles_mem)
  obtain ⟨htrace, hnode, -⟩ := h.chronicled.settled _ _ _ (Mark.mem_ofNode.1 hsettles)
  exact ⟨htrace, hnode⟩

/-- Every execution comes to its end, and then every node that can be executed has come to one.
Whatever has happened in an execution until now, the host has been told what the chronicle says, in
that order; and of each node that has come to its end, unless by a panic, the chronicle says this.
The node began its entry and told the host that it started. As long as an attempt failed and was not
the last one, it paused for the delay of that retry and came to another check. It stopped at the
first check that found the run cancelled or the first attempt that succeeded, and otherwise when it
had made one attempt more than it has retries. Then it settled its entry, which says which of this
it was, how many attempts had failed before, and the output or the last error; and only behind that
the host was told, of a success or a failure and once. The entry is in the trace from then on, and
the node has ended as it says. -/
theorem retries_exact [Schema.Validator] (h : g.Reaches context mode o e) :
    e.Finishes o ∧
    (e.IsOver → ∀ n ∈ g.nodes, g.Runnable n.id → ∃ ending, (n.id, ending) ∈ e.outcomes) ∧
    (∃ marks, g.Chronicles context mode o marks e) ∧
    ∀ marks, g.Chronicles context mode o marks e →
      e.wave.world.notices = Mark.notices marks ∧
      ∀ n ∈ g.nodes, ∀ ending, (n.id, ending) ∈ e.outcomes →
        (∀ message, ending ≠ .aborted message) →
        ∃ index ms entry,
          Mark.ofNode n.id marks = .begins index :: .tells (.started n.id) :: ms ∧
            n.Concludes o.settings index ms entry ending ∧
            entry.retryCount ≤ retriesOf o.settings n ∧
            entry ∈ e.wave.entries ∧ entry.nodeId = n.id := by
  refine ⟨h.finishes, fun hover n _ hrunnable => ?_, h.exists_chronicle, fun marks hmarks =>
    ⟨hmarks.chronicled.notices, fun n hn ending hmem hordinary => ?_⟩⟩
  · obtain ⟨⟨_, ending⟩, hmem, rfl⟩ := List.mem_map.1 ((h.traced.mem_outcomes_iff hover).2 hrunnable)
    exact ⟨ending, hmem⟩
  · obtain ⟨index, ms, entry, heq, hentry, htrace⟩ := hmarks.exists_concludes hn hmem hordinary
    exact ⟨index, ms, entry, heq, hentry, hentry.retryCount_le, htrace⟩

/-- A node that succeeds at its second attempt. -/
def hesitant : Graph where
  nodes := [.ofTool "a" [] (Stock.tool (.flaky 1) "f" none none) .null {}]
  nodup := by decide

/-- The grammar for a node that fails once and succeeds at its second attempt. -/
theorem retries_exact_hesitant :
    let o : Options := { planId := "p", settings := { maxRetries := 2, retryBaseDelayMs := 1 } }
    ∃ e marks ending n, hesitant.Reaches .null .dag o e ∧ hesitant.Chronicles .null .dag o marks e ∧
      n ∈ hesitant.nodes ∧ (n.id, ending) ∈ e.outcomes ∧ (∀ message, ending ≠ .aborted message) ∧
      ∃ index ms entry,
        Mark.ofNode n.id marks = .begins index :: .tells (.started n.id) :: ms ∧
          n.Concludes o.settings index ms entry ending ∧ entry ∈ e.wave.entries := by
  intro o
  obtain ⟨hreaches, hover⟩ := hesitant.reaches_execution .null .dag o
  have hfirst : (hesitant.execution .null .dag o).firstError?.isNone = true := by cbv
  obtain ⟨-, houtcome, ⟨marks, hmarks⟩, hexact⟩ := retries_exact hreaches
  have hrunnable : hesitant.Runnable (hesitant.nodes.head (List.cons_ne_nil _ _)).id :=
    .node List.mem_cons_self fun d hd => absurd hd List.not_mem_nil
  obtain ⟨ending, hmem⟩ := houtcome hover _ List.mem_cons_self hrunnable
  have hordinary : ∀ message, ending ≠ .aborted message := by
    rintro message rfl
    cases Execution.firstError?_eq_none_iff.1 (Option.isNone_iff_eq_none.1 hfirst) _ hmem
  obtain ⟨-, hconcludes⟩ := hexact marks hmarks
  obtain ⟨index, ms, entry, heq, hentry, -, htrace, -⟩ :=
    hconcludes _ List.mem_cons_self ending hmem hordinary
  exact ⟨_, marks, ending, _, hreaches, hmarks, List.mem_cons_self, hmem, hordinary, index, ms, entry,
    heq, hentry, htrace⟩

end Graph

end Wavefront
