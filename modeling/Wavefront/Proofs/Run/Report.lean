/-
Reports: what running a graph, a plan or a document can come to, and whether the result and the
trace agree.

A graph is refused for its settings, or it is executed and the report is what the execution leaves;
whose turn it was at any time makes no difference to what is shown here. A plan and a document can
be refused for more, but once there is a graph it is run like any other. A failure of a node that is
reported is in the trace, as the entry of that node with the same message: the entry is settled
before the course ends, and whatever panics before that fails the entry when note is taken of it.

There is one way around. A host may panic when it is told how a node ended. The entry has been
settled by then and stays as it is, while the run fails with the message of the panic.
-/
import Mathlib
import Wavefront.Proofs.Result
import Wavefront.Proofs.Run.Executed
import Wavefront.Schema.Reader

set_option autoImplicit false

namespace Wavefront

/-- What a trace can say of a node that failed a run with a message: that it failed with this very
message or, if the host panicked on being told how the node ended, how that was. -/
def Entry.Accounts (observer : Observer) (e : Entry) (message : String) : Prop :=
  e.status = .failed ∧ e.error = some message ∨ e.Outlives observer message

/-- An end that fails a run with the failure of a node is accounted for by the entry of the node. -/
theorem Entry.Tells.accounts {observer : Observer} {node id message : String} {e : Entry}
    {ending : Ending} (h : e.Tells observer node ending)
    (hfails : ending.error? node = some (.nodeFailed id message)) :
    node = id ∧ e.Accounts observer message := by
  cases ending with
  | passed => cases hfails
  | failed error =>
    obtain ⟨hstatus, message', herror, rfl⟩ := h
    obtain ⟨rfl, rfl⟩ := Error.nodeFailed.inj (Option.some.inj hfails)
    exact ⟨rfl, .inl ⟨hstatus, herror⟩⟩
  | aborted message' =>
    obtain ⟨rfl, rfl⟩ := Error.nodeFailed.inj (Option.some.inj hfails)
    exact ⟨rfl, h⟩

/-- An end that fails no run is that of an entry that has not failed. -/
theorem Entry.Tells.status_ne_failed {observer : Observer} {node : String} {e : Entry}
    {ending : Ending} (h : e.Tells observer node ending) (hnone : ending.error? node = none) :
    e.status ≠ .failed := by
  cases ending with
  | passed => rcases h with h | h <;> rw [h] <;> nofun
  | failed _ => cases hnone
  | aborted _ => cases hnone

/-- The error of settings that are refused is about them. -/
theorem Settings.check_eq_error {s : Settings} {e : Error} (h : s.check = .error e) :
    ∃ fault, e = .settings fault := by
  unfold check at h
  split at h
  · exact ⟨_, (Except.error.inj h).symm⟩
  · cases h

namespace Graph

variable [Schema.Validator]

/-- What running a graph can report, whatever the order of turns. -/
inductive Reports (g : Graph) (context : Value) (mode : Mode) (o : Options) : Report → Prop
  | refused {e : Error} (h : o.settings.check = .error e) : Reports g context mode o (o.refuse e)
  | executed {e : Execution} (hsettings : o.settings.check = .ok ())
      (hreaches : g.Reaches context mode o e) (hover : e.IsOver) :
      Reports g context mode o (g.reportOf o e)

/-- A run is one way for a graph to be run. -/
theorem reports_run (g : Graph) (context : Value) (mode : Mode) (o : Options) :
    g.Reports context mode o (g.run context mode o) := by
  unfold run
  split
  · next e h => exact .refused h
  · next h =>
    obtain ⟨e, hreaches, hover, heq⟩ := g.exists_execute_eq context mode o
    exact heq ▸ .executed h hreaches hover

end Graph

namespace Plan

variable [Schema.Validator]

/-- What running a plan can report. -/
inductive Reports (p : Plan) (tools : Registry) (context : Value) (o : Options) : Report → Prop
  | refused {e : Error} (h : (do o.settings.check; p.compile tools context) = .error e) :
      Reports p tools context o (o.refuse e)
  | ran {g : Graph} {r : Report} (h : (do o.settings.check; p.compile tools context) = .ok g)
      (hr : g.Reports context p.mode o r) : Reports p tools context o r

/-- Running a plan reports what the plan may report. -/
theorem reports_run (p : Plan) (tools : Registry) (context : Value) (o : Options) :
    p.Reports tools context o (p.run tools context o) := by
  unfold run
  split
  · next h => exact .refused h
  · next g h => exact .ran h (g.reports_run context p.mode o)

/-- What running the plan of a document can report. -/
inductive DocumentReports (document : Value) (tools : Registry) (context : Value) (o : Options) :
    Report → Prop
  | refused {e : Error} (h : ofDocument document = .error e) :
      DocumentReports document tools context o (o.refuse e)
  | ran {p : Plan} {r : Report} (h : ofDocument document = .ok p)
      (hr : p.Reports tools context o r) : DocumentReports document tools context o r

/-- Running a document reports what the document may report. -/
theorem reports_runDocument (document : Value) (tools : Registry) (context : Value) (o : Options) :
    DocumentReports document tools context o (runDocument document tools context o) := by
  unfold runDocument
  split
  · next h => exact .refused h
  · next p h => exact .ran h (p.reports_run tools context o)

end Plan

namespace Graph

variable {g : Graph} {context : Value} {mode : Mode} {o : Options} {r : Report}

/-- The error of an execution that is over is that of nodes that are left, or of a node that
failed. -/
theorem error_cases [Schema.Validator] {e : Execution} (hreaches : g.Reaches context mode o e)
    (hover : e.wave.IsOver)
    {error : Error} (h : (g.reportOf o e).error? = some error) :
    (∃ pending, error = .deadlock pending) ∨
      e.firstError? = some error ∧ ∃ k, e.FailsFirst k error := by
  rw [error?_reportOf] at h
  split at h
  · exact .inr ⟨h, hreaches.traced.failsFirst hover h⟩
  · exact .inl ⟨_, (Option.some.inj h).symm⟩

/-- The failure of a node that a run reports is accounted for in its trace. -/
theorem Reports.accounts [Schema.Validator] {id message : String} (h : g.Reports context mode o r)
    (herror : r.error? = some (.nodeFailed id message)) :
    ∃ trace, r.trace? = some trace ∧
      ∃ entry ∈ trace.entries, entry.nodeId = id ∧ entry.Accounts o.observer message := by
  cases h with
  | refused h =>
    obtain ⟨fault, rfl⟩ := Settings.check_eq_error h
    cases herror
  | @executed e _ hreaches hover =>
    rcases error_cases hreaches hover.1 herror with ⟨_, hdeadlock⟩ | ⟨-, k, ⟨p, hp, hfails, -⟩, -⟩
    -- a deadlock is no failure of a node
    · cases hdeadlock
    · obtain ⟨entry, hentry, hid, htells⟩ :=
        hreaches.traced.tells_of_mem_outcomes hover.1 (Execution.mem_outcomes.2 ⟨k, hp⟩)
      obtain ⟨rfl, haccounts⟩ := htells.accounts hfails
      exact ⟨_, trace?_reportOf .., entry, hentry, hid, haccounts⟩

/-- A run that succeeds leaves no entry that failed. -/
theorem Reports.status_ne_failed [Schema.Validator] {success : Success}
    (h : g.Reports context mode o r)
    (hok : r.result = .ok success) :
    (∀ entry ∈ success.trace.entries, entry.status ≠ .failed) ∧
      success.trace.statistics = some (.ofEntries success.trace.entries) := by
  cases h with
  | refused _ => cases hok
  | @executed e _ hreaches hover =>
    have herror : (g.reportOf o e).error? = none := by rw [Report.error?, hok]
    have htrace := g.trace?_reportOf o e
    rw [Report.trace?, hok] at htrace
    rw [Option.some.inj htrace]
    refine ⟨fun entry hentry => ?_, rfl⟩
    obtain ⟨p, hp, -, htells⟩ := hreaches.traced.exists_outcome hover hentry
    rw [error?_reportOf] at herror
    -- a success has no nodes left over, and no outcome that is an error
    split at herror
    · exact htells.status_ne_failed (Execution.firstError?_eq_none_iff.1 herror p hp)
    · cases herror

/-- **The result of a run and its trace agree**, whatever the order of turns, the tools and the
host. If the run fails with the failure of a node, the trace has an entry of that node that failed
with the same message, unless the host panicked on being told how the node ended; then that is the
message of the run, and the entry says what the host was told. If the run succeeds, no entry
failed. -/
theorem result_agrees_with_trace [Schema.Validator] (g : Graph) (context : Value) (mode : Mode)
    (o : Options) :
    g.Reports context mode o (g.run context mode o) ∧
    ∀ r, g.Reports context mode o r →
      (∀ id message, r.error? = some (.nodeFailed id message) →
        ∃ trace, r.trace? = some trace ∧
          ∃ entry ∈ trace.entries, entry.nodeId = id ∧ entry.Accounts o.observer message) ∧
      ∀ success, r.result = .ok success →
        (∀ entry ∈ success.trace.entries, entry.status ≠ .failed) ∧
          ∃ statistics, success.trace.statistics = some statistics ∧ statistics.failed = 0 := by
  refine ⟨g.reports_run context mode o, fun r h => ⟨fun _ _ => h.accounts, fun success hok => ?_⟩⟩
  obtain ⟨hentries, hstatistics⟩ := h.status_ne_failed hok
  refine ⟨hentries, _, hstatistics, ?_⟩
  exact List.countP_eq_zero.2 fun entry hentry hfailed =>
    hentries entry hentry (of_decide_eq_true hfailed)

/-- A graph of one node, which calls a stock tool. -/
def lone (behavior : Stock) : Graph where
  nodes := [.ofTool "a" [] (Stock.tool behavior "tool" none none) .null {}]
  nodup := List.nodup_singleton _

/-- A run without retries for a host that panics on being told that a node succeeded. -/
def upset : Options where
  planId := "p"
  settings := { maxRetries := 0 }
  observer
    | .completed _ _ => some "boom"
    | _ => none

/-- A lone node that fails accounts for the failure, and a lone one that echoes leaves no failed
entry. -/
theorem result_agrees_with_trace_lone :
    (∃ trace, ((lone (.fail "boom")).run .null .dag upset).trace? = some trace ∧
      ∃ entry ∈ trace.entries, entry.nodeId = "a" ∧
        entry.Accounts upset.observer "Tool 'tool' failed: boom") ∧
    ∃ success, ((lone .echo).run .null .dag { planId := "p" }).result = .ok success ∧
      ∀ entry ∈ success.trace.entries, entry.status ≠ .failed := by
  have herror : ((lone (.fail "boom")).run .null .dag upset).error?
      = some (.nodeFailed "a" "Tool 'tool' failed: boom") := by cbv
  obtain ⟨success, hok⟩ := exists_eq_ok_of_isOk
    (x := ((lone .echo).run .null .dag { planId := "p" }).result) (by cbv)
  have hfails := result_agrees_with_trace (lone (.fail "boom")) .null .dag upset
  have hsucceeds := result_agrees_with_trace (lone .echo) .null .dag { planId := "p" }
  exact ⟨(hfails.2 _ hfails.1).1 _ _ herror, success, hok,
    ((hsucceeds.2 _ hsucceeds.1).2 success hok).1⟩

set_option maxRecDepth 30000 in
/-- A host that panics on being told of a success makes the run fail with a node whose entry is that
of a success. -/
theorem result_disagrees_with_trace_upset :
    ((lone .echo).run .null .dag upset).error? = some (.nodeFailed "a" (panicMessage "boom")) ∧
      ((lone .echo).run .null .dag upset).trace?.map
          (fun trace => trace.entries.map fun e => (e.nodeId, e.status, e.error))
        = some [("a", .success, none)] := by
  constructor <;> cbv

end Graph

end Wavefront
