/-
Refusals: the errors that come before anything is executed, and what a failure says of that.

Every error of the settings, of the check of a document, of the look-up of tools and of the graph is
of a kind that is only raised before a node runs. So a failure has no trace exactly if its error is
of such a kind: what fails a run that has begun is a node, or nodes that are stuck.

Reading is the exception. A document can pass the check and yet be no plan. It is refused for its
shape then, like a text that is no document, and that kind is not one of those.
-/
import Wavefront.Proofs.Plan.Place
import Wavefront.Proofs.Run.Report
import Wavefront.Schema.Reader

set_option autoImplicit false

namespace Wavefront

/-! ## Errors before execution -/

/-- Whatever the computation fails with, it is an error of a kind that is raised only before
execution. -/
def Upfront {α : Type} (x : Except Error α) : Prop := ∀ e, x = .error e → e.isPreExecution = true

namespace Upfront

variable {α β : Type}

theorem ok (a : α) : Upfront (.ok a : Except Error α) := fun _ h => nomatch h

/-- Two things in a row raise errors upfront as each of them does. -/
theorem bind {x : Except Error α} {f : α → Except Error β} (hx : Upfront x)
    (hf : ∀ a, x = .ok a → Upfront (f a)) : Upfront (x >>= f) := by
  intro e he
  rcases bind_eq_error_iff.1 he with he | ⟨a, ha, he⟩
  · exact hx e he
  · exact hf a ha e he

end Upfront

/-- Settings are refused before anything runs. -/
theorem Settings.upfront_check (s : Settings) : Upfront s.check := by
  intro e he
  obtain ⟨fault, rfl⟩ := check_eq_error he
  rfl

/-- A document is refused by the check before anything runs. -/
theorem Plan.upfront_check (document : Value) : Upfront (check document) := by
  intro e he
  unfold check at he
  split at he
  · cases he
  · obtain rfl := Except.error.inj he
    rfl

/-- A tool is found missing before anything runs. -/
theorem Registry.upfront_require (tools : Registry) (id step : String) :
    Upfront (tools.require id step) := by
  intro e he
  unfold require at he
  split at he
  · cases he
  · obtain rfl := Except.error.inj he
    rfl

/-- A graph is refused for its ids before anything runs. -/
theorem Graph.upfront_ofNodes (nodes : List Node) : Upfront (ofNodes nodes) := by
  intro e he
  unfold ofNodes at he
  split at he
  · obtain rfl := Except.error.inj he
    rfl
  · cases he

/-- The tools of branches are found missing before anything runs. -/
theorem upfront_requireTools (tools : Registry) (steps : List Step) :
    Upfront (requireTools tools steps) := by
  induction steps with
  | nil => exact .ok ()
  | cons step steps ih =>
    rw [requireTools]
    cases step.tool? with
    | none => exact ih
    | some tool => exact (tools.upfront_require tool step.id).bind fun _ _ => ih

namespace Step

variable (tools : Registry) (context : Value)

/-- Steps are expanded without other errors if each of them is. -/
theorem upfront_expandAll {inherited : List String} {steps : List Step}
    (h : ∀ s ∈ steps, Upfront (expand tools context inherited s)) :
    Upfront (expandAll tools context inherited steps) := by
  induction steps with
  | nil =>
    rw [expandAll]
    exact .ok _
  | cons s steps ih =>
    rw [List.forall_mem_cons] at h
    rw [expandAll]
    exact h.1.bind fun _ _ => (ih h.2).bind fun _ _ => .ok _

/-- A step that is not expanded names a tool that is not there. -/
theorem upfront_expand (s : Step) (inherited : List String) :
    Upfront (expand tools context inherited s) := by
  induction s using childrenInduction generalizing inherited with
  | h s ih =>
    cases s with
    | tool s =>
      rw [expand]
      exact ((tools.upfront_require _ _).bind fun _ _ => .ok _).bind fun _ _ => .ok _
    | final s =>
      rw [expand]
      exact ((tools.upfront_require _ _).bind fun _ _ => .ok _).bind fun _ _ => .ok _
    | loop s =>
      rw [expand]
      exact ((tools.upfront_require _ _).bind fun _ _ => .ok _).bind fun _ _ => .ok _
    | reduce s =>
      rw [expand]
      exact ((tools.upfront_require _ _).bind fun _ _ => .ok _).bind fun _ _ => .ok _
    | parallel shell steps =>
      rw [expand]
      exact (upfront_expandAll tools context fun t ht => ih t ht _).bind fun _ _ => .ok _
    -- the branches are not expanded yet; only their tools are looked up
    | conditional shell condition yes no =>
      rw [expand]
      exact ((upfront_requireTools tools _).bind fun _ _ => .ok _).bind fun _ _ => .ok _

end Step

/-- A plan is refused by the compiler before anything runs. -/
theorem Plan.upfront_compile (p : Plan) (tools : Registry) (context : Value) :
    Upfront (p.compile tools context) :=
  (upfront_check _).bind fun _ _ =>
    (Step.upfront_expandAll tools context fun s _ => s.upfront_expand tools context _).bind
      fun _ _ => Graph.upfront_ofNodes _

/-! ## Failures -/

/-- The failure is without a trace exactly if its error is of a kind that is raised only before
execution. -/
def Failure.IsClassified (f : Failure) : Prop := f.trace = none ↔ f.error.isPreExecution = true

/-- Refusing a run with an error that is raised upfront leaves no trace, as is right. -/
theorem Options.isClassified_refuse {o : Options} {e : Error} (h : e.isPreExecution = true)
    {f : Failure} (hf : (o.refuse e).result = .error f) : f.IsClassified := by
  obtain rfl := Except.error.inj hf
  exact iff_of_true rfl h

/-- Whatever fails the run of a graph is classified by its trace. -/
theorem Graph.Reports.isClassified [Schema.Validator] {g : Graph} {context : Value} {mode : Mode}
    {o : Options}
    {r : Report} (h : g.Reports context mode o r) {f : Failure} (hf : r.result = .error f) :
    f.IsClassified := by
  cases h with
  | refused h => exact Options.isClassified_refuse (o.settings.upfront_check _ h) hf
  | @executed e _ hreaches hover =>
    have herror : (g.reportOf o e).error? = some f.error := by rw [Report.error?, hf]
    have htrace := g.trace?_reportOf o e
    rw [Report.trace?, hf] at htrace
    -- what has been executed has a trace, so the error must not be one from before
    have hbegan : f.trace ≠ none := by
      intro hnone
      cases hnone.symm.trans htrace
    refine iff_of_false hbegan ?_
    rcases error_cases hreaches hover.1 herror with ⟨_, hdeadlock⟩ | ⟨-, _, ⟨_, -, -, _, hfailed⟩, -⟩
    · rw [hdeadlock]
      exact Bool.false_ne_true
    · rw [hfailed]
      exact Bool.false_ne_true

/-- Whatever fails the run of a plan is classified by its trace. -/
theorem Plan.Reports.isClassified [Schema.Validator] {p : Plan} {tools : Registry} {context : Value}
    {o : Options}
    {r : Report} (h : p.Reports tools context o r) {f : Failure} (hf : r.result = .error f) :
    f.IsClassified := by
  cases h with
  | refused h =>
    have hupfront : Upfront (do o.settings.check; p.compile tools context) :=
      o.settings.upfront_check.bind fun _ _ => p.upfront_compile tools context
    exact Options.isClassified_refuse (hupfront _ h) hf
  | ran _ hr => exact hr.isClassified hf

namespace Plan

/-- A document that passes the check and is no plan. -/
def Unreadable (document : Value) : Prop :=
  check document = .ok () ∧ ∀ p, convert document ≠ .ok p

/-- A document is refused for its shape and nothing else, once it passed the check. -/
theorem convert_eq_error {document : Value} {e : Error} (h : convert document = .error e) :
    e = .json .wrongShape := by
  unfold convert at h
  split at h
  · cases h
  · exact (Except.error.inj h).symm

/-- A document that passes the check and is no plan is refused for its shape. -/
theorem ofDocument_of_unreadable {document : Value} (h : Unreadable document) :
    ofDocument document = .error (.json .wrongShape) := by
  rw [ofDocument, h.1]
  cases hconvert : convert document with
  | ok p => exact absurd hconvert (h.2 p)
  | error e =>
    obtain rfl := convert_eq_error hconvert
    rfl

/-- A document that can be read is refused for what the check found. -/
theorem check_of_ofDocument {document : Value} {e : Error} (h : ofDocument document = .error e)
    (hreadable : ¬Unreadable document) : check document = .error e := by
  rcases bind_eq_error_iff.1 h with h | ⟨_, hcheck, hconvert⟩
  · exact h
  · exact absurd ⟨hcheck, fun p hp => nomatch hp.symm.trans hconvert⟩ hreadable

/-- Whatever fails the run of a document is classified by its trace, if the document can be read or
is refused by the check. -/
theorem DocumentReports.isClassified [Schema.Validator] {document : Value} {tools : Registry}
    {context : Value}
    {o : Options} {r : Report} (h : DocumentReports document tools context o r)
    (hreadable : ¬Unreadable document) {f : Failure} (hf : r.result = .error f) :
    f.IsClassified := by
  cases h with
  | refused h =>
    exact Options.isClassified_refuse (upfront_check _ _ (check_of_ofDocument h hreadable)) hf
  | ran _ hr => exact hr.isClassified hf

/-- A document that passes the check and is no plan fails without a trace, and its error is of a
kind that nodes can raise as well. -/
theorem DocumentReports.of_unreadable [Schema.Validator] {document : Value} {tools : Registry}
    {context : Value}
    {o : Options} {r : Report} (h : DocumentReports document tools context o r)
    (hunreadable : Unreadable document) : r = o.refuse (.json .wrongShape) := by
  have herror := ofDocument_of_unreadable hunreadable
  cases h with
  | refused h =>
    obtain rfl := Except.error.inj (h.symm.trans herror)
    rfl
  | ran h _ => exact nomatch h.symm.trans herror

/-- **Failures say whether the run began.** Whatever a graph, a plan or a document is run with and
whatever happens, a failure carries no trace exactly if its error is of a kind that is raised only
before execution, but for documents that pass the check and are no plan. Those are always refused,
without a trace, and with an error that is not of such a kind. -/
theorem failures_classified [Schema.Validator] (tools : Registry) (context : Value) (o : Options) :
    (∀ (g : Graph) (mode : Mode) (r : Report), g.Reports context mode o r →
      ∀ f, r.result = .error f → f.IsClassified) ∧
    (∀ (p : Plan) (r : Report), p.Reports tools context o r →
      ∀ f, r.result = .error f → f.IsClassified) ∧
    ∀ (document : Value) (r : Report), DocumentReports document tools context o r →
      (¬Unreadable document → ∀ f, r.result = .error f → f.IsClassified) ∧
      (Unreadable document →
        ∃ f, r.result = .error f ∧ f.error = .json .wrongShape ∧ ¬f.IsClassified) := by
  refine ⟨fun g mode r h f hf => h.isClassified hf, fun p r h f hf => h.isClassified hf,
    fun document r h => ⟨fun hreadable f hf => h.isClassified hreadable hf, fun hunreadable => ?_⟩⟩
  obtain rfl := h.of_unreadable hunreadable
  exact ⟨_, rfl, rfl, fun hclassified => nomatch hclassified.1 rfl⟩

/-- A loop whose body has null for an id, which the check does not look at. -/
def nullIdInLoop : Value := .object
  [("steps", .array [.object
      [("as", .string "x"), ("id", .string "l"), ("over", .array [.null]),
       ("step", .object [("id", .null), ("tool", .string "echo")]), ("type", .string "loop")]]),
   ("version", .string "1")]

/-- A null id in the body of a loop passes the check, but is no plan. -/
theorem unreadable_nullIdInLoop : Unreadable nullIdInLoop := by
  obtain ⟨_, hcheck⟩ := exists_eq_ok_of_isOk (x := check nullIdInLoop) (by cbv)
  obtain ⟨_, hconvert⟩ := exists_eq_error_of_isOk (x := convert nullIdInLoop) (by cbv)
  refine ⟨hcheck, fun p hp => ?_⟩
  rw [hconvert] at hp
  cases hp

/-- That null is no plan is found by the check. -/
theorem not_unreadable_null : ¬Unreadable .null := fun h => nomatch h.1

/-- A step that names a tool that is not there. -/
def unknownTool : Plan where
  version := "1"
  steps := [.tool { id := "a", tool := "nowhere" }]

/-- Failures of a graph, a plan and two documents; the last one is not classified. -/
theorem failures_classified_unknownTool :
    (∃ f, ((Graph.lone (.fail "boom")).run .null .dag { planId := "p" }).result = .error f ∧
      f.IsClassified) ∧
    (∃ f, (unknownTool.run .standard .null { planId := "p" }).result = .error f ∧ f.IsClassified) ∧
    (∃ f, (runDocument .null .standard .null { planId := "p" }).result = .error f ∧ f.IsClassified) ∧
    ∃ f, (runDocument nullIdInLoop .standard .null { planId := "p" }).result = .error f ∧
      f.error = .json .wrongShape ∧ ¬f.IsClassified := by
  obtain ⟨hgraph, hplan, hdocument⟩ := failures_classified .standard .null { planId := "p" }
  -- a node fails, a tool is not known, and a document is refused by the check
  obtain ⟨f, hf⟩ := exists_eq_error_of_isOk
    (x := ((Graph.lone (.fail "boom")).run .null .dag { planId := "p" }).result) (by cbv)
  obtain ⟨f', hf'⟩ := exists_eq_error_of_isOk
    (x := (unknownTool.run .standard .null { planId := "p" }).result) (by cbv)
  obtain ⟨f'', hf''⟩ := exists_eq_error_of_isOk
    (x := (runDocument .null .standard .null { planId := "p" }).result) (by cbv)
  exact ⟨⟨f, hf, hgraph _ _ _ (Graph.reports_run ..) f hf⟩,
    ⟨f', hf', hplan _ _ (reports_run ..) f' hf'⟩,
    ⟨f'', hf'', (hdocument _ _ (reports_runDocument ..)).1 not_unreadable_null f'' hf''⟩,
    (hdocument _ _ (reports_runDocument ..)).2 unreadable_nullIdInLoop⟩

/-- A failure without a trace whose error does not say that nothing was run. -/
theorem failure_unclassified_nullIdInLoop :
    ∃ f, (runDocument nullIdInLoop .standard .null { planId := "p" }).result = .error f ∧
      f.trace = none ∧ f.error.isPreExecution = false := by
  rw [runDocument, ofDocument_of_unreadable unreadable_nullIdInLoop]
  exact ⟨_, rfl, rfl, rfl⟩

end Plan

end Wavefront
