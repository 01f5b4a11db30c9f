/-
Causes: what an attempt of a node can fail with, once all tools have been found.

The work of a node looks up no tools. It fails because a reference leads nowhere, a schema or a
condition refuses, a call fails or its result cannot be written, and an attempt fails when its time
is over. Only a conditional looks up more tools: it expands the branch that it has chosen, in the
context as it is then. But whoever has expanded a conditional has found all tools of its branches.
So if all tools of a plan were found when it was expanded, no attempt of a node ever fails for want
of a tool, however often the registry has grown in the meantime.

Such failures are called ordinary. A turn keeps them, and so does every move of an execution.
-/
import Wavefront.Proofs.Error
import Wavefront.Proofs.Plan.Tools
import Wavefront.Proofs.Run.Deeds
import Wavefront.Proofs.Run.Executed
import Wavefront.Proofs.Run.Seen
import Wavefront.Schema.Reader

set_option autoImplicit false

namespace Wavefront

/-! ## Ordinary errors -/

/-- May a node fail with an error of this kind although all its tools are there? -/
def ErrorKind.isOrdinary : ErrorKind → Bool
  | compile | timeout | schemaRejected | toolFailed | condition | invalidPath => true
  | _ => false

/-- An error that a node may fail with although all its tools are there. -/
def Error.Ordinary (e : Error) : Prop := e.kind.isOrdinary = true

/-- The texts of ordinary errors begin in other ways than that of a tool that is not known. -/
theorem Error.Ordinary.message_ne {e : Error} (h : e.Ordinary) (tool step : String) :
    e.message ≠ (unknownTool tool step).message := by
  refine message_ne_of_initial ?_
  cases e with
  | unknownTool _ _ => cases h
  | _ =>
    simp only [initial]
    decide

/-- A context that an input schema refuses is an ordinary failure. -/
theorem requireContext_ordinary [Schema.Validator] {node : String} {schema : Option Value}
    {context : Value} {e : Error} (h : requireContext node schema context = .error e) : e.Ordinary := by
  obtain ⟨_, rfl⟩ := requireContext_rejected h
  rfl

/-- Parameters that the schema of a tool refuses are an ordinary failure. -/
theorem Tool.check_ordinary [Schema.Validator] {t : Tool} {params : Value} {e : Error}
    (h : t.check params = .error e) : e.Ordinary := by
  obtain ⟨_, rfl⟩ := requireParams_rejected h
  rfl

/-- However a call comes out, its result is no want of a tool. -/
theorem Outcome.result_ordinary {tool : String} {outcome : Outcome} {e : Error}
    (h : outcome.result tool = .ok (.error e)) : e.Ordinary := by
  cases outcome with
  | returned value => cases h
  | failed causes =>
    obtain rfl := Except.error.inj (Except.ok.inj h)
    rfl
  | panicked message => cases h

/-- If the computation fails, then ordinarily. -/
def FailsOrdinarily {α : Type} (x : Except Error α) : Prop := ∀ e, x = .error e → e.Ordinary

/-! ## Fan-outs -/

namespace Fanout

/-- The calls that have failed so far have failed ordinarily. -/
def Ordinary (f : Fanout) : Prop := ∀ h ∈ f.held, ∀ r, h.stage = .ended r → FailsOrdinarily r

variable {f : Fanout}

/-- Places that are filled have not ended. -/
theorem ordinary_fill (h : f.Ordinary) : f.fill.Ordinary := by
  intro a ha r hr
  rcases List.mem_append.1 ha with ha | ha
  · exact h a ha r hr
  · obtain ⟨call, -, rfl⟩ := List.mem_map.1 ha
    cases hr

theorem ordinary_ofCalls (width : Nat) (calls : List Call) : (ofCalls width calls).Ordinary :=
  ordinary_fill fun _ ha => absurd ha List.not_mem_nil

theorem ordinary_collect (h : f.Ordinary) (v : Value) : (f.collect v).Ordinary :=
  ordinary_fill fun a ha => h a (List.mem_of_mem_tail ha)

/-- The stage of a call may change to one that has not ended, or that has ended ordinarily. -/
theorem ordinary_modify (h : f.Ordinary) (place : Nat) (change : Stage → Stage)
    (hchange : ∀ a ∈ f.held, ∀ r, change a.stage = .ended r → FailsOrdinarily r) :
    Ordinary { f with held := f.held.modify place fun a => { a with stage := change a.stage } } := by
  intro a ha r hr
  obtain ⟨k, hk⟩ := List.mem_iff_getElem?.1 ha
  rw [List.getElem?_modify] at hk
  obtain ⟨b, hb, rfl⟩ := Option.map_eq_some_iff.1 hk
  have hmem := List.mem_of_getElem? hb
  by_cases hplace : place = k
  · rw [if_pos hplace] at hr
    exact hchange b hmem r hr
  · rw [if_neg hplace] at hr
    exact h b hmem r hr

/-- Setting the stage of one place keeps a fan-out ordinary, if the stage is no extraordinary end.
-/
theorem ordinary_setStage (h : f.Ordinary) (place : Nat) {stage : Stage}
    (hstage : ∀ r, stage = .ended r → FailsOrdinarily r) : (f.setStage place stage).Ordinary :=
  ordinary_modify h place (fun _ => stage) fun _ _ => hstage

/-- A call that wakes has not ended. -/
theorem ordinary_wake (h : f.Ordinary) (number : Nat) : (f.wake number).Ordinary := by
  refine ordinary_modify h _ Stage.wake ?_
  intro a ha r hr
  -- nothing that is woken ends at once
  cases hstage : a.stage with
  | ended r' =>
    rw [hstage] at hr
    obtain rfl := Stage.ended.inj hr
    exact h a ha _ hstage
  | fresh => rw [hstage] at hr; cases hr
  | running outcome => rw [hstage] at hr; cases hr
  | awake outcome => rw [hstage] at hr; cases hr

/-- The result of a fan-out is that of its calls, or the failure of one. -/
theorem ordinary_of_finish (h : f.Ordinary) {r : Except Error (List Value)}
    (hn : f.next = .finish r) : FailsOrdinarily r := by
  intro e he
  rcases oldest_of_finish hn with ⟨-, rfl⟩ | ⟨call, e', rest, hheld, rfl⟩
  · cases he
  · obtain rfl := Except.error.inj he
    exact h _ (hheld ▸ List.mem_cons_self) _ rfl _ rfl

end Fanout

/-! ## Work -/

/-- Whatever the work comes to, if it fails, it fails ordinarily. -/
def Work.Ordinary {α : Type} : Work (Except Error α) → Prop
  | done r => FailsOrdinarily r
  | read next => ∀ context, (next context).Ordinary
  | write _ _ next => ∀ fault, (next fault).Ordinary
  | gather f next => f.Ordinary ∧ ∀ r, FailsOrdinarily r → (next r).Ordinary

namespace Work

/-- A call has ended ordinarily. -/
theorem Ordinary.ended {f : Fanout} {next : Except Error (List Value) → Work (Except Error Value)}
    (h : (gather f next).Ordinary) (place : Nat) {r : Except Error Value} (hr : FailsOrdinarily r) :
    (gather (f.setStage place (.ended r)) next).Ordinary :=
  ⟨Fanout.ordinary_setStage h.1 place fun _ heq => Stage.ended.inj heq ▸ hr, h.2⟩

/-- A turn leaves the work with ordinary failures only. -/
theorem ordinary_turn [Schema.Validator] {work work' : Work (Except Error Value)}
    (h : work.Ordinary)
    {course busy : Nat} {w : World} {timers : List Timer} {t : Turn Advance}
    (ht : work.turn course busy w timers = some t) (hwork : t.next = .on work') :
    work'.Ordinary := by
  cases turns_of_turn ht with
  | reads next => exact Advance.on.inj hwork ▸ h _
  | writes _ _ _ => exact Advance.on.inj hwork ▸ h _
  | finishes next hn => exact Advance.on.inj hwork ▸ h.2 _ (Fanout.ordinary_of_finish h.1 hn)
  | collects next _ => exact Advance.on.inj hwork ▸ ⟨Fanout.ordinary_collect h.1 _, h.2⟩
  | refuses next _ hcheck =>
    refine Advance.on.inj hwork ▸ h.ended _ fun e he => ?_
    obtain rfl := Except.error.inj he
    exact Tool.check_ordinary hcheck
  | returns next _ _ _ hresult =>
    exact Advance.on.inj hwork ▸ h.ended _ fun e he => Outcome.result_ordinary (he ▸ hresult)
  | concludes next _ hresult =>
    exact Advance.on.inj hwork ▸ h.ended _ fun e he => Outcome.result_ordinary (he ▸ hresult)
  | begins next _ _ _ =>
    refine Advance.on.inj hwork ▸ ⟨Fanout.ordinary_setStage h.1 _ fun r hr => ?_, h.2⟩
    cases hr
  -- a panic ends the work, there is none left
  | upsets _ _ _ _ _ => cases hwork
  | panics _ _ _ => cases hwork

/-- Work that goes on with other work fails as the first or as the second. -/
theorem Ordinary.andThen {α β : Type} {w : Work (Except Error α)}
    {f : Except Error α → Work (Except Error β)} (h : w.Ordinary)
    (hf : ∀ r, FailsOrdinarily r → (f r).Ordinary) : (w.andThen f).Ordinary := by
  induction w with
  | done r => exact hf r h
  | read next ih => exact fun context => ih context (h context)
  | write path value next ih => exact fun fault => ih fault (h fault)
  | gather f next ih => exact ⟨h.1, fun r hr => ih r (h.2 r hr)⟩

end Work

/-! ## Actions -/

namespace Action

variable {α β : Type}

theorem ordinary_pure (a : α) : (pure a : Action α).run.Ordinary := fun _ he => nomatch he

/-- Two actions in a row fail as one of them does. -/
theorem ordinary_bind {x : Action α} {g : α → Action β} (hx : x.run.Ordinary)
    (hg : ∀ a, (g a).run.Ordinary) : (x >>= g).run.Ordinary := by
  refine Work.Ordinary.andThen hx ?_
  intro r hr
  cases r with
  | ok a => exact hg a
  | error e =>
    intro e' he'
    obtain rfl := Except.error.inj he'
    exact hr _ rfl

/-- A result that is passed on fails as it does. -/
theorem ordinary_bind_ofExcept {r : Except Error α} {g : α → Action β} (hr : FailsOrdinarily r)
    (hg : ∀ a, r = .ok a → (g a).run.Ordinary) :
    ((MonadExcept.ofExcept r : Action α) >>= g).run.Ordinary := by
  cases r with
  | ok a => exact hg a rfl
  | error e =>
    intro e' he'
    obtain rfl := Except.error.inj he'
    exact hr _ rfl

theorem ordinary_context : context.run.Ordinary := fun _ _ he => nomatch he

theorem ordinary_valueAt (path : String) : (valueAt path).run.Ordinary :=
  ordinary_bind ordinary_context fun _ => ordinary_pure _

/-- Writing to a path fails ordinarily. -/
theorem ordinary_put (path : String) (value : Value) : (put path value).run.Ordinary := by
  intro fault
  cases fault with
  | none => exact fun _ he => nomatch he
  | some fault =>
    intro e he
    obtain rfl := Except.error.inj he
    rfl

theorem ordinary_gather (width : Nat) (calls : List Call) : (gather width calls).run.Ordinary :=
  ⟨Fanout.ordinary_ofCalls width calls, fun _ hr => hr⟩

theorem ordinary_call (c : Call) : (call c).run.Ordinary :=
  ordinary_bind (ordinary_gather 1 [c]) fun _ => ordinary_pure _

theorem ordinary_conclude (target : String) (result : Value) :
    (conclude target result).run.Ordinary :=
  ordinary_bind (ordinary_put target result) fun _ => ordinary_pure _

/-- A sequence of actions fails ordinarily, if each of them does. -/
theorem ordinary_forEach {f : α → Action β} {as : List α} (h : ∀ a ∈ as, (f a).run.Ordinary) :
    (forEach f as).run.Ordinary := by
  induction as with
  | nil => exact ordinary_pure _
  | cons a as ih =>
    rw [List.forall_mem_cons] at h
    exact ordinary_bind h.1 fun b => ordinary_bind (ih h.2) fun bs => ordinary_pure _

end Action

/-! ## Tasks -/

open Wavefront.Action

/-- A reference that gives no array fails ordinarily. -/
theorem failsOrdinarily_itemsOf (node field : String) (reference context : Value) :
    FailsOrdinarily (itemsOf node field reference context) := by
  intro e he
  unfold itemsOf at he
  split at he
  · cases he
  · obtain rfl := Except.error.inj he
    rfl
  · obtain rfl := Except.error.inj he
    rfl

/-- Collecting results from the context fails ordinarily. -/
theorem Gathering.ordinary_collect (gathering : Gathering) : gathering.collect.run.Ordinary := by
  cases gathering with
  | list paths =>
    exact ordinary_bind (ordinary_forEach fun path _ => ordinary_valueAt path) fun _ => ordinary_pure _
  | map entries =>
    refine ordinary_bind (ordinary_forEach ?_) fun _ => ordinary_pure _
    intro entry _
    exact ordinary_bind (ordinary_valueAt entry.2) fun _ => ordinary_pure _

/-- However the branch is expanded, and whatever its works come to, it fails ordinarily. -/
structure Branch.Ordinary (b : Branch) (s : Settings) : Prop where
  fails : ∀ context, FailsOrdinarily (b.works s context)
  works : ∀ context works, b.works s context = .ok works → ∀ w ∈ works, w.run.Ordinary

/-- A branch whose expansion and whose nodes fail ordinarily does so itself. -/
theorem Branch.Ordinary.take {b : Branch} {s : Settings} (h : b.Ordinary s) (context : Value) :
    (b.take s context).run.Ordinary := by
  refine ordinary_bind_ofExcept (h.fails context) ?_
  intro works hworks
  refine ordinary_bind (ordinary_forEach (h.works context works hworks)) fun _ => ?_
  refine ordinary_bind (ordinary_forEach ?_) fun _ => ordinary_pure _
  intro output _
  exact ordinary_bind (ordinary_valueAt output.2) fun _ => ordinary_pure _

/-- As a node of whatever id, the task fails ordinarily. -/
def Task.Ordinary (s : Settings) (t : Task) : Prop := ∀ node, (t.work s node).run.Ordinary

namespace Task

variable {s : Settings}

/-- The three steps that loops and maps have in common fail ordinarily. -/
theorem ordinary_fanOut {node field target : String} {reference : Value} {width : Nat}
    {call : Value → Value → Call} : (do
      let context ← Action.context
      let items ← MonadExcept.ofExcept (itemsOf node field reference context)
      let results ← Action.gather width (items.map (call context))
      Action.conclude target (.array results) : Action Value).run.Ordinary := by
  refine ordinary_bind ordinary_context fun context => ?_
  refine ordinary_bind_ofExcept (failsOrdinarily_itemsOf node field reference context) fun items _ => ?_
  exact ordinary_bind (ordinary_gather width _) fun results => ordinary_conclude target _

/-- A tool call fails ordinarily. -/
theorem ordinary_toolCall (tool : Tool) (input : Value) (target : String)
    (binding : Option (String × Value)) : (toolCall tool input target binding).Ordinary s := by
  intro node
  exact ordinary_bind ordinary_context fun context =>
    ordinary_bind (ordinary_call _) fun result => ordinary_conclude target result

theorem ordinary_aggregate (gathering : Gathering) (target : String) :
    (aggregate gathering target).Ordinary s := fun _ =>
  ordinary_bind gathering.ordinary_collect fun result => ordinary_conclude target result

theorem ordinary_dynamicLoop (step : LoopStep) (tool : Tool) : (dynamicLoop step tool).Ordinary s :=
  fun _ => ordinary_fanOut

theorem ordinary_reduce (step : ReduceStep) (tool : Tool) : (reduce step tool).Ordinary s :=
  fun _ => ordinary_fanOut

/-- A conditional fails as the branch that it chooses. -/
theorem ordinary_conditional (shell : Shell) (condition : String) {yes no : Branch}
    (hyes : yes.Ordinary s) (hno : no.Ordinary s) :
    (conditional shell condition yes no).Ordinary s := by
  intro node
  refine ordinary_bind ordinary_context fun context => ?_
  cases Condition.evaluate context condition with
  -- the condition itself can fail, before there is a branch
  | error fault =>
    intro e he
    obtain rfl := Except.error.inj he
    rfl
  | ok holds =>
    refine ordinary_bind ?_ fun outputs => ordinary_conclude _ _
    cases holds with
    | true => exact hyes.take context
    | false => exact hno.take context

end Task

/-! ## Expansions -/

/-- What always succeeds fails ordinarily. -/
theorem failsOrdinarily_of_exists_ok {α : Type} {x : Except Error α} (h : ∃ a, x = .ok a) :
    FailsOrdinarily x := by
  obtain ⟨a, rfl⟩ := h
  exact fun _ he => nomatch he

/-- A graph that is refused is refused for its ids. -/
theorem Graph.failsOrdinarily_ofNodes (nodes : List Node) : FailsOrdinarily (ofNodes nodes) := by
  intro e he
  unfold ofNodes at he
  split at he
  · obtain rfl := Except.error.inj he
    rfl
  · cases he

/-- A graph without an order is refused for its cycle. -/
theorem Graph.failsOrdinarily_order (g : Graph) : FailsOrdinarily g.order := by
  intro e he
  unfold order at he
  split at he
  · cases he
  · obtain rfl := Except.error.inj he
    rfl

/-- A branch of steps fails ordinarily if the steps are expanded without an error, and to nodes that
fail ordinarily. -/
theorem Branch.ordinary_ofSteps {s : Settings} {steps : List Step}
    {expand : Value → Except Error Expansion} (hexpand : ∀ context, ∃ e, expand context = .ok e)
    (hdrafts : ∀ context e, expand context = .ok e → ∀ d ∈ e.drafts, d.node.task.Ordinary s) :
    (ofSteps steps expand).Ordinary s where
  fails context e he := by
    -- a branch fails where its expansion, its graph or its order fails, one after the other
    rcases bind_eq_error_iff.1 he with he | ⟨expansion, -, he⟩
    · exact failsOrdinarily_of_exists_ok (hexpand context) e he
    rcases bind_eq_error_iff.1 he with he | ⟨g, -, he⟩
    · exact Graph.failsOrdinarily_ofNodes _ e he
    rcases bind_eq_error_iff.1 he with he | ⟨ids, -, he⟩
    · exact g.failsOrdinarily_order e he
    · cases he
  works context works hworks w hw := by
    obtain ⟨expansion, hexpansion, hworks⟩ := bind_eq_ok_iff.1 hworks
    obtain ⟨g, hg, hworks⟩ := bind_eq_ok_iff.1 hworks
    obtain ⟨ids, -, hworks⟩ := bind_eq_ok_iff.1 hworks
    obtain rfl := pure_eq_ok_iff.1 hworks
    -- and it is made of the nodes that its drafts have become
    obtain ⟨id, -, hnode⟩ := List.mem_filterMap.1 hw
    obtain ⟨n, hn, rfl⟩ := Option.map_eq_some_iff.1 hnode
    have hmem : n ∈ expansion.drafts.map expansion.finish := by
      rw [← Graph.nodes_of_ofNodes hg]
      exact List.mem_of_find?_eq_some hn
    obtain ⟨d, hd, rfl⟩ := List.mem_map.1 hmem
    exact hdrafts context expansion hexpansion d hd _

namespace Step

variable {tools : Registry} {s : Settings}

/-- Steps expand to ordinary nodes if each of them does. -/
theorem ordinary_expandAll {steps : List Step} {context : Value} {inherited : List String}
    (h : ∀ t ∈ steps, ∀ e, expand tools context inherited t = .ok e →
      ∀ d ∈ e.drafts, d.node.task.Ordinary s) {e : Expansion}
    (he : expandAll tools context inherited steps = .ok e) :
    ∀ d ∈ e.drafts, d.node.task.Ordinary s := by
  induction steps generalizing e with
  | nil =>
    rw [expandAll] at he
    obtain rfl := Except.ok.inj he
    exact fun _ hd => absurd hd List.not_mem_nil
  | cons t steps ih =>
    rw [List.forall_mem_cons] at h
    obtain ⟨first, rest, hfirst, hrest, rfl⟩ := expandAll_cons_eq_ok.1 he
    intro d hd
    rcases List.mem_append.1 hd with hd | hd
    · exact h.1 first hfirst d hd
    · exact ih h.2 hrest d hd

theorem ordinary_ofNode {n : Node} (h : n.task.Ordinary s) (declared : List String) :
    ∀ d ∈ (Expansion.ofNode n declared).drafts, d.node.task.Ordinary s :=
  List.forall_mem_singleton.2 h

theorem ordinary_named {e : Expansion} (h : ∀ d ∈ e.drafts, d.node.task.Ordinary s) (id : String) :
    ∀ d ∈ (e.named id).drafts, d.node.task.Ordinary s := by
  rwa [Expansion.drafts_named]

/-- A branch of equipped steps is ordinary, if each step expands to ordinary nodes: equipped steps
always expand. -/
theorem ordinary_branch {steps : List Step} (hequipped : ∀ t ∈ nestedList steps, t.Equipped tools)
    (h : ∀ t ∈ steps, ∀ (context : Value) (inherited : List String) (e : Expansion),
      expand tools context inherited t = .ok e → ∀ d ∈ e.drafts, d.node.task.Ordinary s) :
    (Branch.ofSteps steps fun context => expandAll tools context [] steps).Ordinary s :=
  Branch.ordinary_ofSteps (fun _ => (exists_expandAll_iff steps []).2 hequipped)
    fun _ _ he => ordinary_expandAll (fun t ht e => h t ht _ _ e) he

/-- What a step is expanded to fails ordinarily. For a conditional it counts that the tools of its
branches were found: they will be found again, in whatever context. -/
theorem ordinary_expand (t : Step) (context : Value) (inherited : List String) {e : Expansion}
    (he : expand tools context inherited t = .ok e) :
    ∀ d ∈ e.drafts, d.node.task.Ordinary s := by
  -- a conditional's task holds the expansions of its branches, so the hypothesis is needed for all
  -- steps directly inside
  induction t using childrenInduction generalizing context inherited e with
  | h t ih =>
    have hequipped := (exists_expand_iff t inherited).1 ⟨e, he⟩
    cases t with
    | tool t =>
      rw [expand] at he
      obtain ⟨first, hfirst, he⟩ := bind_eq_ok_iff.1 he
      obtain ⟨tool, -, hfirst⟩ := bind_eq_ok_iff.1 hfirst
      obtain rfl := pure_eq_ok_iff.1 hfirst
      obtain rfl := pure_eq_ok_iff.1 he
      exact ordinary_named (ordinary_ofNode (Task.ordinary_toolCall _ _ _ _) _) _
    | final t =>
      rw [expand] at he
      obtain ⟨first, hfirst, he⟩ := bind_eq_ok_iff.1 he
      obtain ⟨tool, -, hfirst⟩ := bind_eq_ok_iff.1 hfirst
      obtain rfl := pure_eq_ok_iff.1 hfirst
      obtain rfl := pure_eq_ok_iff.1 he
      exact ordinary_named (ordinary_ofNode (Task.ordinary_toolCall _ _ _ _) _) _
    | reduce t =>
      rw [expand] at he
      obtain ⟨first, hfirst, he⟩ := bind_eq_ok_iff.1 he
      obtain rfl := pure_eq_ok_iff.1 he
      obtain ⟨tool, -, hfirst⟩ := bind_eq_ok_iff.1 hfirst
      obtain rfl := pure_eq_ok_iff.1 hfirst
      apply ordinary_named
      split
      · exact ordinary_ofNode (Task.ordinary_reduce _ _) _
      · exact ordinary_named (ordinary_ofNode (Task.ordinary_reduce _ _) _) _
    | loop t =>
      rw [expand] at he
      obtain ⟨first, hfirst, he⟩ := bind_eq_ok_iff.1 he
      obtain rfl := pure_eq_ok_iff.1 he
      obtain ⟨tool, -, hfirst⟩ := bind_eq_ok_iff.1 hfirst
      obtain rfl := pure_eq_ok_iff.1 hfirst
      apply ordinary_named
      apply ordinary_named
      split
      · -- the items are known
        intro d hd
        obtain ⟨n, hn, rfl⟩ := List.mem_map.1 hd
        rcases List.mem_append.1 hn with hn | hn
        · obtain ⟨item, -, rfl⟩ := List.mem_map.1 hn
          exact Task.ordinary_toolCall _ _ _ _
        · obtain rfl := List.mem_singleton.1 hn
          exact Task.ordinary_aggregate _ _
      · exact ordinary_ofNode (Task.ordinary_dynamicLoop _ _) _
    | parallel shell steps =>
      rw [expand] at he
      obtain ⟨inside, hinside, he⟩ := bind_eq_ok_iff.1 he
      obtain rfl := pure_eq_ok_iff.1 he
      have hdrafts := ordinary_expandAll (fun t ht e => ih t ht context _) hinside
      apply ordinary_named
      intro d hd
      rcases Shell.mem_drafts_expandParallel.1 hd with hd | ⟨output, -, rfl⟩
      · exact hdrafts d hd
      · exact Task.ordinary_aggregate _ _
    | conditional shell condition yes no =>
      -- no branch is expanded yet, but the tools of both have been found already
      rw [nested_eq, List.forall_mem_cons, flatMap_nested_conditional,
        List.forall_mem_append] at hequipped
      obtain ⟨-, hyes, hno⟩ := hequipped
      rw [expand] at he
      obtain ⟨first, hfirst, he⟩ := bind_eq_ok_iff.1 he
      obtain rfl := pure_eq_ok_iff.1 he
      obtain ⟨_, -, hfirst⟩ := bind_eq_ok_iff.1 hfirst
      obtain rfl := pure_eq_ok_iff.1 hfirst
      apply ordinary_named
      rw [Expansion.drafts_namedAll]
      refine ordinary_ofNode (Task.ordinary_conditional shell condition ?_ ?_) _
      · exact ordinary_branch hyes fun t ht context inherited e he =>
          ih t (List.mem_append_left no ht) context inherited he
      · exact ordinary_branch hno fun t ht context inherited e he =>
          ih t (List.mem_append_right yes ht) context inherited he

end Step

/-! ## Courses -/

/-- If the course fails by itself, it fails with the text of an ordinary error. -/
def Ending.Ordinary (ending : Ending) : Prop :=
  ∀ e, ending = .failed e → ∃ (node : String) (cause : Error),
    cause.Ordinary ∧ e = .nodeFailed node cause.message

/-- All attempts that are under way or still to come fail ordinarily, and so does the course. -/
def Course.Ordinary : Course → Prop
  | ended ending => ending.Ordinary
  | permit next => next.Ordinary
  | begin _ next => ∀ index, (next index).Ordinary
  | notify _ next => next.Ordinary
  | ask next => ∀ cancelled, (next cancelled).Ordinary
  | inspect next => ∀ context, (next context).Ordinary
  | attempt _ work next => work.Ordinary ∧ ∀ r, (∀ x, r = some x → FailsOrdinarily x) → (next r).Ordinary
  | settle _ _ next => next.Ordinary
  | pause _ next => next.Ordinary
  | paused next => next.Ordinary

namespace Course

theorem ordinary_passed : (ended .passed).Ordinary := fun _ he => nomatch he

theorem ordinary_abort (message : String) : (abort message).Ordinary := fun _ he => nomatch he

/-- A node that fails with an ordinary cause fails ordinarily. -/
theorem ordinary_fail (n : Node) (index retry : Nat) {cause : Error} (h : cause.Ordinary) :
    (fail n index retry cause.message).Ordinary := by
  intro e he
  obtain rfl := Ending.failed.inj he
  exact ⟨n.id, cause, h, rfl⟩

variable [Schema.Validator]

/-- The course of a node with an ordinary task is ordinary, over all its attempts. -/
theorem ordinary_ofNode {s : Settings} {n : Node} (h : n.task.Ordinary s) : (ofNode s n).Ordinary := by
  intro index
  refine attempts_induction_of_results (P := Ordinary) (Q := fun _ => Ordinary) ?_ ?_ ?_ ?_ ?_ ?_ _ _
  · exact fun _ => ordinary_passed
  · exact fun _ _ hnext => hnext
  · exact fun _ hnext => hnext
  · exact fun _ hnext => hnext
  · exact fun retry _ e next he hnext =>
      hnext (ordinary_fail n index retry (requireContext_ordinary he))
  · intro retry _ next _ hok herror hnone
    refine ⟨h n.id, ?_⟩
    -- an attempt ends without a result in time, with an error or with an output
    rintro (_ | (e | output)) hr
    · exact hnone (ordinary_fail n index retry rfl)
    · exact herror e (ordinary_fail n index retry (hr _ rfl e rfl))
    · rw [hok output]
      exact ordinary_passed

/-- A turn within a time limit keeps an attempt ordinary. -/
theorem ordinary_limit_turn {limit : Limit} {work : Work (Except Error Value)}
    {next : Option (Except Error Value) → Course} (h : (attempt limit work next).Ordinary)
    {course busy : Nat} {w : World} {timers : List Timer} {t : Turn Course}
    (ht : limit.turn work next course busy w timers = some t) : t.next.Ordinary := by
  cases Limit.does_of_turn ht with
  | ends r =>
    refine h.2 (some r) fun x hx => ?_
    obtain rfl := Option.some.inj hx
    exact h.1
  | works hturn => exact ⟨Work.ordinary_turn h.1 hturn rfl, h.2⟩
  | panics _ => exact ordinary_abort _
  | limits _ _ => exact h
  | stops _ => exact h.2 none fun _ hx => nomatch hx

/-- A turn leaves the course with ordinary failures only. -/
theorem ordinary_turn {c : Course} (h : c.Ordinary) {observer : Observer} {course busy : Nat}
    {w : World} {timers : List Timer} {t : Turn Course}
    (ht : c.turn observer course busy w timers = some t) : t.next.Ordinary := by
  cases turns_of_turn ht with
  | attempts _ => exact ordinary_limit_turn h ht
  | begin entry next => exact h _
  | tells notice next => exact h
  | upsets next _ => exact ordinary_abort _
  | asks next => exact h _
  | inspects next => exact h _
  | settles index change next => exact h
  | skips next => exact h
  | pauses ms due next => exact h

omit [Schema.Validator] in
/-- Waking keeps a course ordinary. -/
theorem ordinary_wake {c : Course} (h : c.Ordinary) (purpose : Purpose) :
    (c.wake purpose).Ordinary := by
  unfold wake
  split
  · exact h
  · exact h
  · exact ⟨⟨Fanout.ordinary_wake h.1.1 _, h.1.2⟩, h.2⟩
  · exact h

end Course

/-! ## Executions -/

/-- The courses of the wave fail ordinarily, also those that have ended. -/
structure Wave.Ordinary (w : Wave) : Prop where
  courses : ∀ (i : Nat) (c : Course), w.courses[i]? = some c → c.Ordinary
  endings : ∀ p ∈ w.endings, p.2.Ordinary

namespace Wave

variable [Schema.Validator]

/-- A wave of ordinary nodes starts ordinary. -/
theorem ordinary_ofNodes {s : Settings} {nodes : List Node}
    (h : ∀ n ∈ nodes, n.task.Ordinary s) (world : World) : (ofNodes s world nodes).Ordinary where
  courses i c hc := by
    rw [ofNodes, List.getElem?_map] at hc
    obtain ⟨n, hn, rfl⟩ := Option.map_eq_some_iff.1 hc
    exact Course.ordinary_ofNode (h n (List.mem_of_getElem? hn))
  endings p hp := absurd hp List.not_mem_nil

/-- A move keeps a wave ordinary. -/
theorem ordinary_move {observer : Observer} {v w : Wave} (h : w.Ordinary)
    (hmove : Move observer w v) : v.Ordinary where
  courses i d hd := by
    obtain ⟨c, hc, hcourse⟩ := exists_courseMove hmove hd
    have hordinary := h.courses i c hc
    cases hcourse with
    | same => exact hordinary
    | enters hpermit =>
      subst hpermit
      exact hordinary
    | wakes purpose => exact Course.ordinary_wake hordinary purpose
    | acts hturn => exact Course.ordinary_turn hordinary hturn
  endings := by
    rcases hmove.endings_or with heq | ⟨i, ending, hc, heq⟩
    · exact heq ▸ h.endings
    · rw [heq]
      intro p hp
      rcases List.mem_append.1 hp with hp | hp
      · exact h.endings p hp
      · obtain rfl := List.mem_singleton.1 hp
        exact h.courses i _ hc

end Wave

/-- If the tasks of a graph fail ordinarily, then so do all courses of an execution of the graph, at
every point. -/
theorem Graph.Reaches.ordinary [Schema.Validator] {g : Graph} {context : Value} {mode : Mode}
    {o : Options}
    {e : Execution} (h : g.Reaches context mode o e)
    (hg : ∀ n ∈ g.nodes, n.task.Ordinary o.settings) : ∀ w ∈ e.allWaves, w.Ordinary := by
  induction h with
  | refl =>
    intro w hw
    obtain rfl := List.mem_singleton.1 hw
    exact Wave.ordinary_ofNodes (fun _ hn => absurd hn List.not_mem_nil) _
  | @tail e e' hreach hstep ih =>
    cases hstep with
    | move hmove =>
      intro w hw
      rcases List.mem_append.1 hw with hw | hw
      · exact ih w (List.mem_append_left _ hw)
      · obtain rfl := List.mem_singleton.1 hw
        exact Wave.ordinary_move (ih e.wave (List.mem_append_right _ (List.mem_singleton_self _))) hmove
    | @next nodes waves hover hwaves =>
      intro w hw
      rcases List.mem_append.1 hw with hw | hw
      · exact ih w hw
      · obtain rfl := List.mem_singleton.1 hw
        refine Wave.ordinary_ofNodes ?_ _
        intro n hn
        -- the next wave is a wave of the graph, so its nodes are the graph's
        rw [← (traced hreach).wave_succ hwaves] at hn
        exact hg n (mem_wave.1 hn).1

/-- No attempt that is under way has come to a tool that is not known, and no node has failed with
an error of that kind or with the text of one. -/
structure Execution.FindsTools (e : Execution) : Prop where
  attempts : ∀ c ∈ e.wave.courses, ∀ limit tool step next,
    c ≠ .attempt limit (.done (.error (.unknownTool tool step))) next
  outcomes : ∀ p ∈ e.outcomes, ∀ tool step, p.2 ≠ .failed (.unknownTool tool step) ∧
    ∀ node, p.2 ≠ .failed (.nodeFailed node (Error.unknownTool tool step).message)

/-- Where all tasks fail ordinarily, no node ever fails for want of a tool. -/
theorem Graph.Reaches.findsTools [Schema.Validator] {g : Graph} {context : Value} {mode : Mode}
    {o : Options}
    {e : Execution} (h : g.Reaches context mode o e)
    (hg : ∀ n ∈ g.nodes, n.task.Ordinary o.settings) : e.FindsTools := by
  have hwaves := h.ordinary hg
  constructor
  case attempts =>
    rintro c hc limit tool step next rfl
    obtain ⟨i, hi⟩ := List.mem_iff_getElem?.1 hc
    have hwave := hwaves e.wave (List.mem_append_right _ (List.mem_singleton_self _))
    cases (hwave.courses i _ hi).1 _ rfl
  case outcomes =>
    intro p hp tool step
    obtain ⟨w, hw, hpw⟩ := List.mem_flatMap.1 hp
    obtain ⟨q, hq, rfl⟩ := List.mem_map.1 hpw
    have hending := (hwaves w hw).endings q hq
    refine ⟨?_, ?_⟩
    · intro heq
      obtain ⟨_, _, -, hfailed⟩ := hending _ heq
      cases hfailed
    · intro node heq
      obtain ⟨_, cause, hcause, hfailed⟩ := hending _ heq
      exact hcause.message_ne tool step (Error.nodeFailed.inj hfailed).2.symm

/-! ## Plans -/

namespace Plan

variable {p : Plan} {tools : Registry} {context : Value} {g : Graph}

/-- Every node of the graph is one that the plan is expanded to, perhaps when some more tools have
been registered. -/
def Grows (p : Plan) (tools : Registry) (context : Value) (g : Graph) : Prop :=
  ∀ n ∈ g.nodes, ∃ more h, p.expand (tools.registerAll more) context = .ok h ∧ n ∈ h.nodes

theorem grows_self (h : p.expand tools context = .ok g) : p.Grows tools context g :=
  fun _ hn => ⟨[], g, h, hn⟩

/-- The nodes that a plan is expanded to fail ordinarily. -/
theorem ordinary_of_expand (h : p.expand tools context = .ok g) (s : Settings) :
    ∀ n ∈ g.nodes, n.task.Ordinary s := by
  obtain ⟨e, he, hg⟩ := bind_eq_ok_iff.1 h
  intro n hn
  rw [Graph.nodes_of_ofNodes hg] at hn
  obtain ⟨d, hd, rfl⟩ := List.mem_map.1 hn
  exact Step.ordinary_expandAll (fun t _ e => Step.ordinary_expand t context [] (e := e)) he d hd

/-- The steps of both branches of a conditional are steps of the plan. -/
theorem nestedList_branch_subset {shell : Shell} {condition : String} {yes no : List Step}
    (h : .conditional shell condition yes no ∈ p.allSteps) (holds : Bool) :
    Step.nestedList (if holds then yes else no) ⊆ p.allSteps := by
  have hinside := (Step.nested_sublist_nestedList h).subset
  rw [Step.nested] at hinside
  intro t ht
  apply hinside
  apply List.mem_cons_of_mem
  cases holds with
  | true => exact List.mem_append_left _ ht
  | false => exact List.mem_append_right _ ht

/-- Take a plan whose steps have been expanded to a graph, so that all its tools were found. Then
the branches of its conditionals, at any depth, are never expanded to a tool that is not known, in
whatever context and however many tools have been registered since; and no node of an execution
fails for want of a tool, at any point and in any order of turns, even if some nodes know more tools
than others. -/
theorem expand_finds_tools [Schema.Validator] (h : p.expand tools context = .ok g) :
    (∀ shell condition yes no, .conditional shell condition yes no ∈ p.allSteps →
      ∀ (holds : Bool) (more : List Tool) (later : Value) (tool step : String),
        (Step.expandAll (tools.registerAll more) later [] (if holds then yes else no)
          >>= Expansion.graph) ≠ .error (.unknownTool tool step)) ∧
    ∀ g', p.Grows tools context g' → ∀ (start : Value) (mode : Mode) (o : Options) (e : Execution),
      g'.Reaches start mode o e → e.FindsTools := by
  constructor
  · intro shell condition yes no hmem holds more later tool step herror
    -- the expansion has looked at the branches too, and adding tools takes none away
    have hequipped := (equipped_of_expand h).mono (tools.extends_registerAll more)
    have hexpand : ∃ e, Step.expandAll (tools.registerAll more) later [] (if holds then yes else no)
        = .ok e :=
      (Step.exists_expandAll_iff _ []).2 fun t ht => hequipped t (nestedList_branch_subset hmem holds ht)
    obtain ⟨e, he⟩ := hexpand
    rw [he] at herror
    cases Graph.failsOrdinarily_ofNodes _ _ herror
  · intro g' hgrows start mode o e hreaches
    refine hreaches.findsTools ?_
    intro n hn
    obtain ⟨more, g'', hg'', hn⟩ := hgrows n hn
    exact ordinary_of_expand hg'' o.settings n hn

/-- A conditional in a branch of another one. -/
def choiceInChoice : Plan where
  version := "1"
  steps := [
    .conditional { id := "c" } "true" [
      .conditional { id := "d" } "more" [.tool { id := "t", tool := "echo" }] []] []]

/-- A conditional in a branch of a conditional finds its tools. -/
theorem expand_finds_tools_choiceInChoice :
    ∃ g, choiceInChoice.expand .standard (.object []) = .ok g ∧
      (∀ more later tool step,
        (Step.expandAll (Registry.standard.registerAll more) later []
          [.tool { id := "t", tool := "echo" }] >>= Expansion.graph) ≠ .error (.unknownTool tool step)) ∧
      ∀ e, g.Reaches (.object [("more", .bool true)]) .dag { planId := "p" } e → e.FindsTools := by
  obtain ⟨g, hg⟩ := exists_eq_ok_of_isOk (x := choiceInChoice.expand .standard (.object [])) (by cbv)
  obtain ⟨hbranches, hruns⟩ := expand_finds_tools hg
  have hinner : .conditional { id := "d" } "more" [.tool { id := "t", tool := "echo" }] []
      ∈ choiceInChoice.allSteps := by
    simp [choiceInChoice, allSteps, Step.nestedList, Step.nested]
  exact ⟨g, hg, hbranches _ _ _ _ hinner true, hruns g (grows_self hg) _ _ _⟩

end Plan

end Wavefront
