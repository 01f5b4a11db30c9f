/-
Which branch the calls of a conditional are of.

In one attempt a conditional decides once, in the first context that the attempt reads, and all
calls of the attempt are made by steps of the branch that it chose, at whatever depth. The next
attempt decides anew. So over all attempts the calls are of one branch as long as the condition
comes out the same whenever an attempt begins, and a step that writes what the condition reads,
before another one fails, makes the node go over to the other branch.
-/
import Wavefront.Proofs.Run.Attempts
import Wavefront.Schema.Reader

set_option autoImplicit false

namespace Wavefront

/-! ## Calls of steps -/

/-- The call is one that a node of the step makes by itself. The step is expanded in one of these
contexts, and the node begins in one of them. -/
def Step.Makes (tools : Registry) (seen : List Value) (s : Step) (call : Call) : Prop :=
  ∃ c ∈ seen, ∃ nodes, s.block tools c = .ok nodes ∧
    ∃ n ∈ nodes, ∃ d ∈ seen, call ∈ n.task.calls d

/-- The call is made by one of the steps or by a step inside them. -/
def Step.MakesAmong (tools : Registry) (seen : List Value) (steps : List Step) (call : Call) : Prop :=
  ∃ t ∈ nestedList steps, t.Makes tools seen call

/-- Having seen more contexts only leaves more of them to make the call in. -/
theorem Step.Makes.mono {tools : Registry} {seen more : List Value} {s : Step} {call : Call}
    (h : s.Makes tools seen call) (hsubset : seen ⊆ more) : s.Makes tools more call := by
  obtain ⟨c, hc, nodes, hnodes, n, hn, d, hd, hcall⟩ := h
  exact ⟨c, hsubset hc, nodes, hnodes, n, hn, d, hsubset hd, hcall⟩

/-- Nested steps that make a call still make it when more contexts were seen. -/
theorem Step.MakesAmong.mono {tools : Registry} {seen more : List Value} {steps : List Step}
    {call : Call} (h : MakesAmong tools seen steps call) (hsubset : seen ⊆ more) :
    MakesAmong tools more steps call := by
  obtain ⟨t, ht, hmakes⟩ := h
  exact ⟨t, ht, hmakes.mono hsubset⟩

/-- The tool of a call is the one that its step names. -/
theorem Step.Makes.require_eq {tools : Registry} {seen : List Value} {s : ToolStep} {call : Call}
    (h : (tool s).Makes tools seen call) : tools.require s.tool s.id = .ok call.tool := by
  obtain ⟨c, -, nodes, hnodes, n, hn, d, -, hcall⟩ := h
  obtain ⟨tool, htool, hnodes⟩ := bind_eq_ok_iff.1 hnodes
  obtain rfl := pure_eq_ok_iff.1 hnodes
  obtain rfl := List.mem_singleton.1 hn
  obtain rfl := List.mem_singleton.1 hcall
  exact htool

variable {tools : Registry} {s : Settings}

namespace Site

/-- What a node carries out is expanded and begun in contexts at its turns, unless it is the
node. -/
theorem CarriesOut.subset {A Z : Site tools} {cs ds : List Value} {via : List (Site tools)}
    (h : CarriesOut s A cs via Z ds) :
    ds ⊆ cs ∧ (Z.context = A.context ∨ Z.context ∈ cs) := by
  induction h with
  | itself A cs => exact ⟨List.Subset.refl cs, .inl rfl⟩
  | @branch A B Z _ _ _ _ _ _ before after ds _ _ _ _ _ _ _ _ _ _ ih =>
    have hafter : after ⊆ B.context :: (before ++ after) := fun c hc =>
      List.mem_cons_of_mem _ (List.mem_append_right before hc)
    refine ⟨List.Subset.trans ih.1 hafter, .inr ?_⟩
    rcases ih.2 with heq | hmem
    · exact heq ▸ List.mem_cons_self
    · exact hafter hmem

/-- The calls that a node of some steps comes to are made by these steps or by steps inside them. -/
theorem makesAmong_of_calls (A : Site tools) {cs : List Value} {f : Fanout}
    (h : (A.node.task.work s A.node.id).Calls cs f) {call : Call} (hcall : call ∈ f.calls) :
    Step.MakesAmong tools (A.context :: cs) A.steps call := by
  obtain ⟨via, Z, d, ds, hcarries, hleaves⟩ := A.exists_calls h
  obtain ⟨S, hS, -, ⟨nodes, hnodes, n, hn, -, htask⟩, -⟩ := Z.exists_maker
  obtain ⟨hsubset, hcontext⟩ := hcarries.subset
  -- a nested step, a context it was expanded in, and the node that draft became
  refine ⟨S.step, ?_, Z.context, ?_, nodes, hnodes, n, hn, d, ?_, ?_⟩
  · exact hcarries.nestedList_sublist.subset (Z.sublist_stations.subset (List.mem_map_of_mem hS))
  · rcases hcontext with heq | hmem
    · exact heq ▸ List.mem_cons_self
    · exact List.mem_cons_of_mem _ hmem
  · exact List.mem_cons_of_mem _ (hsubset List.mem_cons_self)
  · rw [htask]
    exact List.mem_of_mem_drop (hleaves ▸ hcall)

end Site

/-- The calls of a conditional are made by steps of the branch that it chooses in the context at its
first turn. -/
theorem Task.makesAmong_of_calls {shell : Shell} {condition : String} {yes no : List Step}
    {node : String} {d : Value} {rest : List Value} {f : Fanout}
    (h : ((conditional shell condition (.inside tools yes) (.inside tools no)).work s node).Calls
      (d :: rest) f) {call : Call} (hcall : call ∈ f.calls) :
    ∃ holds, Condition.evaluate d condition = .ok holds ∧
      Step.MakesAmong tools (d :: rest) (if holds then yes else no) call := by
  obtain ⟨_, _, holds, heq, hholds, htake⟩ := calls_conditional h
  obtain ⟨rfl, rfl⟩ := List.cons.inj heq
  refine ⟨holds, hholds, ?_⟩
  -- both branches are steps to expand, so the one taken is `Branch.inside` of an `if`
  rw [← apply_ite (Branch.inside tools)] at htake
  obtain ⟨works, hworks, earlier, work, later, rfl, before, after, rfl, -, hcalls⟩ :=
    calls_of_take htake
  obtain ⟨B, -, hsteps, rfl, rfl, -⟩ := Site.exists_sites_of_works hworks
  rw [← hsteps]
  refine (B.makesAmong_of_calls hcalls hcall).mono ?_
  exact List.cons_subset_cons _ (List.subset_append_right before after)

/-! ## One branch in an attempt -/

/-- The condition comes out like this in the context that the attempt reads first. -/
def Attempt.Decides (condition : String) (a : Attempt) (holds : Bool) : Prop :=
  a.contexts.head?.map (Condition.evaluate · condition) = some (.ok holds)

theorem Attempt.Decides.unique {condition : String} {a : Attempt} {b b' : Bool}
    (h : a.Decides condition b) (h' : a.Decides condition b') : b = b' :=
  Except.ok.inj (Option.some.inj (h.symm.trans h'))

namespace Course

/-- **One branch in an attempt.** Whatever the node of a conditional goes through, with any retries,
tools and hosts and whatever else happens between its turns: the calls of an attempt are all made by
steps of one branch, the one that the condition chooses in the context that the attempt reads first.
If the condition comes out the same for all attempts that make calls, the calls of all attempts are
of one branch. -/
theorem conditional_calls_by_attempt [Schema.Validator] (observer : Observer) (n : Node)
    {shell : Shell}
    {condition : String} {yes no : List Step}
    (htask : n.task = .conditional shell condition (.inside tools yes) (.inside tools no))
    {history : List Attempt} {c : Course} (h : (ofNode s n).Undergoes observer history c) :
    (∀ a ∈ history, a.calls ≠ [] → ∃ holds, a.Decides condition holds ∧
      ∀ call ∈ a.calls, Step.MakesAmong tools a.contexts (if holds then yes else no) call) ∧
    ∀ holds, (∀ a ∈ history, a.calls ≠ [] → a.Decides condition holds) →
      ∀ a ∈ history, ∀ call ∈ a.calls,
        Step.MakesAmong tools a.contexts (if holds then yes else no) call := by
  obtain ⟨first, hfirst⟩ : ∃ first, (n.task.work s n.id).run = .read first := by
    rw [htask]
    exact ⟨_, rfl⟩
  -- one attempt at a time: it reads its first context before anything else, and there it decides
  have hcall : ∀ a ∈ history, ∀ call ∈ a.calls, ∃ holds, a.Decides condition holds ∧
      Step.MakesAmong tools a.contexts (if holds then yes else no) call := by
    intro a ha call hcall
    obtain ⟨d, rest, f, hhead, hsubset, hcalls, hmem⟩ := h.reaches hfirst a ha call hcall
    rw [htask] at hcalls
    obtain ⟨holds, hholds, hmakes⟩ := Task.makesAmong_of_calls hcalls hmem
    refine ⟨holds, ?_, hmakes.mono hsubset⟩
    rw [Attempt.Decides, hhead, Option.map_some, hholds]
  -- two calls of one attempt cannot be of different branches: it has only one first context
  have hone : ∀ holds, ∀ a ∈ history, a.Decides condition holds → ∀ call ∈ a.calls,
      Step.MakesAmong tools a.contexts (if holds then yes else no) call := by
    intro holds a ha hdecides call hmem
    obtain ⟨b, hb, hmakes⟩ := hcall a ha call hmem
    rwa [hdecides.unique hb]
  refine ⟨fun a ha hne => ?_, fun holds hsame a ha call hmem => ?_⟩
  · obtain ⟨call, hmem⟩ := List.exists_mem_of_ne_nil _ hne
    obtain ⟨holds, hdecides, -⟩ := hcall a ha call hmem
    exact ⟨holds, hdecides, hone holds a ha hdecides⟩
  · exact hone holds a ha (hsame a ha (List.ne_nil_of_mem hmem)) call hmem

end Course

/-! ### A branch that sways the condition -/

namespace Plan

/-- A branch that writes something and then fails. -/
def swayingSteps : List Step := [
  .tool { id := "a", tool := "echo", input := .bool true, output := some "done" },
  .tool { id := "b", tool := "fail", dependsOn := ["a"] }]

def countingSteps : List Step := [.tool { id := "d", tool := "count" }]

/-- A conditional between the two branches. -/
def swaying (condition : String) : Plan where
  version := "1"
  steps := [.conditional { id := "c" } condition swayingSteps countingSteps]

/-- The node of the conditional. -/
def swayingNode (condition : String) : Node where
  id := "c"
  deps := []
  stepId := some "c"
  task := .conditional { id := "c" } condition (.inside .standard swayingSteps)
    (.inside .standard countingSteps)

/-- A run with one retry that is made at once. -/
def retryOnce : Options where
  planId := "p"
  settings := { maxRetries := 1, retryBaseDelayMs := 0 }

variable [Schema.Validator]

/-- What the node goes through by itself, to its end. -/
def swayingRun (condition : String) : Solo :=
  Solo.steps .silent 60
    { course := .ofNode retryOnce.settings (swayingNode condition)
      world := retryOnce.world (.object []) .dag }

/-- The run of the swaying node, as a history of two attempts and the course behind it. -/
theorem undergoes_swaying (condition : String) :
    (Course.ofNode retryOnce.settings (swayingNode condition)).Undergoes .silent
      (swayingRun condition).history (swayingRun condition).course :=
  Solo.undergoes_steps 60 .begins

end Plan

open Plan in
set_option maxRecDepth 30000 in
/-- Where nothing is written that the condition reads, both attempts take the same branch; where the
branch makes the condition fail, each attempt keeps to the branch that it chose. -/
theorem Course.conditional_calls_by_attempt_swaying :
    ((swayingRun "!done").history.length = 2 ∧ ∀ a ∈ (swayingRun "!done").history,
      ∃ holds, a.Decides "!done" holds ∧ ∀ call ∈ a.calls, Step.MakesAmong .standard a.contexts
        (if holds then swayingSteps else countingSteps) call) ∧
    (swayingRun "true").history.length = 2 ∧ ∀ a ∈ (swayingRun "true").history,
      ∀ call ∈ a.calls, Step.MakesAmong .standard a.contexts swayingSteps call := by
  have hcalls : (swayingRun "!done").history.map (fun a => a.calls.isEmpty) = [false, false] := by cbv
  have hdecides : (swayingRun "true").history.map
      (fun a => a.contexts.head?.map (Condition.evaluate · "true"))
      = [some (.ok true), some (.ok true)] := by cbv
  have hsways := conditional_calls_by_attempt .silent _ rfl (undergoes_swaying "!done")
  have hstays := conditional_calls_by_attempt .silent _ rfl (undergoes_swaying "true")
  refine ⟨⟨?_, fun a ha => hsways.1 a ha ?_⟩, ?_, hstays.2 true fun a ha _ => ?_⟩
  · exact (List.length_map _).symm.trans (congrArg List.length hcalls)
  · intro hnil
    have hmem := List.mem_map_of_mem (f := fun a : Attempt => a.calls.isEmpty) ha
    rw [hcalls, hnil] at hmem
    simp at hmem
  · exact (List.length_map _).symm.trans (congrArg List.length hdecides)
  · have hmem := List.mem_map_of_mem
      (f := fun a : Attempt => a.contexts.head?.map (Condition.evaluate · "true")) ha
    rw [hdecides] at hmem
    simpa [Attempt.Decides] using hmem

namespace Plan

/-- No call of the steps that sway is of the counting tool. -/
theorem id_ne_of_makesAmong_swayingSteps {seen : List Value} {call : Call}
    (h : Step.MakesAmong .standard seen swayingSteps call) : call.tool.id ≠ "count" := by
  have hecho : (Registry.standard.require "echo" "a").map Tool.id = .ok "echo" := by cbv
  have hfail : (Registry.standard.require "fail" "b").map Tool.id = .ok "fail" := by cbv
  obtain ⟨t, ht, hmakes⟩ := h
  have hsteps : Step.nestedList swayingSteps = swayingSteps := by cbv
  rw [hsteps, swayingSteps, List.mem_pair] at ht
  rcases ht with rfl | rfl
  · rw [hmakes.require_eq] at hecho
    rw [Except.ok.inj hecho]
    decide
  · rw [hmakes.require_eq] at hfail
    rw [Except.ok.inj hfail]
    decide

/-- All calls of the steps that count are of the counting tool. -/
theorem id_eq_of_makesAmong_countingSteps {seen : List Value} {call : Call}
    (h : Step.MakesAmong .standard seen countingSteps call) : call.tool.id = "count" := by
  have hcount : (Registry.standard.require "count" "d").map Tool.id = .ok "count" := by cbv
  obtain ⟨t, ht, hmakes⟩ := h
  have hsteps : Step.nestedList countingSteps = countingSteps := by cbv
  rw [hsteps, countingSteps, List.mem_singleton] at ht
  subst ht
  rw [hmakes.require_eq] at hcount
  exact Except.ok.inj hcount

set_option maxRecDepth 30000 in
/-- When the first attempt has written what the condition reads and failed, the second takes the
other branch, so the calls of the node are of both. -/
theorem swaying_calls_both_branches :
    ((swaying "!done").compile .standard (.object [])).map Graph.nodes = .ok [swayingNode "!done"] ∧
      (Course.ofNode retryOnce.settings (swayingNode "!done")).Undergoes .silent
        (swayingRun "!done").history (swayingRun "!done").course ∧
      ¬∃ holds : Bool, ∀ a ∈ (swayingRun "!done").history, ∀ call ∈ a.calls, ∃ seen,
        Step.MakesAmong .standard seen (if holds then swayingSteps else countingSteps) call := by
  refine ⟨by cbv, undergoes_swaying "!done", fun ⟨holds, hall⟩ => ?_⟩
  have htools : (swayingRun "!done").history.map (fun a => a.calls.map fun call => call.tool.id)
      = [["count"], ["echo", "fail"]] := by cbv
  have hcalled : ∀ ids ∈ [["count"], ["echo", "fail"]], ∀ id ∈ ids,
      ∃ a ∈ (swayingRun "!done").history, ∃ call ∈ a.calls, call.tool.id = id := by
    intro ids hids id hid
    rw [← htools] at hids
    obtain ⟨a, ha, rfl⟩ := List.mem_map.1 hids
    obtain ⟨call, hcall, rfl⟩ := List.mem_map.1 hid
    exact ⟨a, ha, call, hcall, rfl⟩
  cases holds with
  -- the second attempt counts, which no step of the first branch does
  | true =>
    obtain ⟨a, ha, call, hcall, hid⟩ := hcalled ["count"] (by simp) "count" (by simp)
    obtain ⟨seen, hmakes⟩ := hall a ha call hcall
    exact id_ne_of_makesAmong_swayingSteps hmakes hid
  -- the first attempt echoes and fails, where the other branch only counts
  | false =>
    obtain ⟨a, ha, call, hcall, hid⟩ := hcalled ["echo", "fail"] (by simp) "fail" (by simp)
    obtain ⟨seen, hmakes⟩ := hall a ha call hcall
    exact absurd (hid.symm.trans (id_eq_of_makesAmong_countingSteps hmakes)) (by decide)

end Plan

end Wavefront
