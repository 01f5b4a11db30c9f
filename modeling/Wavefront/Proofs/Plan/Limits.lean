/-
Limits of policies: no attempt without time, and no more retries than a node may have.

The check looks at what every step sets, wherever the step stands. It does not look at what the body
of a loop sets, and that comes before what the loop sets. So a node is within the limits unless it
executes the body of a loop, and then it is if the body is.
-/
import Wavefront.Proofs.Plan.Blocks
import Wavefront.Proofs.Plan.Reload

set_option autoImplicit false

namespace Wavefront

open Survey Document

/-- The time limit, if there is one, leaves some time, and the retries are not too many. -/
structure Policy.WithinLimits (p : Policy) : Prop where
  timeoutMs : ∀ t, p.timeoutMs = some t → 1 ≤ t.toNat
  maxRetries : ∀ n, p.maxRetries = some n → n.toNat ≤ Settings.maxRetriesLimit

namespace Policy

/-- What sets no retries is within the limits if something with the same time limit is. -/
theorem WithinLimits.of_timeoutMs {p : Policy} (h : p.WithinLimits) :
    WithinLimits { timeoutMs := p.timeoutMs } where
  timeoutMs := h.timeoutMs
  maxRetries _ hn := absurd hn.symm (Option.some_ne_none _)

theorem withinLimits_default : ({} : Policy).WithinLimits where
  timeoutMs _ ht := absurd ht.symm (Option.some_ne_none _)
  maxRetries _ hn := absurd hn.symm (Option.some_ne_none _)

/-- Behind settings that are within the limits only the ones in front count. -/
theorem withinLimits_orElse_iff {inner outer : Policy} (h : outer.WithinLimits) :
    (inner.orElse outer).WithinLimits ↔ inner.WithinLimits := by
  constructor
  · intro hboth
    refine ⟨fun t ht => hboth.timeoutMs t ?_, fun n hn => hboth.maxRetries n ?_⟩
    · rw [orElse, ht, Option.some_or]
    · rw [orElse, hn, Option.some_or]
  · intro hinner
    refine ⟨fun t ht => ?_, fun n hn => ?_⟩
    · rcases Option.or_eq_some_iff.1 ht with ht | ⟨-, ht⟩
      · exact hinner.timeoutMs t ht
      · exact h.timeoutMs t ht
    · rcases Option.or_eq_some_iff.1 hn with hn | ⟨-, hn⟩
      · exact hinner.maxRetries n hn
      · exact h.maxRetries n hn

end Policy

/-! ## Steps -/

namespace Survey

/-- A word that passes the check lies within its bounds. -/
theorem isWithin_ofWord {least : Nat} {most : Option Nat} {w : UInt64}
    (h : isWithin least most (.ofWord w) = true) :
    least ≤ w.toNat ∧ most.all (w.toNat ≤ ·) = true := by
  obtain ⟨u, hu, hbounds⟩ := exists_word_of_isWithin h
  obtain rfl : w = u := Option.some.inj ((word_ofWord w).symm.trans hu)
  exact hbounds

/-- What any step has to be like keeps its policy within the limits. -/
theorem HasCommon.withinLimits {s : Step} (h : HasCommon s.fields) : s.policy.WithinLimits := by
  have hwritten := s.carries_fields
  refine ⟨fun t ht => ?_, fun n hn => ?_⟩
  · have hfield := hwritten.timeoutMs
    rw [ht] at hfield
    exact (isWithin_ofWord (h.timeoutMs _ hfield)).1
  · have hfield := hwritten.maxRetries
    rw [hn] at hfield
    have hmost := (isWithin_ofWord (h.maxRetries _ hfield)).2
    rwa [Option.all_some, decide_eq_true_eq, UInt32.toNat_toUInt64] at hmost

end Survey

/-- All steps of a plan that passes the check are within the limits. -/
theorem Plan.withinLimits_of_check {p : Plan} (h : check p.toValue = .ok ()) {s : Step}
    (hs : s ∈ p.allSteps) : s.policy.WithinLimits := by
  obtain ⟨t, ht, hs⟩ := mem_allSteps.1 hs
  have haccepts := Step.accepts_of_mem_nested
    (flawless_survey_iff.1 (clean_of_check h).flawless t ht) hs
  rw [Step.toValue_eq] at haccepts
  obtain ⟨tag, htag⟩ := accepts_object.1 haccepts
  exact htag.common.withinLimits

namespace Step

/-- The body that nodes of the step execute: that of a loop over anything but an empty array. -/
def repeated? (context : Value) : Step → Option ToolStep
  | loop s =>
      match s.known? context with
      | some [] => none
      | _ => some s.body
  | _ => none

variable {tools : Registry} {context : Value} {s : Step} {nodes : List Node}

/-- The nodes of a step are within the limits, or they execute its body under the policy of that. -/
theorem policy_of_mem_block (hs : s.policy.WithinLimits)
    (hnodes : s.block tools context = .ok nodes) {n : Node} (hn : n ∈ nodes) :
    n.policy.WithinLimits
      ∨ ∃ body, s.repeated? context = some body ∧ n.policy = body.policy.orElse s.policy := by
  -- a node has the policy of its step, the time limit of it, or none; only the nodes for items have
  -- that of a body
  cases s with
  | loop s =>
    obtain ⟨tool, -, hnodes⟩ := bind_eq_ok_iff.1 hnodes
    obtain rfl := pure_eq_ok_iff.1 hnodes
    cases hknown : s.known? context with
    | none =>
      rw [hknown] at hn
      obtain rfl := List.mem_singleton.1 hn
      exact .inr ⟨s.body, by rw [repeated?, hknown], rfl⟩
    | some items =>
      rw [hknown] at hn
      rcases List.mem_append.1 hn with hn | hn
      · obtain ⟨item, hitem, rfl⟩ := List.mem_map.1 hn
        refine .inr ⟨s.body, ?_, rfl⟩
        cases items with
        | nil => cases hitem
        | cons first rest => rw [repeated?, hknown]
      · obtain rfl := List.mem_singleton.1 hn
        exact .inl Policy.withinLimits_default
  | parallel shell steps =>
    obtain rfl := pure_eq_ok_iff.1 hnodes
    split at hn
    · obtain rfl := List.mem_singleton.1 hn
      exact .inl hs.of_timeoutMs
    · cases hn
  | conditional shell condition yes no =>
    obtain rfl := pure_eq_ok_iff.1 hnodes
    obtain rfl := List.mem_singleton.1 hn
    exact .inl hs
  | _ s =>
    obtain ⟨tool, -, hnodes⟩ := bind_eq_ok_iff.1 hnodes
    obtain rfl := pure_eq_ok_iff.1 hnodes
    obtain rfl := List.mem_singleton.1 hn
    exact .inl hs

/-- A body that is executed at all is so under its own policy. -/
theorem exists_policy_eq_of_repeated? (hnodes : s.block tools context = .ok nodes) {body : ToolStep}
    (hbody : s.repeated? context = some body) :
    ∃ n ∈ nodes, n.policy = body.policy.orElse s.policy := by
  cases s with
  | loop s =>
    obtain ⟨tool, -, hnodes⟩ := bind_eq_ok_iff.1 hnodes
    obtain rfl := pure_eq_ok_iff.1 hnodes
    rw [repeated?] at hbody
    cases hknown : s.known? context with
    | none =>
      rw [hknown] at hbody
      obtain rfl := Option.some.inj hbody
      exact ⟨s.node tool, List.mem_singleton_self _, rfl⟩
    | some items =>
      rw [hknown] at hbody
      cases items with
      | nil => cases hbody
      | cons first rest =>
        obtain rfl := Option.some.inj hbody
        exact ⟨s.iteration tool 0 first, List.mem_cons_self, rfl⟩
  | _ => cases hbody

end Step

/-! ## Graphs -/

namespace Plan

variable {p : Plan} {tools : Registry} {context : Value} {g : Graph}

/-- The policies of a graph are those of the blocks of its stations. -/
theorem blocks_of_compile (h : p.compile tools context = .ok g) :
    (∀ n ∈ g.nodes, ∃ S ∈ p.places, S.home = none ∧
      ∃ block, S.step.block tools context = .ok block ∧ ∃ m ∈ block, m.policy = n.policy) ∧
    ∀ S ∈ p.places, S.home = none →
      ∃ block, S.step.block tools context = .ok block ∧
        ∀ m ∈ block, ∃ n ∈ g.nodes, m.policy = n.policy := by
  obtain ⟨hmade, hused⟩ := nodes_of_compile h
  constructor
  · intro n hn
    obtain ⟨S, hS, hhome, block, hblock, m, hm, hsame⟩ := hmade n hn
    exact ⟨S, hS, hhome, block, hblock, m, hm, by rw [hsame.same]⟩
  · intro S hS hhome
    obtain ⟨block, hblock, hnodes⟩ := hused S hS hhome
    refine ⟨block, hblock, fun m hm => ?_⟩
    obtain ⟨n, hn, hsame⟩ := hnodes m hm
    exact ⟨n, hn, by rw [hsame.same]⟩

/-- The nodes of a graph are within the limits, unless they execute the body of a loop that is not.
They all are if and only if the bodies that are executed are. -/
theorem compile_withinLimits_iff (h : p.compile tools context = .ok g) :
    (∀ n ∈ g.nodes, n.policy.WithinLimits ∨
      ∃ S ∈ p.places, S.home = none ∧ ∃ body, S.step.repeated? context = some body ∧
        ¬ body.policy.WithinLimits ∧ n.policy = body.policy.orElse S.step.policy) ∧
    ((∀ n ∈ g.nodes, n.policy.WithinLimits) ↔
      ∀ S ∈ p.places, S.home = none → ∀ body, S.step.repeated? context = some body →
        body.policy.WithinLimits) := by
  obtain ⟨⟨⟩, hcheck, -⟩ := bind_eq_ok_iff.1 h
  -- what steps set themselves has been checked
  have hown : ∀ S ∈ p.places, S.step.policy.WithinLimits := fun S hS =>
    withinLimits_of_check hcheck (step_mem_allSteps hS)
  obtain ⟨hmade, hused⟩ := blocks_of_compile h
  have hnode : ∀ n ∈ g.nodes, n.policy.WithinLimits ∨
      ∃ S ∈ p.places, S.home = none ∧ ∃ body, S.step.repeated? context = some body ∧
        ¬ body.policy.WithinLimits ∧ n.policy = body.policy.orElse S.step.policy := by
    intro n hn
    obtain ⟨S, hS, hhome, block, hblock, m, hm, hpolicy⟩ := hmade n hn
    rcases Step.policy_of_mem_block (hown S hS) hblock hm with hlimits | ⟨body, hbody, hm⟩
    · exact .inl (hpolicy ▸ hlimits)
    · by_cases hlimits : body.policy.WithinLimits
      · rw [← hpolicy, hm]
        exact .inl ((Policy.withinLimits_orElse_iff (hown S hS)).2 hlimits)
      · exact .inr ⟨S, hS, hhome, body, hbody, hlimits, hpolicy ▸ hm⟩
  -- a body that is executed shows itself in the policy of some node
  refine ⟨hnode, fun hall S hS hhome body hbody => ?_, fun hall n hn => ?_⟩
  · obtain ⟨block, hblock, hblock'⟩ := hused S hS hhome
    obtain ⟨m, hm, hpolicy⟩ := Step.exists_policy_eq_of_repeated? hblock hbody
    obtain ⟨n, hn, hmn⟩ := hblock' m hm
    refine (Policy.withinLimits_orElse_iff (hown S hS)).1 ?_
    rw [← hpolicy, hmn]
    exact hall n hn
  · refine (hnode n hn).resolve_right ?_
    rintro ⟨S, hS, hhome, body, hbody, hlimits, -⟩
    exact hlimits (hall S hS hhome body hbody)

/-- A loop whose body leaves no time and asks for more retries than a node may have. -/
def unlimitedBody : Plan where
  version := "1"
  steps := [
    .loop {
      id := "l"
      items := .array [.null]
      binder := "x"
      body := {
        id := ""
        tool := "echo"
        policy := { timeoutMs := some 0, maxRetries := some 6 } } }]

/-- The plan compiles, and a node for an item is beyond the limits. -/
theorem compile_withinLimits_iff_unlimitedBody :
    ∃ g, unlimitedBody.compile .standard (.object []) = .ok g ∧
      ¬ ∀ n ∈ g.nodes, n.policy.WithinLimits := by
  have hok : (unlimitedBody.compile .standard (.object [])).isOk = true := by cbv
  obtain ⟨g, hg⟩ := exists_eq_ok_of_isOk hok
  refine ⟨g, hg, fun hall => ?_⟩
  have hbody := (compile_withinLimits_iff hg).2.1 hall _ List.mem_cons_self rfl _ rfl
  exact absurd (hbody.timeoutMs 0 rfl) (by decide)

/-- The plan passes the check, and a node of its graph has the time limit and the retries of the
body. -/
theorem unlimitedBody_not_withinLimits :
    ∃ g, unlimitedBody.compile .standard (.object []) = .ok g ∧
      ∃ n ∈ g.nodes, n.policy.timeoutMs = some 0 ∧ n.policy.maxRetries = some 6 ∧
        Settings.maxRetriesLimit < (6 : UInt32).toNat := by
  have hpolicies : (unlimitedBody.compile .standard (.object [])).toOption.map (fun g =>
      g.nodes.map fun n => (n.policy.timeoutMs, n.policy.maxRetries))
        = some [(some 0, some 6), (none, none)] := by cbv
  cases hg : unlimitedBody.compile .standard (.object []) with
  | error e =>
    rw [hg] at hpolicies
    cases hpolicies
  | ok g =>
    rw [hg] at hpolicies
    have hfirst := List.mem_map.1 ((Option.some.inj hpolicies).symm ▸ List.mem_cons_self)
    obtain ⟨n, hn, hpolicy⟩ := hfirst
    obtain ⟨htimeout, hretries⟩ := Prod.mk.inj hpolicy
    exact ⟨g, rfl, n, hn, htimeout, hretries, by decide⟩

end Plan

end Wavefront
