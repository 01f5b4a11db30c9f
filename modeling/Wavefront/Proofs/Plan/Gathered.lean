/-
What a gathering node reads has been written by a node that it waits for, but for groups that write
nothing.

A gathering node is told the paths when the plan is expanded, and they are foretold: that of a loop
reads where the nodes for its items are, that of a group reads where the steps in the group say that
their results are. Each kind of step puts its result where it says, whether it has a node for it, a
node that gathers, or a node that finds its items when it is executed; and as the gathering node
waits for what the steps end with, it waits for the node that writes.

There is one exception. A group without an output has no node that gathers, and so nothing is
written at its own key. If it stands in a group that has an output, its slot there is empty, unless
some other node happens to write at its id.
-/
import Wavefront.Proofs.Plan.Limits
import Wavefront.Proofs.Run.Target
import Wavefront.Schema.Reader

set_option autoImplicit false

namespace Wavefront

/-! ## Reading and writing -/

/-- The paths that are read. -/
def Gathering.paths : Gathering → List String
  | list paths => paths
  | map entries => entries.map (·.2)

/-- The paths that a task gathers. -/
def Task.gathered : Task → List String
  | aggregate gathering _ => gathering.paths
  | _ => []

/-- Of what a node waits for, directly or through others, something writes at the path. -/
def Graph.WritesBefore (g : Graph) (id path : String) : Prop :=
  ∃ m ∈ g.nodes, Relation.TransGen g.DependsOn id m.id ∧ m.task.target = path

namespace Step

/-- The steps whose results are gathered: those in a group with an output. -/
def gathers : Step → List Step
  | parallel shell steps => if shell.output = none then [] else steps
  | _ => []

/-- Groups without an output write no result of their own. -/
def isUnwritten : Step → Bool
  | parallel shell _ => shell.output.isNone
  | _ => false

/-- A group without an output is said to write at its id. -/
theorem outputKey_of_isUnwritten {s : Step} (h : s.isUnwritten = true) : s.outputKey = s.id := by
  cases s with
  | parallel shell steps =>
    have houtput : shell.output = none := Option.isNone_iff_eq_none.1 h
    rw [outputKey, houtput]
    rfl
  | _ => cases h

/-- What is gathered are members of the group. -/
theorem gathers_subset_group (s : Step) : s.gathers ⊆ s.group := by
  cases s with
  | parallel shell steps =>
    rw [gathers]
    split
    · exact List.nil_subset _
    · exact List.Subset.refl _
  | _ => exact List.nil_subset _

variable {tools : Registry} {context : Value} {s : Step} {nodes : List Node}

/-- A step writes where it says, at a node that it ends with, unless it is a group without an
output. -/
theorem exists_writer (hnodes : s.block tools context = .ok nodes)
    (hs : s.isUnwritten = false) :
    ∃ n ∈ nodes, n.id ∈ s.exits context ∧ n.task.target = s.outputKey := by
  -- the node that writes is the last one that the step makes: the one that gathers where there is
  -- one
  cases s with
  | loop s =>
    obtain ⟨tool, -, hnodes⟩ := bind_eq_ok_iff.1 hnodes
    obtain rfl := pure_eq_ok_iff.1 hnodes
    rw [exits]
    cases hknown : s.known? context with
    | none => exact ⟨s.node tool, List.mem_singleton_self _, List.mem_singleton_self _, rfl⟩
    | some items =>
      exact ⟨s.gathering items, List.mem_append_right _ (List.mem_singleton_self _),
        List.mem_singleton_self _, rfl⟩
  | parallel shell steps =>
    obtain rfl := pure_eq_ok_iff.1 hnodes
    rw [exits, outputKey]
    cases houtput : shell.output with
    | none =>
      rw [isUnwritten, houtput] at hs
      cases hs
    | some output => exact ⟨_, List.mem_singleton_self _, List.mem_singleton_self _, rfl⟩
  | conditional shell condition yes no =>
    obtain rfl := pure_eq_ok_iff.1 hnodes
    exact ⟨_, List.mem_singleton_self _, List.mem_singleton_self _, rfl⟩
  | _ s =>
    obtain ⟨tool, -, hnodes⟩ := bind_eq_ok_iff.1 hnodes
    obtain rfl := pure_eq_ok_iff.1 hnodes
    exact ⟨_, List.mem_singleton_self _, List.mem_singleton_self _, rfl⟩

/-- What a node of a step gathers is written by a node for an item, or it is the result of a step in
the group; the node waits for the one, and for all that the other ends with. -/
theorem gathered_of_mem_block (hnodes : s.block tools context = .ok nodes) {n : Node} (hn : n ∈ nodes)
    {path : String} (hpath : path ∈ n.task.gathered) :
    (∃ m ∈ nodes, m.id ∈ n.deps ∧ m.task.target = path) ∨
      n.id = gatheredId s.id ∧ ∃ t ∈ s.gathers, t.outputKey = path ∧ t.exits context ⊆ n.deps := by
  -- only loops over known items and groups with an output gather; a loop reads its own nodes, a
  -- group what others make
  cases s with
  | loop s =>
    obtain ⟨tool, -, hnodes⟩ := bind_eq_ok_iff.1 hnodes
    obtain rfl := pure_eq_ok_iff.1 hnodes
    cases hknown : s.known? context with
    | none =>
      rw [hknown] at hn
      obtain rfl := List.mem_singleton.1 hn
      cases hpath
    | some items =>
      rw [hknown] at hn
      rcases List.mem_append.1 hn with hn | hn
      · obtain ⟨item, -, rfl⟩ := List.mem_map.1 hn
        cases hpath
      · obtain rfl := List.mem_singleton.1 hn
        have hpath : path ∈ s.iterationIds items := hpath
        have hdeps := hpath
        rw [← s.map_id_iterations tool] at hpath
        obtain ⟨m, hm, rfl⟩ := List.mem_map.1 hpath
        refine .inl ⟨m, List.mem_append_left _ hm, hdeps, ?_⟩
        obtain ⟨item, -, rfl⟩ := List.mem_map.1 hm
        rfl
  | parallel shell steps =>
    obtain rfl := pure_eq_ok_iff.1 hnodes
    cases houtput : shell.output with
    | none =>
      rw [houtput] at hn
      cases hn
    | some output =>
      rw [houtput] at hn
      obtain rfl := List.mem_singleton.1 hn
      obtain ⟨entry, hentry, rfl⟩ := List.mem_map.1 hpath
      obtain ⟨t, ht, rfl⟩ := List.mem_map.1 hentry
      refine .inr ⟨rfl, t, ?_, rfl, fun id hid => ?_⟩
      · rwa [gathers, houtput, if_neg (Option.some_ne_none output)]
      · show id ∈ exitsAll context steps
        rw [exitsAll_eq_flatMap]
        exact List.mem_flatMap.2 ⟨t, ht, hid⟩
  | conditional shell condition yes no =>
    obtain rfl := pure_eq_ok_iff.1 hnodes
    obtain rfl := List.mem_singleton.1 hn
    cases hpath
  | _ s =>
    obtain ⟨tool, -, hnodes⟩ := bind_eq_ok_iff.1 hnodes
    obtain rfl := pure_eq_ok_iff.1 hnodes
    obtain rfl := List.mem_singleton.1 hn
    cases hpath

/-- The results of all steps in a group with an output are gathered. -/
theorem exists_gathering (hnodes : s.block tools context = .ok nodes) {t : Step}
    (ht : t ∈ s.gathers) : ∃ n ∈ nodes, n.id = gatheredId s.id ∧ t.outputKey ∈ n.task.gathered := by
  cases s with
  | parallel shell steps =>
    obtain rfl := pure_eq_ok_iff.1 hnodes
    rw [gathers] at ht
    cases houtput : shell.output with
    | none =>
      rw [if_pos houtput] at ht
      cases ht
    | some output =>
      rw [if_neg (by simp [houtput])] at ht
      refine ⟨_, List.mem_singleton_self _, rfl, ?_⟩
      exact List.mem_map.2 ⟨_, List.mem_map_of_mem ht, rfl⟩
  | _ => cases ht

end Step

/-! ## Graphs -/

namespace Plan

variable {p : Plan} {tools : Registry} {context : Value} {g : Graph}

/-- What a node gathers is written before, or it stands for a group that writes nothing. -/
theorem writesBefore_or_unwritten (h : p.compile tools context = .ok g) {n : Node}
    (hn : n ∈ g.nodes) {path : String} (hpath : path ∈ n.task.gathered) :
    g.WritesBefore n.id path ∨ ∃ S ∈ p.places, S.home = none ∧ n.id = gatheredId S.id ∧
      ∃ t ∈ S.step.gathers, t.isUnwritten = true ∧ path = t.id := by
  obtain ⟨hmade, hused⟩ := nodes_of_compile h
  obtain ⟨S, hS, hhome, block, hblock, m, hm, hnm⟩ := hmade n hn
  have hid : n.id = m.id := by rw [hnm.same]
  have htask : n.task = m.task := by rw [hnm.same]
  -- a node of the graph that comes from one the node gathers is one that it waits for
  have hwrites : ∀ x y : Node, y ∈ g.nodes → y.Completes x → x.id ∈ m.deps → x.task.target = path →
      g.WritesBefore n.id path := by
    intro x y hy hyx hx htarget
    have hyid : y.id = x.id := by rw [hyx.same]
    have hytask : y.task = x.task := by rw [hyx.same]
    refine ⟨y, hy, .single ⟨n, hn, rfl, ?_⟩, by rw [hytask, htarget]⟩
    rw [hyid]
    exact hnm.deps hx
  rw [htask] at hpath
  rcases Step.gathered_of_mem_block hblock hm hpath with
    ⟨x, hx, hdeps, htarget⟩ | ⟨hmid, t, ht, rfl, hexits⟩
  · obtain ⟨block', hblock', hnodes⟩ := hused S hS hhome
    obtain rfl := Except.ok.inj (hblock.symm.trans hblock')
    obtain ⟨y, hy, hyx⟩ := hnodes x hx
    exact .inl (hwrites x y hy hyx hdeps htarget)
  · cases hunwritten : t.isUnwritten with
    | true =>
      exact .inr ⟨S, hS, hhome, hid.trans hmid, t, ht, hunwritten,
        Step.outputKey_of_isUnwritten hunwritten⟩
    | false =>
      obtain ⟨M, hM, hMhome, rfl⟩ :=
        Place.exists_member_of_mem_group hhome (Step.gathers_subset_group _ ht)
      have hMp : M ∈ p.places := mem_places_of_mem_within hS (Place.member_mem_within hM)
      obtain ⟨inner, hinner, hnodes⟩ := hused M hMp hMhome
      obtain ⟨x, hx, hxid, htarget⟩ := Step.exists_writer hinner hunwritten
      obtain ⟨y, hy, hyx⟩ := hnodes x hx
      exact .inl (hwrites x y hy hyx (hexits hxid) htarget)

/-- Whatever a node of a compiled plan gathers is written by a node that it waits for, directly or
through others, unless it stands for a group without an output inside of one with an output. All of
it is written before if and only if some such node happens to write at the id of each of these
groups. What writes does so whenever it succeeds: when an execution of a node ends with a value,
that value is what is read at its target at that point. -/
theorem compile_writesBefore_iff [Schema.Validator] (h : p.compile tools context = .ok g) :
    (∀ n ∈ g.nodes, ∀ path ∈ n.task.gathered, g.WritesBefore n.id path ∨
      ∃ S ∈ p.places, S.home = none ∧ n.id = gatheredId S.id ∧
        ∃ t ∈ S.step.gathers, t.isUnwritten = true ∧ path = t.id) ∧
    ((∀ n ∈ g.nodes, ∀ path ∈ n.task.gathered, g.WritesBefore n.id path) ↔
      ∀ S ∈ p.places, S.home = none → ∀ t ∈ S.step.gathers, t.isUnwritten = true →
        g.WritesBefore (gatheredId S.id) t.id) ∧
    ∀ n ∈ g.nodes, ∀ s ds v, (n.task.work s n.id).run.Performs ds (.done (.ok v)) →
      ∃ earlier last, ds = earlier ++ [last] ∧ last.left.context.resolve n.task.target = some v := by
  refine ⟨fun n hn path hpath => writesBefore_or_unwritten h hn hpath, ⟨?_, ?_⟩,
    fun n _ s ds v hperforms => Task.resolve_target_of_ok hperforms⟩
  · intro hall S hS hhome t ht hunwritten
    obtain ⟨block, hblock, hnodes⟩ := (nodes_of_compile h).2 S hS hhome
    obtain ⟨m, hm, hid, hpath⟩ := Step.exists_gathering hblock ht
    obtain ⟨n, hn, hnm⟩ := hnodes m hm
    have hnid : n.id = m.id := by rw [hnm.same]
    have hntask : n.task = m.task := by rw [hnm.same]
    have hgroup : S.id = S.step.id := rfl
    rw [hgroup, ← hid, ← hnid, ← Step.outputKey_of_isUnwritten hunwritten]
    exact hall n hn _ (hntask ▸ hpath)
  · intro hgroups n hn path hpath
    rcases writesBefore_or_unwritten h hn hpath with hbefore | ⟨S, hS, hhome, hid, t, ht, hu, rfl⟩
    · exact hbefore
    · rw [hid]
      exact hgroups S hS hhome t ht hu

/-- A group of a step, a loop over one item and a group that has an output too. -/
def gatheredGroup : Plan where
  version := "1"
  steps := [
    .parallel { id := "p", output := some "o" } [
      .tool { id := "a", tool := "echo" },
      .loop { id := "l", items := .array [.null], binder := "x", body := { id := "", tool := "echo" } },
      .parallel { id := "q", output := some "r" } [.tool { id := "b", tool := "echo" }]]]

/-- A group that gathers a tool step, a loop over known items and a group in turn. -/
theorem compile_writesBefore_iff_gatheredGroup :
    ∃ g, gatheredGroup.compile .standard (.object []) = .ok g ∧
      (∃ n ∈ g.nodes, n.task.gathered = ["a", "l_agg", "r"]) ∧
      ∀ n ∈ g.nodes, ∀ path ∈ n.task.gathered, g.WritesBefore n.id path := by
  have hgathered : (gatheredGroup.compile .standard (.object [])).toOption.map (fun g =>
      g.nodes.map fun n => n.task.gathered)
        = some [[], [], ["l_iter_0"], [], ["b"], ["a", "l_agg", "r"]] := by cbv
  -- no member of the group is a silent one, which is evaluated
  have hwritten : (gatheredGroup.allSteps.all fun s => s.gathers.all fun t => !t.isUnwritten) = true := by
    cbv
  cases hg : gatheredGroup.compile .standard (.object []) with
  | error e =>
    rw [hg] at hgathered
    cases hgathered
  | ok g =>
    rw [hg] at hgathered
    have hlist : (g.nodes.map fun n => n.task.gathered)
        = [[], [], ["l_iter_0"], [], ["b"], ["a", "l_agg", "r"]] := Option.some.inj hgathered
    have hgroup : ["a", "l_agg", "r"] ∈ g.nodes.map fun n => n.task.gathered := by
      rw [hlist]
      simp
    obtain ⟨n, hn, hpaths⟩ := List.mem_map.1 hgroup
    refine ⟨g, rfl, ⟨n, hn, hpaths⟩, (compile_writesBefore_iff hg).2.1.2 ?_⟩
    intro S hS _ t ht hunwritten
    have hS := List.all_eq_true.1 hwritten S.step (step_mem_allSteps hS)
    have ht := List.all_eq_true.1 hS t ht
    rw [hunwritten] at ht
    cases ht

/-- A group without an output in one that has one. -/
def silentGroup : Plan where
  version := "1"
  steps := [
    .parallel { id := "p", output := some "o" } [
      .parallel { id := "q" } [.tool { id := "a", tool := "echo" }]]]

/-- A node of its graph gathers what no node writes. -/
theorem silentGroup_gathers_unwritten :
    ∃ g, silentGroup.compile .standard (.object []) = .ok g ∧
      ∃ n ∈ g.nodes, ∃ path ∈ n.task.gathered, ∀ m ∈ g.nodes, m.task.target ≠ path := by
  have hnodes : (silentGroup.compile .standard (.object [])).toOption.map (fun g =>
      g.nodes.map fun n => (n.task.gathered, n.task.target))
        = some [([], "a"), (["q"], "o")] := by cbv
  cases hg : silentGroup.compile .standard (.object []) with
  | error e =>
    rw [hg] at hnodes
    cases hnodes
  | ok g =>
    rw [hg] at hnodes
    have hlist : (g.nodes.map fun n => (n.task.gathered, n.task.target))
        = [([], "a"), (["q"], "o")] := Option.some.inj hnodes
    obtain ⟨n, hn, hpair⟩ := List.mem_map.1 (hlist ▸ List.mem_cons_of_mem _ List.mem_cons_self)
    obtain ⟨hgathered, -⟩ := Prod.mk.inj hpair
    refine ⟨g, rfl, n, hn, "q", hgathered ▸ List.mem_cons_self, fun m hm htarget => ?_⟩
    have hpair : (m.task.gathered, m.task.target) ∈ [([], "a"), (["q"], "o")] :=
      hlist ▸ List.mem_map_of_mem hm
    rw [htarget] at hpair
    simp at hpair

end Plan

end Wavefront
