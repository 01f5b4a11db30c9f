/-
Sites: the nodes that are carried out, wherever they are.

Steps are expanded in a context to a graph: those of a plan before it is executed, those of a branch
when its conditional has chosen it. A site is a node of such a graph. The node of a conditional
carries out the nodes of its branch one after the other, so what is under way in an execution is a
node of the graph of the plan, or a node that one in the graph of the plan carries out, at some
depth.

A site knows its steps, and so it is known what its node does, and that it waits for all that is
declared for its step. What the steps of a branch wait for outside of the branch, the node of the
conditional waits for.
-/
import Wavefront.Proofs.Graph.Order
import Wavefront.Proofs.Plan.Blocks
import Wavefront.Proofs.Run.Leads

set_option autoImplicit false

namespace Wavefront

/-- A node of the graph that steps have been expanded to in a context. -/
structure Site (tools : Registry) where
  steps : List Step
  context : Value
  expansion : Expansion
  graph : Graph
  node : Node
  expanded : Step.expandAll tools context [] steps = .ok expansion
  finished : expansion.graph = .ok graph
  mem : node ∈ graph.nodes

namespace Site

variable {tools : Registry}

/-- The places of the steps outside of all conditionals. -/
def stations (Z : Site tools) : List Place :=
  (Step.placesAll [] none Z.steps).filter fun S => S.home = none

/-- The node waits for all that the id of a step stands for. -/
def Awaits (Z : Site tools) (id : String) : Prop := ∀ m ∈ Z.expansion.resolve id, m ∈ Z.node.deps

/-- The ids that the steps inside the step of the node bring with them. -/
def innerIds (Z : Site tools) : List String :=
  ((Step.nestedList Z.steps).filter fun s => Z.node.stepId = some s.id).flatMap fun s =>
    (s.children.flatMap Step.nested).flatMap Step.innerIds

/-! ## What the node does -/

/-- The stations of a site are those of its steps, one step after the other. -/
theorem stations_eq (Z : Site tools) :
    Z.stations = (Z.steps.map fun s => (⟨s, [], none⟩ : Place)).flatMap Place.stations := by
  rw [stations, Place.placesAll_eq_flatMap, List.filter_flatMap]
  rfl

/-- The steps of the stations are among the steps of the site, in their order. -/
theorem sublist_stations (Z : Site tools) :
    (Z.stations.map (·.step)).Sublist (Step.nestedList Z.steps) := by
  rw [← Place.map_step_placesAll [] none]
  exact List.filter_sublist.map _

theorem drafted (Z : Site tools) :
    Place.DraftedAll tools Z.context (Z.steps.map fun s => ⟨s, [], none⟩) Z.expansion.drafts :=
  Step.drafted_steps Z.expanded

theorem nodes_eq (Z : Site tools) : Z.graph.nodes = Z.expansion.drafts.map Z.expansion.finish :=
  Graph.nodes_of_ofNodes Z.finished

/-- The node is one that a station makes, and waits for all that is declared for the station. -/
theorem exists_maker (Z : Site tools) : ∃ S ∈ Z.stations, Z.node.stepId = some S.id ∧
    (∃ nodes, S.step.block tools Z.context = .ok nodes ∧
      ∃ n ∈ nodes, n.id = Z.node.id ∧ n.task = Z.node.task) ∧ ∀ id ∈ S.declared, Z.Awaits id := by
  have hmem := Z.mem
  rw [nodes_eq] at hmem
  obtain ⟨d, hd, hnode⟩ := List.mem_map.1 hmem
  -- the drafts come in blocks, one for each station, and the node is of one of them
  obtain ⟨blocks, hperm, hblocks, hdrafts⟩ := Z.drafted
  rw [hdrafts] at hd
  obtain ⟨b, hb, hd⟩ := List.mem_flatMap.1 hd
  refine ⟨b.1, ?_, ?_, ⟨_, (hblocks b hb).nodes, d.node, List.mem_map_of_mem hd, ?_⟩,
    fun id hid m hm => ?_⟩
  · rw [stations_eq]
    exact hperm.mem_iff.1 (List.mem_map_of_mem hb)
  · rw [← hnode]
    exact (hblocks b hb).stepId d hd
  · rw [← hnode]
    exact ⟨rfl, rfl⟩
  · rw [← hnode]
    exact Plan.Compiled.mem_deps_finish.2 (.inl ⟨id, ((hblocks b hb).declared d hd id).2 hid, hm⟩)

/-- The step that has the id that a node names is the one that makes the node. -/
theorem exists_maker_of_stepId (Z : Site tools) {steps : List Step}
    (hsteps : (Step.nestedList Z.steps).Sublist steps) (hnodup : (steps.map Step.id).Nodup) {s : Step}
    (hs : s ∈ steps) (hid : Z.node.stepId = some s.id) : (∃ S ∈ Z.stations, S.step = s) ∧
      ∃ nodes, s.block tools Z.context = .ok nodes ∧
        ∃ n ∈ nodes, n.id = Z.node.id ∧ n.task = Z.node.task := by
  obtain ⟨S, hS, hSid, hmade, -⟩ := Z.exists_maker
  have hmem : S.step ∈ steps :=
    hsteps.subset (Z.sublist_stations.subset (List.mem_map_of_mem hS))
  have heq : S.step.id = s.id := Option.some.inj (hSid.symm.trans hid)
  obtain rfl := List.inj_on_of_nodup_map hnodup hmem hs heq
  exact ⟨⟨S, hS, rfl⟩, hmade⟩

/-- The nodes of a station are those that name its step. -/
theorem nodes_of_station (Z : Site tools) (hnodup : ((Step.nestedList Z.steps).map Step.id).Nodup)
    {S : Place} (hS : S ∈ Z.stations) : ∃ nodes, S.step.block tools Z.context = .ok nodes ∧
      (Z.graph.nodes.filter fun n => n.stepId = some S.id).map (fun n => (n.id, n.task))
        = nodes.map fun n => (n.id, n.task) := by
  obtain ⟨blocks, hperm, hblocks, hdrafts⟩ := Z.drafted
  rw [← stations_eq] at hperm
  obtain ⟨b, hb, rfl⟩ := List.mem_map.1 (hperm.mem_iff.2 hS)
  -- steps have different ids, so the block of the station is the only one with this id
  have hids : (blocks.map fun b => b.1.id).Nodup := by
    have hstations : (Z.stations.map Place.id).Nodup := by
      refine (Z.sublist_stations.map Step.id).nodup hnodup |> fun h => ?_
      rwa [List.map_map] at h
    have h := (hperm.map Place.id).nodup_iff.2 hstations
    rwa [List.map_map] at h
  refine ⟨_, (hblocks b hb).nodes, ?_⟩
  rw [nodes_eq, List.filter_map, hdrafts]
  have hfilter := Place.filter_of_nodup hblocks hids hb
  have hsame : ((fun n : Node => decide (n.stepId = some b.1.id)) ∘ Z.expansion.finish)
      = fun d => decide (d.node.stepId = some b.1.id) := rfl
  rw [hsame, hfilter, List.map_map, List.map_map]
  rfl

/-- The node of a conditional has the branches of its step, and waits for what they wait for. -/
theorem exists_conditional (Z : Site tools) {shell : Shell} {condition : String} {yes no : Branch}
    (htask : Z.node.task = .conditional shell condition yes no) :
    ∃ S ∈ Z.stations, Z.node.stepId = some S.id ∧ (∀ id ∈ S.declared, Z.Awaits id) ∧
      ∃ ys ns, S.step = .conditional shell condition ys ns ∧ yes = .inside tools ys ∧
        no = .inside tools ns := by
  obtain ⟨S, hS, hstep, ⟨nodes, hnodes, n, hn, -, hsame⟩, hawaits⟩ := Z.exists_maker
  exact ⟨S, hS, hstep, hawaits, (Step.of_mem_block hnodes hn).2 _ _ _ _ (hsame.trans htask)⟩

/-! ## What the node carries out -/

/-- By turns in the first contexts the node of one site has come to begin that of another, or it is
the same. Between the two are the sites of the conditionals that chose the branches on the way; each
read its context once to decide, and to expand the branch. When the node of the branch begins, the
nodes of the branch that it waits for have been carried out. -/
inductive CarriesOut (s : Settings) :
    Site tools → List Value → List (Site tools) → Site tools → List Value → Prop
  | itself (A : Site tools) (cs : List Value) : CarriesOut s A cs [] A cs
  | branch {A B Z : Site tools} {shell : Shell} {condition : String} {yes no : List Step}
      {holds : Bool} {earlier : List Node} {before after ds : List Value} {via : List (Site tools)}
      (hstep : .conditional shell condition yes no ∈ A.stations.map (·.step))
      (hid : A.node.stepId = some shell.id)
      (htask : A.node.task = .conditional shell condition (.inside tools yes) (.inside tools no))
      (hholds : Condition.evaluate B.context condition = .ok holds)
      (hsteps : B.steps = if holds then yes else no)
      (hearlier : ∀ n ∈ earlier, n ∈ B.graph.nodes)
      (hdeps : ∀ d ∈ B.node.deps, d ∈ B.graph.ids → d ∈ earlier.map Node.id)
      (hperformed : Action.Performed (earlier.map fun n => n.task.work s n.id) before)
      (hrest : CarriesOut s B after via Z ds) :
      CarriesOut s A (B.context :: (before ++ after)) (A :: via) Z ds

variable {s : Settings}

/-- The works of a branch are those of the nodes of its graph in their order. -/
theorem exists_sites_of_works {steps : List Step} {c : Value} {earlier later : List (Action Value)}
    {work : Action Value}
    (h : (Branch.inside tools steps).works s c = .ok (earlier ++ work :: later)) :
    ∃ (B : Site tools) (before : List Node), B.steps = steps ∧ B.context = c ∧
      B.node.task.work s B.node.id = work ∧ (∀ n ∈ before, n ∈ B.graph.nodes) ∧
      (before.map fun n => n.task.work s n.id) = earlier ∧
      ∀ d ∈ B.node.deps, d ∈ B.graph.ids → d ∈ before.map Node.id := by
  obtain ⟨e, he, h⟩ := bind_eq_ok_iff.1 h
  obtain ⟨g, hg, hworks⟩ := bind_eq_ok_iff.1 h
  obtain ⟨ids, horder, hworks⟩ := Graph.works_eq_ok hworks
  -- the works stand in the order of the branch, and so do the nodes that they are the works of
  obtain ⟨before, rest, hsplit, rfl, hrest⟩ := List.map_eq_append_iff.1 hworks.symm
  obtain ⟨n, after, rfl, rfl, -⟩ := List.map_eq_cons_iff.1 hrest
  have hmem : ∀ m ∈ before ++ n :: after, m ∈ g.nodes := fun m hm => by
    rw [← hsplit] at hm
    obtain ⟨id, -, hid⟩ := List.mem_filterMap.1 hm
    exact (Graph.node?_eq_some hid).1
  refine ⟨⟨steps, c, e, g, n, he, hg, hmem n (by simp)⟩, before, rfl, rfl, rfl, fun m hm => ?_, rfl,
    fun d hd hin => Graph.mem_earlier_of_order horder hsplit hd hin⟩
  exact hmem m (List.mem_append_left _ hm)

/-- Whatever calls are under way are those of a node that is no conditional, and that has come to
them in the context at its first turn. -/
theorem exists_calls (A : Site tools) {cs : List Value} {f : Fanout}
    (h : (A.node.task.work s A.node.id).Calls cs f) :
    ∃ via Z d ds, CarriesOut s A cs via Z (d :: ds) ∧ f.Leaves (Z.node.task.calls d) := by
  -- a conditional spends a context on its decision, so fewer are left for what is in its branch
  generalize hn : cs.length = n
  induction n using Nat.strongRecOn generalizing A cs with
  | ind n ih =>
    cases htask : A.node.task with
    | conditional shell condition yes no =>
      obtain ⟨S, hS, hid, -, ys, ns, hstep, rfl, rfl⟩ := A.exists_conditional htask
      have hmem : .conditional shell condition ys ns ∈ A.stations.map (·.step) :=
        List.mem_map.2 ⟨S, hS, hstep⟩
      rw [Place.id, hstep] at hid
      rw [htask] at h
      obtain ⟨c, rest, holds, rfl, hholds, htake⟩ := Task.calls_conditional h
      rw [← apply_ite (Branch.inside tools)] at htake
      obtain ⟨works, hworks, earlier, work, later, rfl, before, after, rfl, hperformed, hcalls⟩ :=
        Task.calls_of_take htake
      obtain ⟨B, nodes, hsteps, rfl, rfl, hnodes, rfl, hdeps⟩ := exists_sites_of_works hworks
      have hshorter : after.length < n := by
        rw [← hn, List.length_cons, List.length_append]
        omega
      obtain ⟨via, Z, d, ds, hcarries, hleaves⟩ := ih after.length hshorter B hcalls rfl
      exact ⟨A :: via, Z, d, ds,
        .branch hmem hid htask hholds hsteps hnodes hdeps hperformed hcarries, hleaves⟩
    | _ =>
      obtain ⟨c, rest, rfl, hleaves⟩ := Task.calls_of_work (by rw [htask]; rfl) h
      exact ⟨[], A, c, rest, .itself A _, hleaves⟩

/-! ## What is waited for around a branch -/

/-- What is waited for where a step stands is named by a step. -/
theorem awaited_subset (Z : Site tools) {S : Place} (hS : S ∈ Z.stations) :
    S.awaited ⊆ (Step.nestedList Z.steps).flatMap Step.dependsOn := by
  intro d hd
  have hplace := List.mem_of_mem_filter hS
  rw [Place.placesAll_eq_flatMap] at hplace
  obtain ⟨T, hT, hST⟩ := List.mem_flatMap.1 hplace
  obtain ⟨t, ht, rfl⟩ := List.mem_map.1 hT
  have hwithin : ∀ R ∈ (⟨t, [], none⟩ : Place).within, R.step ∈ Step.nestedList Z.steps :=
    fun R hR => by
      rw [← Place.map_step_placesAll [] none, Place.placesAll_eq_flatMap]
      exact List.mem_map_of_mem (List.mem_flatMap.2 ⟨_, List.mem_map_of_mem ht, hR⟩)
  -- declared on the way down to the station, or by a step inside of it
  rcases Place.awaited_of_mem_within hST d hd with hd | ⟨R, hR, hd⟩
  · exact List.mem_flatMap.2 ⟨t, hwithin _ (Place.self_mem_within _), hd⟩
  · exact List.mem_flatMap.2 ⟨R.step, hwithin R (Place.inside_subset_within _ hR), hd⟩

/-- What is inside the branch that is chosen is inside the conditional. -/
theorem nestedList_chosen_sublist (yes no : List Step) (holds : Bool) :
    (Step.nestedList (if holds then yes else no)).Sublist
      (Step.nestedList yes ++ Step.nestedList no) := by
  cases holds with
  | true => exact List.sublist_append_left _ _
  | false => exact List.sublist_append_right _ _

/-- Both branches of a conditional of a site are among the steps of the site. -/
theorem nestedList_branches_sublist {A : Site tools} {shell : Shell} {condition : String}
    {yes no : List Step} (hstep : .conditional shell condition yes no ∈ A.stations.map (·.step)) :
    (Step.nestedList yes ++ Step.nestedList no).Sublist (Step.nestedList A.steps) := by
  refine List.Sublist.trans ?_
    (Step.nested_sublist_nestedList (A.sublist_stations.subset hstep))
  rw [Step.nested]
  exact List.sublist_cons_self _ _

/-- The steps of a site that is carried out from another one are among those of the other one. -/
theorem CarriesOut.nestedList_sublist {A Z : Site tools} {cs ds : List Value}
    {via : List (Site tools)} (h : CarriesOut s A cs via Z ds) :
    (Step.nestedList Z.steps).Sublist (Step.nestedList A.steps) := by
  induction h with
  | itself A cs => exact List.Sublist.refl _
  | branch hstep _ _ _ hsteps _ _ _ _ ih =>
    refine ih.trans ?_
    rw [hsteps]
    exact (nestedList_chosen_sublist _ _ _).trans (nestedList_branches_sublist hstep)

/-- If no two steps have the same id, the station that a node names is the one that makes it. -/
theorem awaits_of_stepId (Z : Site tools) (hnodup : ((Step.nestedList Z.steps).map Step.id).Nodup)
    {S : Place} (hS : S ∈ Z.stations) (hid : Z.node.stepId = some S.id) :
    ∀ id ∈ S.declared, Z.Awaits id := by
  obtain ⟨T, hT, hTid, -, hawaits⟩ := Z.exists_maker
  have hids : (Z.stations.map Place.id).Nodup := by
    have h := (Z.sublist_stations.map Step.id).nodup hnodup
    rwa [List.map_map] at h
  have heq : S.id = T.id := Option.some.inj (hid.symm.trans hTid)
  rw [List.inj_on_of_nodup_map hids hS hT heq]
  exact hawaits

/-- The nodes of the conditionals around a branch wait for all that its steps wait for, but for what
is inside these conditionals themselves. -/
theorem CarriesOut.awaits_or_mem_innerIds {A Z : Site tools} {cs ds : List Value}
    {via : List (Site tools)} (h : CarriesOut s A cs via Z ds)
    (hnodup : ((Step.nestedList A.steps).map Step.id).Nodup) :
    ∀ B ∈ via, ∀ id ∈ (Step.nestedList Z.steps).flatMap Step.dependsOn,
      B.Awaits id ∨ id ∈ B.innerIds := by
  induction h with
  | itself A cs => exact fun B hB => absurd hB List.not_mem_nil
  | @branch A B Z shell condition yes no holds _ _ _ _ _ hstep hid _ _ hsteps _ _ _ hrest ih =>
    have hchosen := nestedList_chosen_sublist yes no holds
    rw [← hsteps] at hchosen
    have hbelow := hchosen.trans (nestedList_branches_sublist hstep)
    refine List.forall_mem_cons.2 ⟨fun id hin => ?_, ih ((hbelow.map Step.id).nodup hnodup)⟩
    have hmem := A.sublist_stations.subset hstep
    obtain ⟨S, hS, hSstep⟩ := List.mem_map.1 hstep
    obtain ⟨t, ht, hdepends⟩ := List.mem_flatMap.1 hin
    have htinside := (hrest.nestedList_sublist.trans hchosen).subset ht
    -- what is not an id from inside either branch has been lifted to the conditional
    by_cases hinner : id ∈ (Step.nestedList yes ++ Step.nestedList no).flatMap Step.innerIds
    · refine .inr (List.mem_flatMap.2 ⟨_, List.mem_filter.2 ⟨hmem, decide_eq_true hid⟩, ?_⟩)
      rwa [Step.flatMap_nested_conditional]
    · have hlifted : id ∈ S.declared := by
        refine List.mem_append_right _ ?_
        rw [hSstep, Step.lifted]
        exact List.mem_filter.2 ⟨List.mem_flatMap.2 ⟨t, htinside, hdepends⟩, decide_eq_true hinner⟩
      refine .inl (A.awaits_of_stepId hnodup hS ?_ id hlifted)
      rw [Place.id, hSstep]
      exact hid

end Site

end Wavefront
