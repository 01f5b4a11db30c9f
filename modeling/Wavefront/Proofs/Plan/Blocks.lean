/-
The nodes of an expansion, with all that they do.

The ids and the dependencies of nodes are the same for many kinds of steps. What a node does is not,
so here every station has its nodes written out (`Step.block`), and the nodes of an expansion are
those of its stations, in some order of the stations. As no two steps have the same id, the nodes
that name a step are those of its block.
-/
import Wavefront.Proofs.Plan.Compiled
import Wavefront.Proofs.Run.Unrolled

set_option autoImplicit false

namespace Wavefront

/-- A branch of these steps. -/
def Branch.inside (tools : Registry) (steps : List Step) : Branch :=
  .ofSteps steps fun context => Step.expandAll tools context [] steps

/-- The nodes that a step makes itself. -/
def Step.block (tools : Registry) (context : Value) : Step → Except Error (List Node)
  | tool s => do
      let found ← tools.require s.tool s.id
      return [{
        id := s.id
        deps := []
        stepId := some s.id
        toolName := some s.tool
        policy := s.policy
        task := .toolCall found s.input s.outputKey none }]
  | final s => do
      let found ← tools.require s.tool s.id
      return [{
        id := s.id
        deps := []
        stepId := some s.id
        toolName := some s.tool
        policy := s.policy
        task := .toolCall found s.input (s.output.getD s.id) none }]
  | loop s => do
      let found ← tools.require s.body.tool s.id
      return match s.known? context with
        | some items => (s.unrolled found items).nodes
        | none => (s.rolled found).nodes
  | reduce s => do
      let found ← tools.require s.reducer.tool s.id
      return [{
        id := s.id
        deps := []
        stepId := some s.id
        toolName := some s.reducer.tool
        policy := s.policy
        task := .reduce s found }]
  | parallel shell steps =>
      return match shell.output with
        | some output => [shell.gathering steps (exitsAll context steps) output]
        | none => []
  | conditional shell condition yes no =>
      return [{
        id := shell.id
        deps := []
        stepId := some shell.id
        policy := shell.policy
        task := .conditional shell condition (.inside tools yes) (.inside tools no) }]

/-- The drafts are those of the nodes that a station makes. -/
structure Place.Drafted (tools : Registry) (context : Value) (S : Place) (drafts : List Draft) :
    Prop where
  nodes : S.step.block tools context = .ok (drafts.map Draft.node)
  declared : ∀ d ∈ drafts, ∀ id, id ∈ d.declared ↔ id ∈ S.declared

/-- The drafts are those of the stations among these places and inside them. -/
def Place.DraftedAll (tools : Registry) (context : Value) (Ps : List Place) (drafts : List Draft) :
    Prop :=
  ∃ blocks : List (Place × List Draft), (blocks.map Prod.fst).Perm (Ps.flatMap stations) ∧
    (∀ b ∈ blocks, b.1.Drafted tools context b.2) ∧ drafts = blocks.flatMap Prod.snd

variable {tools : Registry} {context : Value}

/-- The nodes of a step name it, and only a conditional has the node of one, with its own
branches. -/
theorem Step.of_mem_block {s : Step} {nodes : List Node} (h : s.block tools context = .ok nodes)
    {n : Node} (hn : n ∈ nodes) : n.stepId = some s.id ∧
      ∀ shell condition yes no, n.task = .conditional shell condition yes no →
        ∃ ys ns, s = conditional shell condition ys ns ∧ yes = .inside tools ys ∧
          no = .inside tools ns := by
  -- by what the step leaves in the graph: a loop and a group may leave several nodes, each other
  -- kind one
  cases s with
  | loop s =>
    obtain ⟨tool, -, h⟩ := bind_eq_ok_iff.1 h
    obtain rfl := pure_eq_ok_iff.1 h
    split at hn
    · rcases List.mem_append.1 hn with hn | hn
      · obtain ⟨item, -, rfl⟩ := List.mem_map.1 hn
        exact ⟨rfl, fun _ _ _ _ htask => by cases htask⟩
      · obtain rfl := List.mem_singleton.1 hn
        exact ⟨rfl, fun _ _ _ _ htask => by cases htask⟩
    · obtain rfl := List.mem_singleton.1 hn
      exact ⟨rfl, fun _ _ _ _ htask => by cases htask⟩
  | parallel shell steps =>
    obtain rfl := pure_eq_ok_iff.1 h
    split at hn
    · obtain rfl := List.mem_singleton.1 hn
      exact ⟨rfl, fun _ _ _ _ htask => by cases htask⟩
    · cases hn
  | conditional shell condition ys ns =>
    obtain rfl := pure_eq_ok_iff.1 h
    obtain rfl := List.mem_singleton.1 hn
    refine ⟨rfl, fun _ _ _ _ htask => ?_⟩
    cases htask
    exact ⟨ys, ns, rfl, rfl, rfl⟩
  | _ s =>
    obtain ⟨tool, -, h⟩ := bind_eq_ok_iff.1 h
    obtain rfl := pure_eq_ok_iff.1 h
    obtain rfl := List.mem_singleton.1 hn
    exact ⟨rfl, fun _ _ _ _ htask => by cases htask⟩

/-! ## Drafts of expansions -/

namespace Place

theorem DraftedAll.nil : DraftedAll tools context [] [] :=
  ⟨[], .refl _, fun _ hb => absurd hb List.not_mem_nil, rfl⟩

/-- The nodes of two lists of places are those of both. -/
theorem DraftedAll.append {Ps Qs : List Place} {ds es : List Draft}
    (hd : DraftedAll tools context Ps ds) (he : DraftedAll tools context Qs es) :
    DraftedAll tools context (Ps ++ Qs) (ds ++ es) := by
  obtain ⟨bs, hbs, hbdrafted, rfl⟩ := hd
  obtain ⟨cs, hcs, hcdrafted, rfl⟩ := he
  refine ⟨bs ++ cs, ?_, List.forall_mem_append.2 ⟨hbdrafted, hcdrafted⟩, List.flatMap_append.symm⟩
  rw [List.map_append, List.flatMap_append]
  exact hbs.append hcs

/-- A step without a group has the drafts of its own nodes. -/
theorem DraftedAll.alone {P : Place} (hP : P.home = none) (hgroup : P.step.group = [])
    {ds : List Draft} (hds : P.Drafted tools context ds) : DraftedAll tools context [P] ds := by
  refine ⟨[(P, ds)], ?_, fun b hb => List.mem_singleton.1 hb ▸ hds, (List.append_nil ds).symm⟩
  rw [List.flatMap_singleton, stations_of_group_eq_nil hP hgroup]
  exact .refl _

/-- A group has the drafts of its own nodes behind those of its members. -/
theorem DraftedAll.group {P : Place} (hP : P.home = none) {inside ds : List Draft}
    (hinside : DraftedAll tools context P.members inside) (hds : P.Drafted tools context ds) :
    DraftedAll tools context [P] (inside ++ ds) := by
  obtain ⟨blocks, hblocks, hdrafted, rfl⟩ := hinside
  refine ⟨blocks ++ [(P, ds)], ?_, ?_, ?_⟩
  · rw [List.flatMap_singleton, stations_eq_cons hP, List.map_append]
    exact List.perm_append_comm.trans (hblocks.cons P)
  · exact List.forall_mem_append.2 ⟨hdrafted, fun b hb => List.mem_singleton.1 hb ▸ hds⟩
  · rw [List.flatMap_append, List.flatMap_singleton]

theorem Drafted.stepId {S : Place} {ds : List Draft} (h : S.Drafted tools context ds) :
    ∀ d ∈ ds, d.node.stepId = some S.id := fun _ hd =>
  (Step.of_mem_block h.nodes (List.mem_map_of_mem hd)).1

/-- If no two stations have the same id, the drafts that name one of them are its own. -/
theorem filter_of_nodup {blocks : List (Place × List Draft)}
    (hblocks : ∀ b ∈ blocks, b.1.Drafted tools context b.2)
    (hnodup : (blocks.map fun b => b.1.id).Nodup) {b : Place × List Draft} (hb : b ∈ blocks) :
    (blocks.flatMap Prod.snd).filter (fun d => d.node.stepId = some b.1.id) = b.2 := by
  -- of every block either all nodes name the step or none does
  have hfilter : ∀ a ∈ blocks, a.2.filter (fun d => d.node.stepId = some b.1.id)
      = if a.1.id = b.1.id then a.2 else [] := fun a ha => by
    split
    · rename_i heq
      exact List.filter_eq_self.2 fun d hd => by simpa [heq] using (hblocks a ha).stepId d hd
    · rename_i hne
      refine List.filter_eq_nil_iff.2 fun d hd => ?_
      simpa [(hblocks a ha).stepId d hd] using hne
  rw [List.filter_flatMap]
  induction blocks with
  | nil => cases hb
  | cons a rest ih =>
    obtain ⟨hnew, hrest⟩ := List.nodup_cons.1 hnodup
    rw [List.flatMap_cons, hfilter a List.mem_cons_self]
    rcases List.mem_cons.1 hb with rfl | hb
    · rw [if_pos rfl, List.flatMap_eq_nil_iff.2, List.append_nil]
      intro c hc
      rw [hfilter c (List.mem_cons_of_mem b hc), if_neg]
      exact fun heq => hnew (List.mem_map.2 ⟨c, hc, heq⟩)
    · rw [if_neg, List.nil_append]
      · exact ih (fun c hc => hblocks c (List.mem_cons_of_mem a hc)) hrest hb
          fun c hc => hfilter c (List.mem_cons_of_mem a hc)
      · exact fun heq => hnew (List.mem_map.2 ⟨b, hb, heq.symm⟩)

/-- The nodes of a block, all waiting for what is declared, are what a place has drafted. -/
theorem Drafted.of_block {P : Place} {nodes : List Node} {declared : List String}
    (hnodes : P.step.block tools context = .ok nodes)
    (hdeclared : ∀ id, id ∈ declared ↔ id ∈ P.declared) :
    P.Drafted tools context (nodes.map fun node => ⟨node, declared⟩) where
  nodes := by
    rw [hnodes, List.map_map]
    exact congrArg _ (List.map_id nodes).symm
  declared d hd := by
    obtain ⟨node, -, rfl⟩ := List.mem_map.1 hd
    exact hdeclared

end Place

namespace Step

/-- A loop drafts its block, whether its array is there or not. -/
theorem drafts_loop {s : LoopStep} {declared : List String} {e : Expansion}
    (h : s.expand tools context declared = .ok e) :
    ∃ nodes, (loop s).block tools context = .ok nodes ∧
      e.drafts = nodes.map fun node => ⟨node, declared⟩ := by
  obtain ⟨tool, htool, -⟩ := bind_eq_ok_iff.1 h
  -- the block asks the same question of the context as the expansion does
  rw [block, htool, LoopStep.known?]
  refine ⟨_, rfl, ?_⟩
  split
  · rename_i items hitems
    split at hitems
    · rename_i hderef
      obtain ⟨e', he', hdrafts⟩ := LoopStep.expand_of_known htool hderef declared
      obtain rfl := Except.ok.inj (h.symm.trans he')
      rw [hdrafts, Option.some.inj hitems]
    · cases hitems
  · rename_i hitems
    split at hitems
    · cases hitems
    · rename_i hderef
      obtain ⟨e', he', hdrafts⟩ := LoopStep.expand_of_unknown htool hderef declared
      obtain rfl := Except.ok.inj (h.symm.trans he')
      exact hdrafts

/-- A step without a group is expanded to its own nodes. -/
theorem drafts_expand {s : Step} (hkind : s.kind ≠ "parallel") {inherited : List String}
    {e : Expansion} (h : expand tools context inherited s = .ok e) :
    ∃ nodes declared, s.block tools context = .ok nodes ∧
      e.drafts = nodes.map (fun node => ⟨node, declared⟩) ∧
      ∀ id, id ∈ declared ↔ (id ∈ inherited ∨ id ∈ s.dependsOn) ∨ id ∈ s.lifted := by
  -- all but conditionals wait for what they inherit and what they name, and lift nothing
  have hplain : ∀ id, id ∈ distinct (inherited ++ s.dependsOn)
      ↔ (id ∈ inherited ∨ id ∈ s.dependsOn) ∨ id ∈ ([] : List String) := fun id => by
    rw [mem_distinct, List.mem_append, or_iff_left List.not_mem_nil]
  cases s with
  | parallel shell steps => exact absurd rfl hkind
  | tool s =>
    rw [expand, bind_eq_ok_iff] at h
    obtain ⟨first, hfirst, h⟩ := h
    obtain rfl := pure_eq_ok_iff.1 h
    obtain ⟨tool, htool, hfirst⟩ := bind_eq_ok_iff.1 hfirst
    obtain rfl := pure_eq_ok_iff.1 hfirst
    rw [block, htool]
    exact ⟨_, _, rfl, Expansion.drafts_named _ _, hplain⟩
  | final s =>
    rw [expand, bind_eq_ok_iff] at h
    obtain ⟨first, hfirst, h⟩ := h
    obtain rfl := pure_eq_ok_iff.1 h
    obtain ⟨tool, htool, hfirst⟩ := bind_eq_ok_iff.1 hfirst
    obtain rfl := pure_eq_ok_iff.1 hfirst
    rw [block, htool]
    exact ⟨_, _, rfl, Expansion.drafts_named _ _, hplain⟩
  | reduce s =>
    rw [expand, bind_eq_ok_iff] at h
    obtain ⟨first, hfirst, h⟩ := h
    obtain rfl := pure_eq_ok_iff.1 h
    obtain ⟨tool, htool, hfirst⟩ := bind_eq_ok_iff.1 hfirst
    obtain rfl := pure_eq_ok_iff.1 hfirst
    rw [block, htool]
    refine ⟨_, _, rfl, (Expansion.drafts_named _ _).trans ?_, hplain⟩
    split
    · rfl
    · exact Expansion.drafts_named _ _
  | loop s =>
    rw [expand, bind_eq_ok_iff] at h
    obtain ⟨first, hfirst, h⟩ := h
    obtain rfl := pure_eq_ok_iff.1 h
    obtain ⟨nodes, hnodes, hdrafts⟩ := drafts_loop hfirst
    exact ⟨nodes, _, hnodes, (Expansion.drafts_named _ _).trans hdrafts, hplain⟩
  | conditional shell condition yes no =>
    rw [expand, bind_eq_ok_iff] at h
    obtain ⟨first, hfirst, h⟩ := h
    obtain rfl := pure_eq_ok_iff.1 h
    obtain ⟨-, -, hfirst⟩ := bind_eq_ok_iff.1 hfirst
    obtain rfl := pure_eq_ok_iff.1 hfirst
    refine ⟨_, _, rfl, (Expansion.drafts_named _ _).trans (Expansion.drafts_namedAll _ _),
      fun id => ?_⟩
    rw [mem_distinct, List.mem_append, mem_distinct, List.mem_append]
    rfl

/-- Steps that stand side by side draft what each of them does. -/
theorem drafted_expandAll {inherited scope : List String} {steps : List Step}
    (hsteps : ∀ s ∈ steps, ∀ e, expand tools context inherited s = .ok e →
      Place.DraftedAll tools context [⟨s, scope, none⟩] e.drafts) {e : Expansion}
    (h : expandAll tools context inherited steps = .ok e) :
    Place.DraftedAll tools context (steps.map fun s => ⟨s, scope, none⟩) e.drafts := by
  induction steps generalizing e with
  | nil =>
    rw [expandAll] at h
    obtain rfl := Except.ok.inj h
    exact .nil
  | cons s steps ih =>
    obtain ⟨first, rest, hfirst, hrest, rfl⟩ := expandAll_cons_eq_ok.1 h
    have hdrafted := ih (fun t ht => hsteps t (List.mem_cons_of_mem s ht)) hrest
    exact (hsteps s List.mem_cons_self first hfirst).append hdrafted

/-- A step that is no group drafts its own block. -/
theorem drafted_alone {P : Place} (hP : P.home = none) (hkind : P.step.kind ≠ "parallel")
    {inherited : List String} (hinherited : ∀ id, id ∈ inherited ↔ id ∈ P.inherited) {e : Expansion}
    (h : expand tools context inherited P.step = .ok e) :
    Place.DraftedAll tools context [P] e.drafts := by
  obtain ⟨nodes, declared, hnodes, hdrafts, hdeclared⟩ := drafts_expand hkind h
  rw [hdrafts]
  refine .alone hP (group_eq_nil hkind) (.of_block hnodes fun id => ?_)
  rw [hdeclared, Place.declared, Place.awaited, List.mem_append, List.mem_append, hinherited]

/-- The drafts of a step are those of the stations at its place. -/
theorem drafted_expand {P : Place} (hP : P.home = none) {inherited : List String}
    (hinherited : ∀ id, id ∈ inherited ↔ id ∈ P.inherited) {e : Expansion}
    (h : expand tools context inherited P.step = .ok e) :
    Place.DraftedAll tools context [P] e.drafts := by
  induction P using Place.induction generalizing inherited e with
  | h P ih =>
    obtain ⟨step, scope, home⟩ := P
    obtain rfl : home = none := hP
    cases step with
    | parallel shell steps =>
      rw [expand] at h
      obtain ⟨inside, hinside, h⟩ := bind_eq_ok_iff.1 h
      obtain rfl := pure_eq_ok_iff.1 h
      have hscope : ∀ id, id ∈ distinct (inherited ++ shell.dependsOn)
          ↔ id ∈ scope ++ shell.dependsOn := fun id => by
        rw [mem_distinct, List.mem_append, hinherited, List.mem_append]
      have hcovers : inside.Covers context (steps.map fun s => ⟨s, scope ++ shell.dependsOn, none⟩) :=
        covers_expandAll (fun s _ _ he => covers_expand (P := ⟨s, _, none⟩) rfl hscope he) hinside
      -- the gathering node waits for what the steps inside end with
      have hexits : inside.exits = exitsAll context steps := by
        rw [hcovers.exits, List.flatMap_map, exitsAll_eq_flatMap]
      have hmembers : Place.DraftedAll tools context
          (steps.map fun s => ⟨s, scope ++ shell.dependsOn, none⟩) inside.drafts :=
        drafted_expandAll (fun s hs _ he =>
          ih ⟨s, _, none⟩ (Place.mem_members.2 ⟨s, hs, rfl⟩) rfl hscope he) hinside
      have hdeclared : ∀ id, id ∈ distinct (inherited ++ shell.dependsOn)
          ↔ id ∈ (⟨parallel shell steps, scope, none⟩ : Place).declared := fun id => by
        rw [hscope, Place.declared, lifted_eq_nil (by simp [kind]), List.append_nil]
        rfl
      have hdrafts := hmembers.group (P := ⟨parallel shell steps, scope, none⟩) rfl
        (.of_block rfl hdeclared)
      rw [Expansion.drafts_named, Shell.expandParallel]
      cases houtput : shell.output with
      | none => simpa [houtput] using hdrafts
      | some output => simpa [houtput, hexits] using hdrafts
    | _ => exact drafted_alone rfl (by simp [kind]) hinherited h

/-- The drafts of steps that are expanded by themselves are those of their stations. -/
theorem drafted_steps {steps : List Step} {e : Expansion}
    (h : expandAll tools context [] steps = .ok e) :
    Place.DraftedAll tools context (steps.map fun s => ⟨s, [], none⟩) e.drafts :=
  drafted_expandAll (fun s _ _ he => drafted_expand (P := ⟨s, [], none⟩) rfl (fun _ => Iff.rfl) he) h

end Step

/-! ## Nodes of graphs -/

/-- The node is the other one, and may wait for more. -/
structure Node.Completes (n m : Node) : Prop where
  same : n = { m with deps := n.deps }
  deps : m.deps ⊆ n.deps

namespace Plan

variable {p : Plan} {g : Graph}

/-- The nodes of a graph come in blocks, one for each station. -/
theorem nodes_of_compile (h : p.compile tools context = .ok g) :
    (∀ n ∈ g.nodes, ∃ S ∈ p.places, S.home = none ∧
      ∃ block, S.step.block tools context = .ok block ∧ ∃ m ∈ block, n.Completes m) ∧
    ∀ S ∈ p.places, S.home = none →
      ∃ block, S.step.block tools context = .ok block ∧
        ∀ m ∈ block, ∃ n ∈ g.nodes, n.Completes m := by
  obtain ⟨e, he, -, hc⟩ := compiled_of_compile h
  obtain ⟨blocks, hblocks, hdrafted, hdrafts⟩ := Step.drafted_steps he
  have hfinish : ∀ d : Draft, (e.finish d).Completes d.node := fun d =>
    ⟨rfl, fun _ hm => Compiled.mem_deps_finish.2 (.inr hm)⟩
  refine ⟨fun n hn => ?_, fun S hS hhome => ?_⟩
  · rw [hc.nodes, hdrafts] at hn
    obtain ⟨d, hd, rfl⟩ := List.mem_map.1 hn
    obtain ⟨b, hb, hd⟩ := List.mem_flatMap.1 hd
    obtain ⟨hS, hhome⟩ := mem_stations.1 (hblocks.subset (List.mem_map.2 ⟨b, hb, rfl⟩))
    exact ⟨b.1, hS, hhome, _, (hdrafted b hb).nodes, d.node, List.mem_map_of_mem hd, hfinish d⟩
  · obtain ⟨b, hb, rfl⟩ := List.mem_map.1 (hblocks.symm.subset (mem_stations.2 ⟨hS, hhome⟩))
    refine ⟨_, (hdrafted b hb).nodes, fun m hm => ?_⟩
    obtain ⟨d, hd, rfl⟩ := List.mem_map.1 hm
    refine ⟨e.finish d, ?_, hfinish d⟩
    rw [hc.nodes, hdrafts]
    exact List.mem_map_of_mem (List.mem_flatMap.2 ⟨b, hb, hd⟩)

end Plan

end Wavefront
