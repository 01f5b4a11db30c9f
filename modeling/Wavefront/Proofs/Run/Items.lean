/-
The items of a loop: what the calls of its iterations have bound.

A loop over something that is an array when the loop is expanded has a node for each item, and the
item is part of the node. So its items are those of the context that it was expanded in, which for a
loop of a plan is the one that the plan was compiled in, and for a loop in a branch the one that the
conditional has read; they are those of a later context as long as what the loop refers to reads the
same. Any other loop has one node, and its items are those of the context at the first turn of that
node, like those of a reduce step. That context came up after all that the loop waits for had been
executed.
-/
import Wavefront.Proofs.Run.Seen
import Wavefront.Proofs.Run.Site
import Wavefront.Proofs.Value.Template
import Wavefront.Schema.Reader

set_option autoImplicit false

namespace Wavefront

/-! ## References -/

namespace Value

/-- The paths that are read for a reference to a collection. -/
def readings : Value → List String
  | string text => [(Template.path? text).getD text]
  | array items => mentions (array items)
  | null | bool _ | number _ | object _ => []

/-- The items that a reference stands for depend on what is read for it. -/
theorem itemsAt_congr {reference c d : Value} (h : ReadsSame reference.readings c d) :
    c.itemsAt reference = d.itemsAt reference := by
  cases reference with
  | string text =>
    have hread := h _ (List.mem_singleton_self _)
    rw [itemsAt, itemsAt, deref, deref]
    cases hc : c.resolve ((Template.path? text).getD text) with
    | none =>
      rw [hc] at hread
      cases hd : d.resolve ((Template.path? text).getD text) with
      | none => rfl
      | some v =>
        rw [hd] at hread
        obtain rfl : null = v := hread
        rfl
    -- reading the same is up to null, which is no array either way
    | some u =>
      rw [hc] at hread
      cases hd : d.resolve ((Template.path? text).getD text) with
      | none =>
        rw [hd] at hread
        obtain rfl : u = null := hread
        rfl
      | some v =>
        rw [hd] at hread
        obtain rfl : u = v := hread
        rfl
  | array items => rw [itemsAt, itemsAt, deref, deref, substitute_congr h]
  | null => rfl
  | bool b => rfl
  | number n => rfl
  | object fields => rfl

end Value

namespace LoopStep

/-- The items are there in a context: the reference leads to an array, or is an array whose
templates lead somewhere. -/
def FoundIn (s : LoopStep) (c : Value) : Prop :=
  (s.known? c).isSome ∧
    ∀ items, s.items = .array items → ∀ path ∈ s.items.mentions, (c.resolve path).isSome

/-- Items that are known when the loop is expanded are those of the context it is expanded in. -/
theorem itemsAt_of_known {s : LoopStep} {c : Value} {items : List Value}
    (h : s.known? c = some items) : c.itemsAt s.items = items := by
  rw [known?] at h
  split at h
  · rename_i found hderef
    have hfound : c.itemsAt s.items = found := by rw [Value.itemsAt, hderef]
    exact hfound.trans (Option.some.inj h)
  · cases h

end LoopStep

/-! ## Bound items -/

/-- What a name is bound to in the scope of a call. -/
def Call.bound (name : String) (call : Call) : Option Value := Fields.get? name call.scope.fields

theorem Call.bound_ofTemplate (tool : Tool) (input : Value) (name : String) (item c : Value) :
    (Call.ofTemplate tool input (c.bind name item)).bound name = some item :=
  Fields.get?_insert_self name item c.fields

namespace Site

variable {tools : Registry}

/-- What the calls of all nodes of a loop have bound, when each node is begun in its context. -/
def itemsBound (Z : Site tools) (s : LoopStep) (read : String → Value) : List (Option Value) :=
  (Z.graph.nodes.filter fun n => n.stepId = some s.id).flatMap fun n =>
    (n.task.calls (read n.id)).map (Call.bound s.binder)

/-- How a loop comes by its items, when its node is carried out by way of some conditionals. -/
structure BindsItems (Z : Site tools) (via : List (Site tools)) (s : LoopStep) : Prop where
  /-- The nodes wait for all that is declared where they stand. -/
  awaits : ∀ B ∈ Z :: via, ∃ S ∈ B.stations, B.node.stepId = some S.id ∧
    ∀ id ∈ S.awaited, B.Awaits id
  /-- The nodes of the conditionals also wait for what is declared for the loop in its branch, unless
  it is inside the conditional. -/
  lifted : ∀ S ∈ Z.stations, ∀ id ∈ S.awaited, ∀ B ∈ via, B.Awaits id ∨ id ∈ B.innerIds
  /-- If the items are there when the loop is expanded, they are what its nodes have bound, and they
  are those of any context where what the loop refers to reads the same. -/
  found : s.FoundIn Z.context → ∀ c, Value.ReadsSame s.items.readings Z.context c → ∀ read,
    Z.itemsBound s read = (c.itemsAt s.items).map some
  /-- If the loop refers to no array then, its one node has those items bound that there are in the
  context that it reads. -/
  unknown : s.known? Z.context = none → ∀ read,
    Z.itemsBound s read = ((read s.id).itemsAt s.items).map some
  /-- It calls its tool for them like a reduce step. -/
  calls : s.known? Z.context = none → Z.node.id = s.id ∧
    ∃ tool, ∀ d, Z.node.task.calls d = (d.itemsAt s.items).map (s.callFor tool d)
  /-- Either way there are no other items: the elements that the expansion knows are bound, or those
  that there are in the context that the node reads. -/
  bound : ∀ read, Z.itemsBound s read
    = ((s.known? Z.context).getD ((read s.id).itemsAt s.items)).map some

/-- What is bound depends on the ids and the tasks of the nodes only. -/
theorem flatMap_calls_congr {nodes nodes' : List Node} (name : String) (read : String → Value)
    (h : nodes.map (fun n => (n.id, n.task)) = nodes'.map fun n => (n.id, n.task)) :
    (nodes.flatMap fun n => (n.task.calls (read n.id)).map (Call.bound name))
      = nodes'.flatMap fun n => (n.task.calls (read n.id)).map (Call.bound name) := by
  have hmap : ∀ l : List Node, (l.flatMap fun n => (n.task.calls (read n.id)).map (Call.bound name))
      = (l.map fun n => (n.id, n.task)).flatMap fun p =>
        (p.2.calls (read p.1)).map (Call.bound name) := fun l => by
    rw [List.flatMap_map]
  rw [hmap, hmap, h]

/-- Unrolled over some items, the iterations have bound just these, each one its own. -/
theorem bound_unrolled (s : LoopStep) (tool : Tool) (items : List Value) (read : String → Value) :
    ((s.unrolled tool items).nodes.flatMap fun n =>
      (n.task.calls (read n.id)).map (Call.bound s.binder)) = items.map some := by
  have hiteration : ∀ item ∈ items.zipIdx, ((s.iteration tool item.2 item.1).task.calls
      (read (iterationId s.id item.2))).map (Call.bound s.binder) = [some item.1] := fun item _ =>
    congrArg (fun bound => [bound]) (Call.bound_ofTemplate tool s.body.input s.binder item.1 _)
  -- the node that gathers the results makes no calls
  have hgathering : ([s.gathering items].flatMap fun n =>
      (n.task.calls (read n.id)).map (Call.bound s.binder)) = [] := rfl
  have hitems : items.zipIdx.map (fun item => some item.1) = items.map some := by
    change items.zipIdx.map (some ∘ Prod.fst) = _
    rw [← List.map_map, List.zipIdx_map_fst]
  rw [LoopStep.unrolled, List.flatMap_append, hgathering, List.append_nil, LoopStep.iterations,
    List.flatMap_map, ← hitems, List.map_eq_flatMap]
  exact List.flatMap_congr hiteration

/-- The one node of a loop that is expanded later has bound what it finds at its own turn. -/
theorem bound_rolled (s : LoopStep) (tool : Tool) (read : String → Value) :
    ((s.rolled tool).nodes.flatMap fun n =>
      (n.task.calls (read n.id)).map (Call.bound s.binder))
      = ((read s.id).itemsAt s.items).map some := by
  have hnode : ((s.rolled tool).nodes.flatMap fun n =>
      (n.task.calls (read n.id)).map (Call.bound s.binder))
      = (((read s.id).itemsAt s.items).map (s.callFor tool (read s.id))).map (Call.bound s.binder) :=
    List.append_nil _
  rw [hnode, List.map_map]
  exact List.map_congr_left fun item _ =>
    Call.bound_ofTemplate tool s.body.input s.binder item (read s.id)

/-- The nodes of a loop have its items bound. -/
theorem itemsBound_eq (Z : Site tools) (hnodup : ((Step.nestedList Z.steps).map Step.id).Nodup)
    {s : LoopStep} {S : Place} (hS : S ∈ Z.stations) (hstep : S.step = .loop s)
    (read : String → Value) :
    Z.itemsBound s read
      = ((s.known? Z.context).getD ((read s.id).itemsAt s.items)).map some := by
  -- the nodes of the site with the id of the loop are those that the loop was expanded to
  obtain ⟨nodes, hnodes, hsame⟩ := Z.nodes_of_station hnodup hS
  rw [Place.id, hstep] at hsame
  rw [hstep] at hnodes
  obtain ⟨tool, -, hnodes⟩ := bind_eq_ok_iff.1 hnodes
  obtain rfl := pure_eq_ok_iff.1 hnodes
  have hbound : Z.itemsBound s read = _ := flatMap_calls_congr s.binder read hsame
  rw [hbound]
  cases s.known? Z.context with
  | none => exact bound_rolled s tool read
  | some items => exact bound_unrolled s tool items read

/-- How the loop that a node is of comes by its items, wherever the loop stands in a plan. -/
theorem bindsItems (Z : Site tools) {via : List (Site tools)} {steps : List Step}
    (hsteps : (Step.nestedList Z.steps).Sublist steps) (hnodup : (steps.map Step.id).Nodup)
    {s : LoopStep} (hs : .loop s ∈ steps) (hid : Z.node.stepId = some s.id)
    (hlifted : ∀ S ∈ Z.stations, ∀ id ∈ S.awaited, ∀ B ∈ via, B.Awaits id ∨ id ∈ B.innerIds) :
    Z.BindsItems via s := by
  obtain ⟨⟨S, hS, hstep⟩, nodes, hnodes, n, hn, hnid, htask⟩ :=
    Z.exists_maker_of_stepId hsteps hnodup hs hid
  have hbound := Z.itemsBound_eq ((hsteps.map Step.id).nodup hnodup) hS hstep
  constructor
  case awaits =>
    intro B _
    obtain ⟨T, hT, hTid, -, hawaits⟩ := B.exists_maker
    exact ⟨T, hT, hTid, fun id hid => hawaits id (List.mem_append_left _ hid)⟩
  case lifted => exact hlifted
  case found =>
    intro hfound c hread read
    obtain ⟨items, hitems⟩ := Option.isSome_iff_exists.1 hfound.1
    rw [hbound, hitems, ← Value.itemsAt_congr hread, LoopStep.itemsAt_of_known hitems]
    rfl
  case unknown =>
    intro hunknown read
    rw [hbound, hunknown]
    rfl
  case bound => exact hbound
  case calls =>
    intro hunknown
    obtain ⟨tool, -, hnodes⟩ := bind_eq_ok_iff.1 hnodes
    obtain rfl := pure_eq_ok_iff.1 hnodes
    rw [hunknown] at hn
    obtain rfl := List.mem_singleton.1 hn
    exact ⟨hnid.symm, tool, fun d => by rw [← htask]; rfl⟩

end Site

/-! ## Calls of an execution -/

namespace Plan

variable {p : Plan} {tools : Registry} {context : Value} {g : Graph}

/-- What calls are under way in some place of the wave: those that the node of a site makes when it
is begun in a context. That context came up after everything had been executed that the node in the
graph of the plan waits for, be it the same node or that of a conditional around it. -/
structure CallsAt [Schema.Validator] (p : Plan) (context : Value) (g : Graph) (mode : Mode)
    (o : Options)
    (e : Execution) (i : Nat) (f : Fanout) (via : List (Site tools)) (Z : Site tools) (d : Value) :
    Prop where
  carried : ∃ (A : Site tools) (start : Execution) (cs ds : List Value), A.steps = p.steps ∧
    A.context = context ∧ A.graph = g ∧ A.node.id = e.wave.idAt i ∧
    g.Reaches context mode o start ∧ Execution.Sees o start cs e ∧
    (∀ m ∈ A.node.deps, ∃ entry ∈ start.wave.entries, entry.nodeId = m ∧ entry.IsSettled) ∧
    A.CarriesOut o.settings cs via Z (d :: ds)
  leaves : f.Leaves (Z.node.task.calls d)

/-- Take any calls that are under way in an execution of a plan that has been compiled. They are
those of a node that was begun in a context that is there after all that the node waits for. If the
node is that of a loop, then the nodes of the loop have bound the items that the loop found when it
was expanded, or else those of the context in which its node was begun. If it is that of a reduce
step, the items are those of the context in which it was begun. -/
theorem items_of_calls [Schema.Validator] (h : p.compile tools context = .ok g) {mode : Mode}
    {o : Options}
    {e : Execution} (hreach : g.Reaches context mode o e) {i : Nat} {f : Fanout}
    (hf : e.wave.fanoutAt? i = some f) :
    ∃ (via : List (Site tools)) (Z : Site tools) (d : Value),
      p.CallsAt context g mode o e i f via Z d ∧
      (∀ s, .loop s ∈ p.allSteps → Z.node.stepId = some s.id → Z.BindsItems via s) ∧
      ∀ s, .reduce s ∈ p.allSteps → Z.node.stepId = some s.id →
        ∃ tool, Z.node.task.calls d = (d.itemsAt s.input).map (s.callFor tool d) := by
  obtain ⟨x, hx, hg, hcompiled⟩ := compiled_of_compile h
  obtain ⟨start, cs, hstart, hsees, n, hn, hid, hcalls, hdeps⟩ := hreach.exists_calls hf
  -- the outermost site: the whole plan, expanded in the context it is compiled in
  let A : Site tools := ⟨p.steps, context, x, g, n, hx, hg, hn⟩
  have hnodup := hcompiled.sound.nodup_steps
  -- from there through conditionals to the site of the step that calls
  obtain ⟨via, Z, d, ds, hcarries, hleaves⟩ := A.exists_calls hcalls
  have hsteps : (Step.nestedList Z.steps).Sublist p.allSteps := hcarries.nestedList_sublist
  refine ⟨via, Z, d, ⟨⟨A, start, cs, ds, rfl, rfl, rfl, hid.symm, hstart, hsees, hdeps, hcarries⟩,
    hleaves⟩, fun s hs hsid => ?_, fun s hs hsid => ?_⟩
  · exact Z.bindsItems hsteps hnodup hs hsid
      fun S hS id hid B hB => hcarries.awaits_or_mem_innerIds hnodup B hB id (Z.awaited_subset hS hid)
  · obtain ⟨-, nodes, hnodes, n, hn, -, htask⟩ := Z.exists_maker_of_stepId hsteps hnodup hs hsid
    obtain ⟨tool, -, hnodes⟩ := bind_eq_ok_iff.1 hnodes
    obtain rfl := pure_eq_ok_iff.1 hnodes
    obtain rfl := List.mem_singleton.1 hn
    exact ⟨tool, by rw [← htask]; rfl⟩

/-- A loop over something that the step before it writes. -/
def loopOverWritten : Plan where
  version := "1"
  steps := [
    .tool { id := "a", tool := "echo", input := .array [.string "new"], output := some "xs" },
    .loop {
      id := "l"
      items := .string "xs"
      binder := "x"
      body := { id := "", tool := "echo", input := .string "{{x}}" }
      dependsOn := ["a"] }]

/-- Where there is nothing yet when the plan is compiled, the loop has the new item. -/
theorem items_of_calls_loopOverWritten :
    ∃ g e f, loopOverWritten.compile .standard (.object []) = .ok g ∧
      g.Reaches (.object []) .dag { planId := "p" } e ∧ e.wave.fanoutAt? 0 = some f ∧
      f.calls.map (Call.bound "x") = [some (.string "new")] ∧
      ∃ (via : List (Site .standard)) (Z : Site .standard) (d : Value),
        loopOverWritten.CallsAt (.object []) g .dag { planId := "p" } e 0 f via Z d ∧
        (∀ s, .loop s ∈ loopOverWritten.allSteps → Z.node.stepId = some s.id →
          Z.BindsItems via s) ∧
        ∀ s, .reduce s ∈ loopOverWritten.allSteps → Z.node.stepId = some s.id →
          ∃ tool, Z.node.task.calls d = (d.itemsAt s.input).map (s.callFor tool d) := by
  have hbound : ((loopOverWritten.compile .standard (.object [])).toOption.bind fun g =>
      ((g.paused (.object []) .dag { planId := "p" } 2 6).wave.fanoutAt? 0).map fun f =>
        f.calls.map (Call.bound "x")) = some [some (.string "new")] := by cbv
  obtain ⟨g, hg⟩ := exists_eq_ok_of_isOk (x := loopOverWritten.compile .standard (.object []))
    (by cbv)
  rw [hg] at hbound
  obtain ⟨f, hf, hbound⟩ := Option.map_eq_some_iff.1 hbound
  have hreach := g.reaches_paused (.object []) .dag { planId := "p" } 2 6
  exact ⟨g, _, f, hg, hreach, hf, hbound, items_of_calls hg hreach hf⟩

/-- Where there is an array already when the plan is compiled, the loop has its item, though the
step that the loop waits for has been executed with success and what the loop refers to is the new
array. -/
theorem loopOverWritten_binds_old :
    ∃ g e f, loopOverWritten.compile .standard (.object [("xs", .array [.string "old"])]) = .ok g ∧
      g.Reaches (.object [("xs", .array [.string "old"])]) .dag { planId := "p" } e ∧
      (∃ entry ∈ e.wave.entries, entry.nodeId = "a" ∧ entry.status = .success) ∧
      e.wave.world.context.itemsAt (.string "xs") = [.string "new"] ∧
      e.wave.idAt 0 = iterationId "l" 0 ∧ e.wave.fanoutAt? 0 = some f ∧
      f.calls.map (Call.bound "x") = [some (.string "old")] := by
  let context : Value := .object [("xs", .array [.string "old"])]
  have hwave : ((loopOverWritten.compile .standard (.object [("xs", .array [.string "old"])])).toOption.map
      fun g =>
        let w := (g.paused (.object [("xs", .array [.string "old"])]) .dag { planId := "p" } 2 6).wave
        (w.entries.map fun entry => (entry.nodeId, entry.status), w.world.context.itemsAt (.string "xs"),
          w.idAt 0, (w.fanoutAt? 0).map fun f => f.calls.map (Call.bound "x")))
      = some ([("a", .success), ("l_iter_0", .running)], [.string "new"], "l_iter_0",
          some [some (.string "old")]) := by cbv
  -- the node has bound the item of the first context although the other one has been written by now
  obtain ⟨g, hg⟩ := exists_eq_ok_of_isOk (x := loopOverWritten.compile .standard context) (by cbv)
  rw [hg] at hwave
  obtain ⟨hentries, hwave⟩ := Prod.mk.inj (Option.some.inj hwave)
  obtain ⟨hitems, hwave⟩ := Prod.mk.inj hwave
  obtain ⟨hid, hfanout⟩ := Prod.mk.inj hwave
  obtain ⟨f, hf, hbound⟩ := Option.map_eq_some_iff.1 hfanout
  have hentry : ("a", Status.success) ∈ ((g.paused context .dag { planId := "p" } 2 6).wave.entries.map
      fun entry => (entry.nodeId, entry.status)) := by
    rw [hentries]
    exact List.mem_cons_self
  obtain ⟨entry, hmem, hentry⟩ := List.mem_map.1 hentry
  obtain ⟨hnode, hstatus⟩ := Prod.mk.inj hentry
  exact ⟨g, _, f, hg, g.reaches_paused context .dag { planId := "p" } 2 6,
    ⟨entry, hmem, hnode, hstatus⟩, hitems, hid, hf, hbound⟩

end Plan

end Wavefront
