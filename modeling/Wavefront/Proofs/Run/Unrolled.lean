/-
Unrolled loops: a loop that is expanded over its items comes to the same as one that finds them when
its node is executed.

The two share little. The unrolled loop has a node for each item, which reads the context as it is
then and writes at a key of its own, and a node that reads these keys by their paths. The rolled
loop is one node that reads the context once and makes all its calls from there. What holds them
together is that an iteration reads contexts that differ at most at the keys of the iterations, and
that these keys are all different.
-/
import Mathlib
import Wavefront.Proofs.Plan.Expansion
import Wavefront.Proofs.Run.Agenda
import Wavefront.Proofs.Text.Numeral
import Wavefront.Proofs.Value.Key
import Wavefront.Tool.Stock
import Wavefront.Schema.Reader

set_option autoImplicit false

namespace Wavefront

/-! ## Ids of iterations -/

theorem toList_iterationId (id : String) (i : Nat) :
    (iterationId id i).toList = id.toList ++ ("_iter_".toList ++ (toString i).toList) := by
  rw [iterationId, String.toList_append, String.toList_append, List.append_assoc]

/-- No iteration has the empty id. -/
theorem iterationId_ne_empty (id : String) (i : Nat) : iterationId id i ≠ "" := by
  intro h
  have hlist := congrArg String.toList h
  rw [toList_iterationId] at hlist
  exact absurd (List.append_eq_nil_iff.1 (List.append_eq_nil_iff.1 hlist).2).1 (by decide)

/-- Different iterations have different ids. -/
theorem iterationId_injective (id : String) : Function.Injective (iterationId id) := by
  intro i j h
  have hdigits : Nat.toDigits 10 i = Nat.toDigits 10 j :=
    String.ofList_injective ((String.append_right_inj _).1 h)
  rw [← Nat.ofDigitChars_ten_toDigits (n := i), hdigits, Nat.ofDigitChars_ten_toDigits]

/-- The id of an iteration is no numeral. -/
theorem index?_iterationId (id : String) (i : Nat) : Text.index? (iterationId id i).toList = none := by
  refine Text.index?_eq_none_of_mem (c := '_') ?_ (by decide) (by decide)
  rw [toList_iterationId]
  exact List.mem_append_right _ (List.mem_append_left _ (by decide))

/-- No iteration has the id of the node that gathers the results. -/
theorem iterationId_ne_gatheredId (id : String) (i : Nat) : iterationId id i ≠ gatheredId id := by
  intro h
  have hlist := congrArg String.toList h
  rw [toList_iterationId, gatheredId, String.toList_append] at hlist
  have hprefix : "_iter_".toList <+: "_agg".toList := ⟨_, List.append_cancel_left hlist⟩
  exact absurd hprefix (by decide)

namespace LoopStep

variable (s : LoopStep) (tool : Tool) (xs : List Value)

/-- The ids of the iterations are those of the numbers of the items. -/
theorem iterationIds_eq : s.iterationIds xs = (List.range xs.length).map (iterationId s.id) := by
  have hnumbers : xs.zipIdx.map Prod.snd = List.range xs.length := by
    rw [List.zipIdx_map_snd, List.range_eq_range']
  rw [iterationIds, ← hnumbers, List.map_map]
  rfl

theorem nodup_iterationIds : (s.iterationIds xs).Nodup := by
  rw [iterationIds_eq]
  exact List.nodup_range.map (iterationId_injective s.id)

/-- The node that gathers the results has an id of its own. -/
theorem gatheredId_not_mem : gatheredId s.id ∉ s.iterationIds xs := by
  intro h
  obtain ⟨item, _, heq⟩ := List.mem_map.1 h
  exact iterationId_ne_gatheredId s.id item.2 heq

/-! ## Graphs -/

/-- The nodes for the items. -/
def iterations : List Node := xs.zipIdx.map fun item => s.iteration tool item.2 item.1

/-- The node that gathers the results. -/
def gathering : Node where
  id := gatheredId s.id
  deps := s.iterationIds xs
  stepId := some s.id
  task := .aggregate (.list (s.iterationIds xs)) s.outputKey

theorem map_id_iterations : (s.iterations tool xs).map Node.id = s.iterationIds xs := by
  rw [iterations, List.map_map]
  rfl

/-- Items are expanded to a draft for each iteration and one for the gathering. -/
theorem drafts_expandItems (declared : List String) :
    (s.expandItems tool xs declared).drafts
      = (s.iterations tool xs ++ [s.gathering xs]).map fun node => ⟨node, declared⟩ := by
  have hids : (xs.zipIdx.map fun item => s.iteration tool item.2 item.1).map Node.id
      = s.iterationIds xs := s.map_id_iterations tool xs
  rw [gathering, ← hids]
  rfl

/-- The loop over items that are known, as a graph of its own. -/
def unrolled : Graph where
  nodes := s.iterations tool xs ++ [s.gathering xs]
  nodup := by
    rw [List.map_append, map_id_iterations, List.map_singleton]
    refine List.nodup_append.2 ⟨s.nodup_iterationIds xs, List.nodup_singleton _, ?_⟩
    rintro id hid other hother rfl
    obtain rfl : id = gatheredId s.id := List.mem_singleton.1 hother
    exact s.gatheredId_not_mem xs hid

/-- The one node of a loop over items that are not known yet. -/
def node : Node where
  id := s.id
  deps := []
  stepId := some s.id
  toolName := some s.body.tool
  policy := s.body.policy.orElse s.policy
  task := .dynamicLoop s tool

/-- The loop over items that are not known yet, as a graph of its own. -/
def rolled : Graph where
  nodes := [s.node tool]
  nodup := List.nodup_singleton _

variable {s tool xs}

/-- Where the items are known, a loop is expanded to the nodes of the unrolled one. -/
theorem expand_of_known {tools : Registry} (htool : tools.require s.body.tool s.id = .ok tool)
    {context : Value} (hitems : context.deref s.items = some (.array xs)) (declared : List String) :
    ∃ e, s.expand tools context declared = .ok e ∧
      e.drafts = (s.unrolled tool xs).nodes.map fun node => ⟨node, declared⟩ := by
  refine ⟨(s.expandItems tool xs declared).named s.body.id, ?_, ?_⟩
  · rw [expand, htool, hitems]
    rfl
  · rw [Expansion.drafts_named, drafts_expandItems]
    rfl

/-- Where they are not, it is expanded to the node of the rolled one. -/
theorem expand_of_unknown {tools : Registry} (htool : tools.require s.body.tool s.id = .ok tool)
    {context : Value} (hitems : ∀ xs, context.deref s.items ≠ some (.array xs))
    (declared : List String) :
    ∃ e, s.expand tools context declared = .ok e ∧
      e.drafts = (s.rolled tool).nodes.map fun node => ⟨node, declared⟩ := by
  refine ⟨(Expansion.ofNode (s.node tool) declared).named s.body.id, ?_,
    Expansion.drafts_named _ _⟩
  rw [expand, htool]
  cases hderef : context.deref s.items with
  | none => rfl
  | some v =>
    cases v with
    | array items => exact absurd hderef (hitems items)
    | _ => rfl

/-! ## Schedules -/

/-- Without items there is only the gathering. -/
theorem waves_unrolled_nil : (s.unrolled tool []).schedule.waves = [[s.gathering []]] :=
  Schedule.waves_of_ready (List.cons_ne_nil _ _) fun n hn => by
    obtain rfl := List.mem_singleton.1 hn
    rfl

/-- The iterations are the first wave, and the gathering is the second. -/
theorem waves_unrolled_of_ne_nil (hne : xs ≠ []) :
    (s.unrolled tool xs).schedule.waves = [s.iterations tool xs, [s.gathering xs]] := by
  have hiterations : s.iterations tool xs ≠ [] := fun hnil =>
    hne (List.zipIdx_eq_nil_iff.1 (List.map_eq_nil_iff.1 hnil))
  have hids : s.iterationIds xs ≠ [] := by
    rw [← s.map_id_iterations tool xs]
    exact fun hnil => hiterations (List.map_eq_nil_iff.1 hnil)
  have hfree : ∀ n ∈ s.iterations tool xs, n.isReady [] = true := fun n hn => by
    obtain ⟨item, -, rfl⟩ := List.mem_map.1 hn
    rfl
  -- there is an iteration to wait for, since there is an item
  have hwaits : ∀ n ∈ [s.gathering xs], n.isReady [] = false := fun n hn => by
    obtain rfl := List.mem_singleton.1 hn
    obtain ⟨id, hid⟩ := List.exists_mem_of_ne_nil _ hids
    exact List.all_eq_false.2 ⟨id, hid, by simp⟩
  have hdone : ∀ n ∈ [s.gathering xs], n.isReady ([] ++ (s.iterations tool xs).map Node.id) = true := by
    intro n hn
    obtain rfl := List.mem_singleton.1 hn
    rw [map_id_iterations]
    exact List.all_eq_true.2 fun id hid => decide_eq_true hid
  rw [Graph.schedule, unrolled, Schedule.waves_append_of_ready hiterations hfree hwaits,
    Schedule.waves_of_ready (List.cons_ne_nil _ _) hdone]

/-- The rolled loop is one wave of one node. -/
theorem waves_rolled : (s.rolled tool).schedule.waves = [(s.rolled tool).nodes] :=
  Schedule.waves_of_ready (List.cons_ne_nil _ _) fun n hn => by
    obtain rfl := List.mem_singleton.1 hn
    rfl

end LoopStep

/-! ## What the nodes write -/

namespace LoopStep

/-- What the tool is called with for an item, in a context. -/
def paramsFor (s : LoopStep) (context item : Value) : Value :=
  (context.bind s.binder item).substitute s.body.input

/-- The keys of the iterations are the loop's own: they are plain, and neither its output nor what
the input of its body mentions begins with one of them. -/
structure OwnsKeys (s : LoopStep) (xs : List Value) : Prop where
  plain : ∀ id ∈ s.iterationIds xs, Path.IsPlain id
  input : ∀ path ∈ s.body.input.mentions, Path.StartsOutside (s.iterationIds xs) path
  output : Path.StartsOutside (s.iterationIds xs) s.outputKey

variable (s : LoopStep) (tool : Tool) (f : Value → Value) (c : Value) (xs : List Value)

/-- What the tool answers, in the order of the items. -/
def results : List Value := xs.map fun x => f (s.paramsFor c x)

/-- What the iterations write. -/
def writes : List (String × Value) :=
  xs.zipIdx.map fun item => (iterationId s.id item.2, f (s.paramsFor c item.1))

theorem map_fst_writes : (s.writes f c xs).map Prod.fst = s.iterationIds xs := by
  rw [writes, List.map_map]
  rfl

/-- The iterations write the results. -/
theorem map_snd_writes : (s.writes f c xs).map Prod.snd = s.results f c xs := by
  have hitems : xs.zipIdx.map Prod.fst = xs := List.zipIdx_map_fst 0 xs
  rw [writes, List.map_map, results]
  conv_rhs => rw [← hitems, List.map_map]
  rfl

/-- The jobs of the iterations. They read contexts that differ at most at the keys of the
iterations. -/
def iterationJobs : List Job := xs.zipIdx.map fun item =>
  { node := s.iteration tool item.2 item.1
    value? := some (f (s.paramsFor c item.1))
    reads := c.SameBut (s.iterationIds xs) }

/-- The jobs of the iterations are of their nodes. -/
theorem map_node_iterationJobs :
    (s.iterationJobs tool f c xs).map Job.node = s.iterations tool xs := by
  rw [iterationJobs, List.map_map]
  rfl

theorem writes_iterationJobs : Job.writes (s.iterationJobs tool f c xs) = s.writes f c xs := by
  rw [Job.writes, iterationJobs, List.filterMap_map, writes, ← List.filterMap_eq_map]
  rfl

/-- The job of the node that gathers the results. -/
def gatheringJob : Job where
  node := s.gathering xs
  value? := some (.array (s.results f c xs))
  reads d := d = c.setAll (s.writes f c xs)

variable {s tool f c xs}

/-- The id of an iteration is a path of one key. -/
theorem parse?_of_mem (hplain : ∀ id ∈ s.iterationIds xs, Path.IsPlain id) {id : String}
    (hid : id ∈ s.iterationIds xs) : Path.parse? id = some [.key id] := by
  refine (hplain id hid).parse? ?_
  obtain ⟨item, -, rfl⟩ := List.mem_map.1 hid
  exact iterationId_ne_empty s.id item.2

/-- Whatever the iterations write is at one of their ids. -/
theorem mem_iterationIds_of_mem_writes {p : String × Value} (hp : p ∈ s.writes f c xs) :
    p.1 ∈ s.iterationIds xs := by
  rw [← map_fst_writes s f c xs]
  exact List.mem_map_of_mem hp

/-- The iterations can all write, and at different keys. -/
theorem settable_writes (hplain : ∀ id ∈ s.iterationIds xs, Path.IsPlain id)
    {fields : List (String × Value)} (hc : c = .object fields) : c.Settable (s.writes f c xs) := by
  have hkeys : ((s.writes f c xs).map Prod.fst).Nodup := by
    rw [map_fst_writes]
    exact s.nodup_iterationIds xs
  -- an id that is an index would write in an array, where writes need not commute
  have hindex : ∀ id ∈ s.iterationIds xs, Text.index? id.toList = none := fun id hid => by
    obtain ⟨item, -, rfl⟩ := List.mem_map.1 hid
    exact index?_iterationId s.id item.2
  refine ⟨hkeys.of_map, fun p hp => ?_, fun p hp q hq hne => ?_⟩
  · rw [Value.set, parse?_of_mem hplain (mem_iterationIds_of_mem_writes hp), hc]
    rfl
  · have hp' := mem_iterationIds_of_mem_writes hp
    have hq' := mem_iterationIds_of_mem_writes hq
    have hkey : p.1 ≠ q.1 := fun heq => hne (List.inj_on_of_nodup_map hkeys hp hq heq)
    exact Path.separate_of_key (parse?_of_mem hplain hp') (parse?_of_mem hplain hq') hkey
      (hindex p.1 hp') (hindex q.1 hq')

/-- The iterations change the context at their ids only. -/
theorem sameBut_setAll (hplain : ∀ id ∈ s.iterationIds xs, Path.IsPlain id)
    {fields : List (String × Value)} (hc : c = .object fields) :
    c.SameBut (s.iterationIds xs) (c.setAll (s.writes f c xs)) := by
  have hbegin : c.SameBut (s.iterationIds xs) c := by
    rw [hc]
    exact .refl _ fields
  refine (settable_writes hplain hc).setAll_induction hbegin fun p hp d _ hsame => ?_
  have hmem := mem_iterationIds_of_mem_writes hp
  exact hsame.set_key (parse?_of_mem hplain hmem) hmem p.2

/-- No iteration changes what another one reads, since they read the context up to their ids. -/
theorem independent_iterationJobs (hplain : ∀ id ∈ s.iterationIds xs, Path.IsPlain id)
    {fields : List (String × Value)} (hc : c = .object fields) :
    Job.Independent c (s.iterationJobs tool f c xs) where
  settable := by
    rw [writes_iterationJobs]
    exact settable_writes hplain hc
  reads j hj := by
    obtain ⟨item, -, rfl⟩ := List.mem_map.1 hj
    rw [hc]
    exact .refl _ fields
  keep j hj p hp _ d _ hreads := by
    rw [writes_iterationJobs] at hp
    have hmem : p.1 ∈ s.iterationIds xs := mem_iterationIds_of_mem_writes hp
    obtain ⟨item, -, rfl⟩ := List.mem_map.1 hj
    exact Value.SameBut.set_key (parse?_of_mem hplain hmem) hmem hreads _

/-- The iterations write their results, in whatever order they have their turns. -/
theorem works_iterationJobs [Schema.Validator]
    (hinput : ∀ path ∈ s.body.input.mentions, Path.StartsOutside (s.iterationIds xs) path)
    (htool : ∀ x ∈ xs, tool.Answers (s.paramsFor c x) (f (s.paramsFor c x))) :
    ∀ j ∈ s.iterationJobs tool f c xs, ∀ settings, j.Works settings := by
  intro j hj settings
  obtain ⟨item, hitem, rfl⟩ := List.mem_map.1 hj
  have hanswers := htool item.1 (List.fst_mem_of_mem_zipIdx hitem)
  rw [Job.works_iff_of_value? rfl]
  refine (Task.yields_toolCall hanswers settings _ _ _ _).mono fun d hd => ?_
  exact (hd.substitute_bind hinput s.binder item.1).symm

/-- Once the iterations have written, the gathering reads their results in the order of the
items. -/
theorem works_gatheringJob [Schema.Validator] (hplain : ∀ id ∈ s.iterationIds xs, Path.IsPlain id)
    {fields : List (String × Value)} (hc : c = .object fields) (settings : Settings) :
    (s.gatheringJob f c xs).Works settings := by
  have hread : (s.iterationIds xs).map (fun id => ((c.setAll (s.writes f c xs)).resolve id).getD .null)
      = s.results f c xs := by
    rw [← map_fst_writes s f c xs, ← map_snd_writes s f c xs, List.map_map]
    refine List.map_congr_left fun p hp => ?_
    rw [Function.comp_apply, (settable_writes hplain hc).resolve_setAll hp, Option.getD_some]
  have hyields := Task.yields_aggregate settings (gatheredId s.id) (s.iterationIds xs) s.outputKey
    (c.setAll (s.writes f c xs))
  rw [hread] at hyields
  exact hyields

/-- The agenda of the unrolled loop. -/
theorem exists_agenda_unrolled [Schema.Validator] (howns : s.OwnsKeys xs)
    {fields : List (String × Value)}
    (hc : c = .object fields)
    (htool : ∀ x ∈ xs, tool.Answers (s.paramsFor c x) (f (s.paramsFor c x)))
    (hfault : ((c.setAll (s.writes f c xs)).set s.outputKey (.array (s.results f c xs))).fault = none) :
    ∃ stages, Agenda c stages
        ((c.setAll (s.writes f c xs)).set s.outputKey (.array (s.results f c xs))).tree ∧
      stages.map (List.map Job.node) = (s.unrolled tool xs).schedule.waves := by
  have hgathering : Agenda (c.setAll (s.writes f c xs)) [[s.gatheringJob f c xs]]
      ((c.setAll (s.writes f c xs)).set s.outputKey (.array (s.results f c xs))).tree := by
    refine .cons (Job.independent_singleton rfl hfault rfl) (fun j hj settings => ?_) (.nil _)
    obtain rfl := List.mem_singleton.1 hj
    exact works_gatheringJob howns.plain hc settings
  -- without items there is nothing to wait for, so the gathering is in the first wave
  rcases eq_or_ne xs [] with rfl | hne
  · exact ⟨_, hgathering, waves_unrolled_nil.symm⟩
  · refine ⟨s.iterationJobs tool f c xs :: [[s.gatheringJob f c xs]], ?_, ?_⟩
    · refine .cons (independent_iterationJobs howns.plain hc) (works_iterationJobs howns.input htool) ?_
      rwa [writes_iterationJobs]
    · rw [waves_unrolled_of_ne_nil hne, List.map_cons, map_node_iterationJobs]
      rfl

/-- The agenda of the rolled loop: its node finds the items and makes all calls. -/
theorem exists_agenda_rolled [Schema.Validator] (hitems : c.deref s.items = some (.array xs))
    (htool : ∀ x ∈ xs, tool.Answers (s.paramsFor c x) (f (s.paramsFor c x)))
    (hfault : (c.set s.outputKey (.array (s.results f c xs))).fault = none) :
    ∃ stages, Agenda c stages (c.set s.outputKey (.array (s.results f c xs))).tree ∧
      stages.map (List.map Job.node) = (s.rolled tool).schedule.waves := by
  have hgives : List.Forall₂ (fun x v => (s.callFor tool c x).Gives v) xs (s.results f c xs) := by
    rw [results, List.forall₂_map_right_iff, List.forall₂_same]
    exact fun x hx => (htool x hx).gives (c.bind s.binder x)
  refine ⟨[[⟨s.node tool, some (.array (s.results f c xs)), fun d => d = c⟩]], ?_,
    waves_rolled.symm⟩
  refine .cons (Job.independent_singleton rfl hfault rfl) (fun j hj settings => ?_) (.nil _)
  obtain rfl := List.mem_singleton.1 hj
  exact Task.yields_dynamicLoop hitems hgives settings s.id

/-! ## Executions -/

/-- Take a loop whose items are there in an object, whose tool is a function of its parameters for
these items, and which owns the keys of its iterations. It is expanded to the unrolled loop where
its items are known and to the rolled one where they are not. Executions of both come to an end. And
when no node was stopped, then in whatever order the turns came, both have written the results in
the order of the items, and the contexts differ at most at the keys of the iterations.

That no node was stopped leaves out runs that were cancelled, in which a time limit was over or the
host panicked, and also those in which the schema that a step of the loop has for the context
refused it: a node that refuses what it reads calls no tool, so it is not executed in the sense of
this comparison. -/
theorem sameBut_rolled_unrolled [Schema.Validator] (s : LoopStep) (tool : Tool) (f : Value → Value)
    (fields : List (String × Value)) (xs : List Value)
    (hitems : (Value.object fields).deref s.items = some (.array xs))
    (htool : ∀ x ∈ xs,
      tool.Answers (s.paramsFor (.object fields) x) (f (s.paramsFor (.object fields) x)))
    (howns : s.OwnsKeys xs) (hwritable : ((Value.object fields).set s.outputKey .null).fault = none) :
    (∀ tools declared, tools.require s.body.tool s.id = .ok tool →
      (∃ e, s.expand tools (.object fields) declared = .ok e ∧
        e.drafts = (s.unrolled tool xs).nodes.map fun node => ⟨node, declared⟩) ∧
      ∀ context, (∀ ys, context.deref s.items ≠ some (.array ys)) →
        ∃ e, s.expand tools context declared = .ok e ∧
          e.drafts = (s.rolled tool).nodes.map fun node => ⟨node, declared⟩) ∧
    (∀ g ∈ [s.unrolled tool xs, s.rolled tool], ∀ mode o, ∃ e,
      g.Reaches (.object fields) mode o e ∧ e.IsOver ∧
        g.execute (.object fields) mode o = g.reportOf o e) ∧
    ∀ mode o e, (s.unrolled tool xs).Reaches (.object fields) mode o e → e.IsOver →
      e.Undisturbed o (s.unrolled tool xs).nodes →
      ∀ mode' o' e', (s.rolled tool).Reaches (.object fields) mode' o' e' → e'.IsOver →
        e'.Undisturbed o' (s.rolled tool).nodes →
        e.wave.world.context.resolve s.outputKey
            = some (.array (xs.map fun x => f (s.paramsFor (.object fields) x))) ∧
          e'.wave.world.context.resolve s.outputKey
            = some (.array (xs.map fun x => f (s.paramsFor (.object fields) x))) ∧
          e'.wave.world.context.SameBut (s.iterationIds xs) e.wave.world.context := by
  refine ⟨fun tools declared hrequire => ?_, fun g _ mode o => ?_, ?_⟩
  · exact ⟨expand_of_known hrequire hitems declared,
      fun context hunknown => expand_of_unknown hrequire hunknown declared⟩
  · obtain ⟨hreaches, hover⟩ := g.reaches_execution (.object fields) mode o
    exact ⟨_, hreaches, hover, g.execute_eq (.object fields) mode o⟩
  intro mode o e hreaches hover hcalm mode' o' e' hreaches' hover' hcalm'
  -- what can be written at the output before the iterations have written can be written after it
  have hrolled : ((Value.object fields).set s.outputKey
      (.array (s.results f (.object fields) xs))).fault = none := Value.fault_set_congr _ _ hwritable
  obtain ⟨hunrolled, hsame⟩ := (sameBut_setAll (f := f) howns.plain rfl).set howns.output hrolled
  obtain ⟨stages, hagenda, hstages⟩ := exists_agenda_unrolled howns rfl htool hunrolled
  obtain ⟨stages', hagenda', hstages'⟩ := exists_agenda_rolled hitems htool hrolled
  rw [(hreaches.final_of_isOver hagenda hstages hover (hcalm.sparesAll_of_stages hstages)).1,
    (hreaches'.final_of_isOver hagenda' hstages' hover' (hcalm'.sparesAll_of_stages hstages')).1]
  exact ⟨Value.resolve_set_self hunrolled, Value.resolve_set_self hrolled, hsame⟩

/-- A loop over two items that also reads what is not one of them. -/
def echoing : LoopStep where
  id := "each"
  items := .string "{{xs}}"
  binder := "x"
  body :=
    { id := ""
      tool := "echo"
      input := .object [("got", .string "{{x.n}}"), ("seen", .string "<${seed}>")] }
  output := some "out.all"

/-- Two items, one of which has not what the body asks for. -/
def echoingItems : List Value := [.object [("n", .string "a")], .null]

/-- The loop that echoes has its keys to itself. -/
theorem ownsKeys_echoing : echoing.OwnsKeys echoingItems := by
  have hids : echoing.iterationIds echoingItems = ["each_iter_0", "each_iter_1"] := by decide
  -- its input refers to the item and to the seed
  have hmentions : echoing.body.input.mentions = ["x.n", "seed"] := by cbv
  constructor
  · rw [hids]
    simp only [List.forall_mem_cons]
    refine ⟨⟨by decide, by decide, by cbv⟩, ⟨by decide, by decide, by cbv⟩, ?_⟩
    exact fun _ hid => absurd hid List.not_mem_nil
  · rw [hids, hmentions]
    simp only [List.forall_mem_cons]
    refine ⟨Path.startsOutside_of_parse "x" [.key "n"] (by cbv) (by decide),
      Path.startsOutside_of_parse "seed" [] (by cbv) (by decide), ?_⟩
    exact fun _ hpath => absurd hpath List.not_mem_nil
  · rw [hids]
    exact Path.startsOutside_of_parse "out" [.key "all"] (by cbv) (by decide)

/-- The loop that echoes, executed unrolled and rolled. -/
theorem sameBut_rolled_unrolled_echoing :
    let o : Options := { planId := "p" }
    let tool := Stock.tool .echo "echo" none none
    let context : Value := .object [("seed", .string "s"), ("xs", .array echoingItems)]
    let results : Value := .array [.object [("got", .string "a"), ("seen", .string "<s>")],
      .object [("got", .null), ("seen", .string "<s>")]]
    ∃ e, (echoing.unrolled tool echoingItems).Reaches context .dag o e ∧ e.IsOver ∧
      e.Undisturbed o (echoing.unrolled tool echoingItems).nodes ∧
      ∃ e', (echoing.rolled tool).Reaches context .dag o e' ∧ e'.IsOver ∧
        e'.Undisturbed o (echoing.rolled tool).nodes ∧
        e.wave.world.context.resolve "out.all" = some results ∧
        e'.wave.world.context.resolve "out.all" = some results ∧
        e'.wave.world.context.SameBut ["each_iter_0", "each_iter_1"] e.wave.world.context := by
  intro o tool context results
  have hunrolled : ((echoing.unrolled (Stock.tool .echo "echo" none none) echoingItems).execution
      (.object [("seed", .string "s"), ("xs", .array echoingItems)]) .dag
      { planId := "p" }).wave.entries.map Entry.status = List.replicate 3 .success := by cbv
  have hrolled : ((echoing.rolled (Stock.tool .echo "echo" none none)).execution
      (.object [("seed", .string "s"), ("xs", .array echoingItems)]) .dag
      { planId := "p" }).wave.entries.map Entry.status = List.replicate 1 .success := by cbv
  have hcalm := Execution.undisturbed_of_map_status o (echoing.unrolled tool echoingItems).nodes
    hunrolled
  have hcalm' := Execution.undisturbed_of_map_status o (echoing.rolled tool).nodes hrolled
  obtain ⟨hreaches, hover⟩ := (echoing.unrolled tool echoingItems).reaches_execution context .dag o
  obtain ⟨hreaches', hover'⟩ := (echoing.rolled tool).reaches_execution context .dag o
  have hagree := (sameBut_rolled_unrolled echoing tool (fun params => params)
    [("seed", .string "s"), ("xs", .array echoingItems)] echoingItems (by cbv)
    (fun _ _ => ⟨rfl, fun _ _ => rfl⟩) ownsKeys_echoing (by cbv)).2.2
  obtain ⟨hwritten, hwritten', hsame⟩ :=
    hagree .dag o _ hreaches hover hcalm .dag o _ hreaches' hover' hcalm'
  have hresults : Value.array (echoingItems.map fun x => echoing.paramsFor context x) = results := by
    cbv
  exact ⟨_, hreaches, hover, hcalm, _, hreaches', hover', hcalm', hresults ▸ hwritten,
    hresults ▸ hwritten', hsame⟩

end LoopStep

end Wavefront
