/-
Serial execution: what a graph comes to when its nodes are executed one after the other, and why
that is what it comes to in any order.

The reference has no waves, turns or timers: each node of a list reads the context as the nodes
before it left it, and unless its schema refuses that context, it calls its tool and writes what
comes back. A graph whose tools are functions of their parameters has such an execution in the order
of its schedule. If no node writes where another one writes or reads, or changes whether the schema
of another one accepts the context, unless one of the two waits for the other, then every execution
of the graph leaves the context and the outputs of the serial one, and the same nodes are refused.

The condition on schemas is needed, since a node may need in the context what it does not wait for:
then it is refused in one order of turns and succeeds in another. It holds where schemas look only
at keys at which no node writes.
-/
import Mathlib
import Wavefront.Proofs.Error
import Wavefront.Proofs.Run.Agenda
import Wavefront.Proofs.Value.Key
import Wavefront.Tool.Stock
import Wavefront.Schema.Reader

set_option autoImplicit false

namespace Wavefront

/-! ## Calls of functions -/

/-- The tool is a function of its parameters, takes any, and always succeeds. -/
def Tool.Computes [Schema.Validator] (t : Tool) (f : Value → Value) :
    Prop := ∀ params, t.Answers params (f params)

namespace Task

/-- The paths that the input of a call mentions. -/
def mentions : Task → List String
  | toolCall _ input _ _ => input.mentions
  | _ => []

/-- A write is not seen by a call that mentions none but paths that diverge from its own. -/
theorem params_set {t : Task} {a : String} {c x : Value}
    (hsep : ∀ path ∈ t.mentions, Path.Separate a path) (hfault : (c.set a x).fault = none) :
    t.params (c.set a x).tree = t.params c := by
  cases t with
  | toolCall tool input target binding =>
    refine Value.substitute_congr fun path hpath => ?_
    cases binding with
    | none => exact Value.getD_resolve_set (hsep path hpath) hfault
    | some bound => exact Value.getD_resolve_bind_set (hsep path hpath) hfault bound.1 bound.2
  | _ => rfl

end Task

/-! ## Serial execution -/

/-- The node calls a tool that is the function. -/
def Node.Computes [Schema.Validator] (n : Node) (f : Value → Value) : Prop :=
  ∃ tool input target binding, n.task = .toolCall tool input target binding ∧ tool.Computes f

/-- No write of the first node is seen by the second one, at its target or in its input. -/
def Node.Spares (m n : Node) : Prop :=
  Path.Separate m.task.target n.task.target ∧
    ∀ path ∈ n.task.mentions, Path.Separate m.task.target path

section

variable [Schema.Validator]

/-- No write of the first node changes whether the schema of the second one, if it has one, accepts
the context, as long as that is one of some contexts. -/
def Node.KeepsVerdict (near : Value → Prop) (m n : Node) : Prop :=
  ∀ (c x : Value), near c → (c.set m.task.target x).fault = none →
    n.accepts (c.set m.task.target x).tree = n.accepts c

/-- The nodes are executed one after the other, from a context on. A node whose schema refuses the
context comes to nothing. Each of the others writes what its function makes of its parameters, and
all of them can. -/
inductive Serial (f : String → Value → Value) :
    Value → List Node → (outputs : List (Node × Option Value)) → (final : Value) → Prop
  | nil (c : Value) : Serial f c [] [] c
  | refused {c : Value} {n : Node} {nodes : List Node} {outputs : List (Node × Option Value)}
      {final : Value} (hrefuses : n.accepts c = false) (hrest : Serial f c nodes outputs final) :
      Serial f c (n :: nodes) ((n, none) :: outputs) final
  | writes {c : Value} {n : Node} {nodes : List Node} {outputs : List (Node × Option Value)}
      {final : Value} (haccepts : n.accepts c = true)
      (hfault : (c.set n.task.target (f n.id (n.task.params c))).fault = none)
      (hrest : Serial f (c.set n.task.target (f n.id (n.task.params c))).tree nodes outputs final) :
      Serial f c (n :: nodes) ((n, some (f n.id (n.task.params c))) :: outputs) final

namespace Serial

variable {f : String → Value → Value} {c final : Value} {l m : List Node}
  {outputs : List (Node × Option Value)}

/-- Nodes whose targets are bounded can be executed one after the other. -/
theorem exists_of_bounded (f : String → Value → Value) (c : Value) {nodes : List Node}
    (h : ∀ n ∈ nodes, Path.Bounded n.task.target) : ∃ outputs final, Serial f c nodes outputs final := by
  induction nodes generalizing c with
  | nil => exact ⟨[], c, .nil c⟩
  | cons n nodes ih =>
    rw [List.forall_mem_cons] at h
    -- a node that its schema refuses leaves the context as it is to the rest
    cases hverdict : n.accepts c with
    | false =>
      obtain ⟨outputs, final, hrest⟩ := ih c h.2
      exact ⟨_, final, .refused hverdict hrest⟩
    | true =>
      obtain ⟨outputs, final, hrest⟩ := ih (c.set n.task.target (f n.id (n.task.params c))).tree h.2
      exact ⟨_, final, .writes hverdict (Value.fault_set_of_bounded h.1 _ _) hrest⟩

/-- The outputs are of the nodes of the list, in its order. -/
theorem map_fst (h : Serial f c l outputs final) : outputs.map Prod.fst = l := by
  induction h with
  | nil => rfl
  | refused _ _ ih => rw [List.map_cons, ih]
  | writes _ _ _ ih => rw [List.map_cons, ih]

/-- There is no more than one serial execution of the nodes. -/
theorem unique {other : List (Node × Option Value)} {d : Value} (h : Serial f c l outputs final)
    (h' : Serial f c l other d) : outputs = other ∧ final = d := by
  -- a node either accepts the context or does not, so both executions have the same case
  induction h generalizing other with
  | nil =>
    cases h'
    exact ⟨rfl, rfl⟩
  | refused hrefuses _ ih =>
    cases h' with
    | refused _ hrest =>
      obtain ⟨rfl, rfl⟩ := ih hrest
      exact ⟨rfl, rfl⟩
    | writes haccepts _ _ => exact Bool.noConfusion (haccepts.symm.trans hrefuses)
  | writes haccepts _ _ ih =>
    cases h' with
    | refused hrefuses _ => exact Bool.noConfusion (haccepts.symm.trans hrefuses)
    | writes _ _ hrest =>
      obtain ⟨rfl, rfl⟩ := ih hrest
      exact ⟨rfl, rfl⟩

/-- The serial execution of two lists, one behind the other. -/
theorem of_append (h : Serial f c (l ++ m) outputs final) :
    ∃ first d second, Serial f c l first d ∧ Serial f d m second final ∧ outputs = first ++ second := by
  induction l generalizing c outputs with
  | nil => exact ⟨[], c, outputs, .nil c, h, rfl⟩
  | cons n l ih =>
    cases h with
    | refused hrefuses hrest =>
      obtain ⟨first, d, second, hfirst, hsecond, rfl⟩ := ih hrest
      exact ⟨_, d, second, .refused hrefuses hfirst, hsecond, rfl⟩
    | writes haccepts hfault hrest =>
      obtain ⟨first, d, second, hfirst, hsecond, rfl⟩ := ih hrest
      exact ⟨_, d, second, .writes haccepts hfault hfirst, hsecond, rfl⟩

end Serial

/-! ## Jobs -/

/-- The job of a node that reads a context, or one of some contexts that give it the same verdict
and the same parameters. -/
def Node.job (f : String → Value → Value) (near : Value → Prop) (c : Value) (n : Node) : Job where
  node := n
  value? := if n.accepts c then some (f n.id (n.task.params c)) else none
  reads d := near d ∧ n.accepts d = n.accepts c ∧ n.task.params d = n.task.params c

/-- The jobs of nodes that all read the same context, but for what they do not mention. -/
def jobsOf (f : String → Value → Value) (near : Value → Prop) (c : Value) (nodes : List Node) :
    List Job := nodes.map (Node.job f near c)

section Jobs

variable {f : String → Value → Value} {near : Value → Prop} {c d : Value} {n : Node}
  {nodes : List Node}

/-- The jobs of nodes are of those nodes. -/
theorem map_node_jobsOf (f : String → Value → Value) (near : Value → Prop) (c : Value)
    (nodes : List Node) : (jobsOf f near c nodes).map Job.node = nodes := by
  rw [jobsOf, List.map_map]
  exact List.map_id nodes

theorem Node.value?_job_of_accepts (h : n.accepts c = true) :
    (n.job f near c).value? = some (f n.id (n.task.params c)) := if_pos h

theorem Node.value?_job_of_refuses (h : n.accepts c = false) : (n.job f near c).value? = none :=
  if_neg fun haccepts => Bool.noConfusion (haccepts.symm.trans h)

/-- A node with a value accepts all contexts that its job reads. -/
theorem Node.accepts_of_job (hvalue : (n.job f near c).value? ≠ none)
    (hreads : (n.job f near c).reads d) : n.accepts d = true := by
  rw [hreads.2.1]
  by_contra hrefuses
  exact hvalue (value?_job_of_refuses (Bool.not_eq_true _ ▸ hrefuses))

/-- Jobs are the same in two contexts where verdicts and parameters are. -/
theorem jobsOf_congr (h : ∀ n ∈ nodes, n.accepts d = n.accepts c ∧ n.task.params d = n.task.params c) :
    jobsOf f near d nodes = jobsOf f near c nodes := by
  refine List.map_congr_left fun n hn => ?_
  rw [Node.job, Node.job, (h n hn).1, (h n hn).2]

/-- The jobs of nodes that compute work. -/
theorem works_of_computes (h : ∀ n ∈ nodes, n.Computes (f n.id)) (s : Settings) {j : Job}
    (hj : j ∈ jobsOf f near c nodes) : j.Works s := by
  obtain ⟨n, hn, rfl⟩ := List.mem_map.1 hj
  cases hverdict : n.accepts c with
  | true =>
    obtain ⟨tool, input, target, binding, htask, htool⟩ := h n hn
    rw [Job.works_iff_of_value? (Node.value?_job_of_accepts hverdict)]
    simp only [Node.job, htask]
    exact (Task.yields_toolCall (htool _) s n.id input target binding).mono fun d hd => hd.2.2
  -- the kind of contexts that the job reads are those with the same verdict
  | false =>
    rw [Job.works_iff_of_refuses (Node.value?_job_of_refuses hverdict)]
    exact fun d hreads => hreads.2.1.trans hverdict

/-- Nodes that leave each other alone in some contexts, which their writes do not lead out of. -/
structure Node.AllApart (near : Value → Prop) (nodes : List Node) : Prop where
  nodup : nodes.Nodup
  spares : ∀ m ∈ nodes, ∀ n ∈ nodes, m ≠ n → m.Spares n
  keeps : ∀ m ∈ nodes, ∀ n ∈ nodes, m ≠ n → m.KeepsVerdict near n
  closed : ∀ n ∈ nodes, ∀ c x : Value, near c → (c.set n.task.target x).fault = none →
    near (c.set n.task.target x).tree

/-- The rest of nodes that are apart is apart. -/
theorem Node.AllApart.tail (h : AllApart near (n :: nodes)) : AllApart near nodes where
  nodup := (List.nodup_cons.1 h.nodup).2
  spares m hm k hk := h.spares m (List.mem_cons_of_mem _ hm) k (List.mem_cons_of_mem _ hk)
  keeps m hm k hk := h.keeps m (List.mem_cons_of_mem _ hm) k (List.mem_cons_of_mem _ hk)
  closed m hm := h.closed m (List.mem_cons_of_mem _ hm)

end Jobs

namespace Serial

variable {f : String → Value → Value} {near : Value → Prop} {c final : Value} {nodes : List Node}
  {outputs : List (Node × Option Value)}

/-- Serial execution does not lead out of contexts that writes of the nodes do not lead out of. -/
theorem near_final (h : Serial f c nodes outputs final)
    (hclosed : ∀ n ∈ nodes, ∀ c x : Value, near c → (c.set n.task.target x).fault = none →
      near (c.set n.task.target x).tree) (hc : near c) : near final := by
  induction h with
  | nil => exact hc
  | refused _ _ ih => exact ih (fun n hn => hclosed n (List.mem_cons_of_mem _ hn)) hc
  | writes _ hfault _ ih =>
    exact ih (fun n hn => hclosed n (List.mem_cons_of_mem _ hn))
      (hclosed _ List.mem_cons_self _ _ hc hfault)

/-- Nodes that leave each other alone come to the same one after the other as when all of them read
the context that they begin with. -/
theorem independent (h : Serial f c nodes outputs final) (hapart : Node.AllApart near nodes)
    (hc : near c) :
    c.Settable (Job.writes (jobsOf f near c nodes)) ∧
      final = c.setAll (Job.writes (jobsOf f near c nodes)) ∧
      outputs = (jobsOf f near c nodes).map fun j => (j.node, j.value?) := by
  induction h with
  | nil c => exact ⟨⟨List.nodup_nil, fun _ hp => absurd hp List.not_mem_nil,
      fun _ hp => absurd hp List.not_mem_nil⟩, rfl, rfl⟩
  | @refused c n nodes outputs final hrefuses _ ih =>
    have hvalue : (n.job f near c).value? = none := Node.value?_job_of_refuses hrefuses
    have hwrites : Job.writes (jobsOf f near c (n :: nodes)) = Job.writes (jobsOf f near c nodes) :=
      List.filterMap_cons_none (by rw [Job.write?, hvalue, Option.map_none])
    obtain ⟨hsettable, hfinal, houtputs⟩ := ih hapart.tail hc
    rw [hwrites]
    refine ⟨hsettable, hfinal, ?_⟩
    rw [jobsOf, List.map_cons, List.map_cons, hvalue, houtputs]
    rfl
  | @writes c n nodes outputs final haccepts hfault _ ih =>
    have hnew := (List.nodup_cons.1 hapart.nodup).1
    have hne : ∀ m ∈ nodes, n ≠ m := fun m hm heq => hnew (heq ▸ hm)
    have hfirst : ∀ m ∈ nodes, n.Spares m := fun m hm =>
      hapart.spares n List.mem_cons_self m (List.mem_cons_of_mem _ hm) (hne m hm)
    have hvalue : (n.job f near c).value? = some (f n.id (n.task.params c)) :=
      Node.value?_job_of_accepts haccepts
    have hwrites : Job.writes (jobsOf f near c (n :: nodes))
        = (n.task.target, f n.id (n.task.params c)) :: Job.writes (jobsOf f near c nodes) :=
      List.filterMap_cons_some (Job.write?_of_value? hvalue)
    -- the others read the same in the context that the node leaves
    have hsame : jobsOf f near (c.set n.task.target (f n.id (n.task.params c))).tree nodes
        = jobsOf f near c nodes := jobsOf_congr fun m hm =>
      ⟨hapart.keeps n List.mem_cons_self m (List.mem_cons_of_mem _ hm) (hne m hm) c _ hc hfault,
        Task.params_set (hfirst m hm).2 hfault⟩
    obtain ⟨hsettable, hfinal, houtputs⟩ :=
      ih hapart.tail (hapart.closed n List.mem_cons_self c _ hc hfault)
    rw [hsame] at hsettable hfinal houtputs
    rw [hwrites]
    refine ⟨?_, hfinal, ?_⟩
    · refine Value.Settable.cons (p := (n.task.target, _)) hsettable hfault fun p hp => ?_
      obtain ⟨j, hj, hwrite⟩ := Job.mem_writes.1 hp
      obtain ⟨m, hm, rfl⟩ := List.mem_map.1 hj
      obtain ⟨_, _, rfl⟩ := Option.map_eq_some_iff.1 hwrite
      exact (hfirst m hm).1
    · rw [jobsOf, List.map_cons, List.map_cons, hvalue, houtputs]
      rfl

/-- The jobs of nodes that are apart, each of the kind of contexts near the first one, are
independent. -/
theorem independent_jobs (h : Serial f c nodes outputs final) (hapart : Node.AllApart near nodes)
    (hc : near c) : Job.Independent c (jobsOf f near c nodes) where
  settable := (h.independent hapart hc).1
  reads j hj := by
    obtain ⟨n, hn, rfl⟩ := List.mem_map.1 hj
    exact ⟨hc, rfl, rfl⟩
  keep j hj p hp hne d hfault hreads := by
    obtain ⟨n, hn, rfl⟩ := List.mem_map.1 hj
    obtain ⟨k, hk, hwrite⟩ := Job.mem_writes.1 hp
    obtain ⟨m, hm, rfl⟩ := List.mem_map.1 hk
    -- the write is not that of the node itself
    have hmn : m ≠ n := fun heq => hne (heq ▸ hwrite)
    obtain ⟨x, -, rfl⟩ := Option.map_eq_some_iff.1 hwrite
    exact ⟨hapart.closed m hm d x hreads.1 hfault,
      (hapart.keeps m hm n hn hmn d x hreads.1 hfault).trans hreads.2.1,
      (Task.params_set (hapart.spares m hm n hn hmn).2 hfault).trans hreads.2.2⟩

/-- What the nodes of waves come to one after the other is an agenda, if those of one wave leave
each other alone. -/
theorem exists_agenda {waves : List (List Node)} (h : Serial f c waves.flatten outputs final)
    (hcomputes : ∀ nodes ∈ waves, ∀ n ∈ nodes, n.Computes (f n.id))
    (hapart : ∀ nodes ∈ waves, Node.AllApart near nodes) (hc : near c) :
    ∃ stages, Agenda c stages final ∧ stages.map (List.map Job.node) = waves ∧
      outputs = stages.flatten.map (fun j => (j.node, j.value?)) ∧
      ∀ j ∈ stages.flatten, ∃ d, j = j.node.job f near d := by
  induction waves generalizing c outputs with
  | nil =>
    cases h with
    | nil => exact ⟨[], .nil _, rfl, rfl, fun _ hj => absurd hj List.not_mem_nil⟩
  | cons nodes waves ih =>
    rw [List.forall_mem_cons] at hcomputes hapart
    rw [List.flatten_cons] at h
    -- the waves before this one leave the context d, in which the jobs of the rest are made
    obtain ⟨first, d, second, hfirst, hsecond, rfl⟩ := h.of_append
    have hd : near d := hfirst.near_final hapart.1.closed hc
    obtain ⟨_, rfl, rfl⟩ := hfirst.independent hapart.1 hc
    obtain ⟨stages, hagenda, hstages, houtputs, hjobs⟩ := ih hsecond hcomputes.2 hapart.2 hd
    refine ⟨jobsOf f near c nodes :: stages, ?_, ?_, ?_, fun j hj => ?_⟩
    · exact .cons (hfirst.independent_jobs hapart.1 hc)
        (fun j hj s => works_of_computes hcomputes.1 s hj) hagenda
    · rw [List.map_cons, map_node_jobsOf, hstages]
    · rw [List.flatten_cons, List.map_append, houtputs]
    · rcases List.mem_append.1 hj with hj | hj
      · obtain ⟨n, _, rfl⟩ := List.mem_map.1 hj
        exact ⟨c, rfl⟩
      · exact hjobs j hj

end Serial

/-! ## Executions -/

namespace Graph

variable {g : Graph}

omit [Schema.Validator] in
/-- Nodes of one wave do not wait for each other. -/
theorem not_transGen_of_wave {k : Nat} {m n : Node} (hm : m ∈ g.wave k) (hn : n ∈ g.wave k) :
    ¬ Relation.TransGen g.DependsOn m.id n.id := by
  intro h
  obtain ⟨j, hj, hwave⟩ := (mem_wave.1 hm).2.lt_of_transGen h
  have heq := hwave.unique (mem_wave.1 hn).2
  omega

/-- The contexts that writes at the targets of nodes of the graph make of a context. -/
inductive Comes (g : Graph) (context : Value) : Value → Prop
  | refl : g.Comes context context
  | set {c x : Value} {n : Node} (h : g.Comes context c) (hn : n ∈ g.nodes)
      (hfault : (c.set n.task.target x).fault = none) : g.Comes context (c.set n.task.target x).tree

omit [Schema.Validator] in
/-- Contexts that come of an object by writes differ from it at most at the keys that the targets
begin with. -/
theorem Comes.sameBut {keys : List String} {fields : List (String × Value)} {c : Value}
    (hkeys : ∀ n ∈ g.nodes, Path.StartsInside keys n.task.target)
    (h : g.Comes (.object fields) c) : Value.SameBut keys (.object fields) c := by
  induction h with
  | refl => exact .refl keys fields
  | set _ hn hfault ih => exact ih.set_inside (hkeys _ hn) hfault

/-- No node changes the verdict of a schema that looks only at keys at which no target begins. -/
theorem keepsVerdict_of_sameBut {keys : List String} {fields : List (String × Value)} {m n : Node}
    (hkeys : ∀ n ∈ g.nodes, Path.StartsInside keys n.task.target)
    (hverdict : ∀ c d, Value.SameBut keys c d → n.accepts d = n.accepts c) (hm : m ∈ g.nodes) :
    m.KeepsVerdict (g.Comes (.object fields)) n := by
  intro c x hc hfault
  have hsame := hc.sameBut hkeys
  exact (hverdict _ _ (hsame.set_inside (hkeys m hm) hfault)).trans (hverdict _ _ hsame).symm

/-- Take a graph without circles whose dependencies are all there, whose tools are functions of
their parameters, and in which no node writes where another one writes or reads, or changes whether
the schema of another one accepts the context, unless one of the two waits for the other. If no
target is out of bounds, its nodes can be executed one after the other in the order of the schedule.
And if they can, then whatever order their turns come in, an execution that is over and in which no
node was interrupted leaves the context and the outputs of that one, and the same nodes have refused
the context. -/
theorem execution_eq_serial (g : Graph) (context : Value) (f : String → Value → Value)
    (hclosed : g.Closed) (hacyclic : ∀ id, ¬ Relation.TransGen g.DependsOn id id)
    (hcomputes : ∀ n ∈ g.nodes, n.Computes (f n.id))
    (hspares : ∀ m ∈ g.nodes, ∀ n ∈ g.nodes, m ≠ n → ¬ Relation.TransGen g.DependsOn m.id n.id →
      ¬ Relation.TransGen g.DependsOn n.id m.id → m.Spares n)
    (hkeeps : ∀ m ∈ g.nodes, ∀ n ∈ g.nodes, m ≠ n → ¬ Relation.TransGen g.DependsOn m.id n.id →
      ¬ Relation.TransGen g.DependsOn n.id m.id → m.KeepsVerdict (g.Comes context) n) :
    ((∀ n ∈ g.nodes, Path.Bounded n.task.target) →
      ∃ outputs final, Serial f context g.schedule.waves.flatten outputs final) ∧
    ∀ outputs final, Serial f context g.schedule.waves.flatten outputs final →
      (outputs.map Prod.fst).Perm g.nodes ∧
      ∀ mode o, (∃ e, g.Reaches context mode o e ∧ e.IsOver ∧
          g.execute context mode o = g.reportOf o e) ∧
        ∀ e, g.Reaches context mode o e → e.IsOver → e.Uninterrupted o g.nodes →
          e.wave.world.context = final ∧ ∀ p ∈ outputs, e.Shows p.1 p.2 := by
  have hperm : g.schedule.waves.flatten.Perm g.nodes :=
    flatten_waves_perm_of_runnable fun n hn => runnable_of_acyclic hclosed hacyclic hn
  refine ⟨fun hbounded => Serial.exists_of_bounded f context fun n hn => ?_, ?_⟩
  · exact hbounded n (hperm.subset hn)
  intro outputs final hserial
  -- two nodes of one wave never wait for each other, so the conditions are about all of them
  have hapart : ∀ nodes ∈ g.schedule.waves, Node.AllApart (g.Comes context) nodes := by
    intro nodes hnodes
    obtain ⟨k, rfl⟩ := exists_wave_eq hnodes
    refine ⟨(g.nodup_wave k).of_map, fun m hm n hn hne => ?_, fun m hm n hn hne => ?_, ?_⟩
    · exact hspares m (mem_wave.1 hm).1 n (mem_wave.1 hn).1 hne (not_transGen_of_wave hm hn)
        (not_transGen_of_wave hn hm)
    · exact hkeeps m (mem_wave.1 hm).1 n (mem_wave.1 hn).1 hne (not_transGen_of_wave hm hn)
        (not_transGen_of_wave hn hm)
    · exact fun n hn c x hc hfault => hc.set (mem_wave.1 hn).1 hfault
  obtain ⟨stages, hagenda, hstages, rfl, hjobs⟩ := hserial.exists_agenda
    (fun nodes hnodes n hn => hcomputes n (hperm.subset (List.mem_flatten.2 ⟨nodes, hnodes, hn⟩)))
    hapart .refl
  refine ⟨hserial.map_fst ▸ hperm, fun mode o => ⟨?_, fun e h hover hcalm => ?_⟩⟩
  · obtain ⟨hreaches, hover⟩ := g.reaches_execution context mode o
    exact ⟨_, hreaches, hover, g.execute_eq context mode o⟩
  · have hcalm' : e.Uninterrupted o (stages.flatten.map Job.node) := fun n hn =>
      hcalm n (node_mem_of_stages hstages hn)
    -- the schema of a node that has a value accepts every context that its job may read
    have hspared : e.SparesAll o stages.flatten := hcalm'.sparesAll fun j hj hvalue d hreads => by
      obtain ⟨c, hjob⟩ := hjobs j hj
      rw [hjob] at hvalue hreads
      exact Node.accepts_of_job hvalue hreads
    obtain ⟨hcontext, hshown⟩ := h.final_of_isOver hagenda hstages hover hspared
    refine ⟨hcontext, fun p hp => ?_⟩
    obtain ⟨j, hj, rfl⟩ := List.mem_map.1 hp
    exact hshown j hj

end Graph

end

/-! ## Graphs with schemas -/

/-- A host that takes whatever it is told interrupts no node whose entry says that a schema refused
something: that the time is over is told by a text that begins with another letter. -/
theorem Entry.not_interrupted_of_rejected {n : Node} {e : Entry} {rejection : Rejection}
    (hstatus : e.status = .failed) (herror : e.error = some (Error.rejected rejection).message) :
    ¬ e.Interrupted .silent n := by
  intro h
  cases h with
  | cancelled hcancelled => exact nomatch hstatus.symm.trans hcancelled
  | @timedOut ms _ htimeout =>
    have hne : (Error.rejected rejection).message ≠ (Error.timeout n.id ms).message :=
      Error.message_ne_of_initial (by simp only [Error.initial]; decide)
    exact hne (Option.some.inj (herror.symm.trans htimeout))
  | aborted _ hnotice _ => exact nomatch hnotice

/-- Nodes that succeeded or were refused by a schema were not interrupted. -/
theorem Execution.uninterrupted_of_rejected {e : Execution} {o : Options} (nodes : List Node)
    (hsilent : o.observer = .silent)
    (h : ∀ p ∈ e.wave.entries.map fun entry => (entry.status, entry.error),
      p.1 = .success ∨ p.1 = .failed ∧ ∃ rejection, p.2 = some (Error.rejected rejection).message) :
    e.Uninterrupted o nodes := by
  intro n _ entry hentry _ hinterrupted
  rw [hsilent] at hinterrupted
  rcases h _ (List.mem_map_of_mem hentry) with hsuccess | ⟨hfailed, rejection, herror⟩
  · rcases hinterrupted.status with hstatus | hstatus
    · exact nomatch hsuccess.symm.trans hstatus
    · exact nomatch hsuccess.symm.trans hstatus
  · exact Entry.not_interrupted_of_rejected hfailed herror hinterrupted

/-- A node that makes one attempt, and only in a context that has a field of the name. -/
def Policy.needing (name : String) : Policy where
  maxRetries := some 0
  inputSchema := some (.object [("required", .array [.string name])])

/-- What such a node fails with if the field is missing. -/
def Rejection.lacking (node name : String) : Rejection :=
  .badContext node ("\"" ++ name ++ "\" is a required property")

/-- A schema that needs a key accepts just the objects that have it. -/
theorem Node.accepts_needing {n : Node} {name : String} (h : n.policy = .needing name)
    (fields : List (String × Value)) : n.accepts (.object fields) = Fields.contains name fields := by
  have hschema : Schema.ofValue (.object [("required", .array [.string name])])
      = .ok (.all [.required [name]]) := rfl
  rw [accepts, h]
  simp only [Policy.needing, requireContext, requireSchema, Schema.Validator.validatorFor, hschema,
    Schema.violation?, Schema.firstViolation?, List.find?]
  cases Fields.contains name fields with
  | false => rfl
  | true => rfl

/-- Such a verdict only depends on the field of the name. -/
theorem Node.accepts_congr_of_needing {n : Node} (name : String) (h : n.policy = .needing name)
    {keys : List String} (hname : name ∉ keys) (c d : Value) (hsame : Value.SameBut keys c d) :
    n.accepts d = n.accepts c := by
  cases hsame with
  | intro hfields =>
    rw [accepts_needing h, accepts_needing h, Fields.contains, Fields.contains, hfields name hname]

namespace Graph

/-- Two nodes that write into one object, which is not there yet, one of which needs what both read.
A third one needs what nobody writes, so it is refused. The last one waits for all of them and reads
the object. -/
def fork : Graph where
  nodes :=
    [{ id := "left", deps := [], task := .toolCall (Stock.tool .echo "echo" none none)
        (.string "{{seed}}") "out.left[1]" none },
     { id := "join", deps := ["right", "left", "barred"], task := .toolCall
        (Stock.tool .echo "echo" none none) (.string "{{out}}") "joined" none },
     { id := "right", deps := [], policy := .needing "seed", task := .toolCall
        (Stock.tool .echo "echo" none none) (.string "<${seed}>") "out.right" none },
     { id := "barred", deps := [], policy := .needing "pass", task := .toolCall
        (Stock.tool .echo "echo" none none) (.string "{{seed}}") "barred" none }]
  nodup := by decide

/-- The tools of the fork return their parameters. -/
theorem computes_fork [Schema.Validator] : ∀ n ∈ fork.nodes, n.Computes fun params => params := by
  intro n hn
  simp only [fork, List.mem_cons, List.not_mem_nil, or_false] at hn
  rcases hn with rfl | rfl | rfl | rfl
  all_goals exact ⟨_, _, _, _, rfl, fun _ => ⟨rfl, fun _ _ => rfl⟩⟩

/-- The nodes of the fork write at three keys and below them. -/
theorem startsInside_fork :
    ∀ n ∈ fork.nodes, Path.StartsInside ["out", "joined", "barred"] n.task.target := by
  intro n hn
  simp only [fork, List.mem_cons, List.not_mem_nil, or_false] at hn
  rcases hn with rfl | rfl | rfl | rfl
  · exact Path.startsInside_of_parse "out" [.key "left", .index 1] (by cbv) (by decide)
  · exact Path.startsInside_of_parse "joined" [] (by cbv) (by decide)
  · exact Path.startsInside_of_parse "out" [.key "right"] (by cbv) (by decide)
  · exact Path.startsInside_of_parse "barred" [] (by cbv) (by decide)

/-- No node of the fork writes at the key that a schema of the fork needs. -/
theorem keepsVerdict_fork (fields : List (String × Value)) {m n : Node} (hm : m ∈ fork.nodes)
    (hn : n ∈ fork.nodes) : m.KeepsVerdict (fork.Comes (.object fields)) n := by
  refine keepsVerdict_of_sameBut startsInside_fork (fun c d hsame => ?_) hm
  simp only [fork, List.mem_cons, List.not_mem_nil, or_false] at hn
  rcases hn with rfl | rfl | rfl | rfl
  · rfl
  · rfl
  · exact Node.accepts_congr_of_needing "seed" rfl (by decide) c d hsame
  · exact Node.accepts_congr_of_needing "pass" rfl (by decide) c d hsame

/-- Nodes of the fork that do not wait for each other write apart and do not read what the other
writes. -/
theorem spares_fork : ∀ m ∈ fork.nodes, ∀ n ∈ fork.nodes, m ≠ n →
    ¬ Relation.TransGen fork.DependsOn m.id n.id → ¬ Relation.TransGen fork.DependsOn n.id m.id →
    m.Spares n := by
  have hjoin : ∀ id ∈ ["right", "left", "barred"], fork.DependsOn "join" id :=
    fun id hid => ⟨_, List.mem_cons_of_mem _ List.mem_cons_self, rfl, hid⟩
  have hleft : Path.parse? "out.left[1]" = some [.key "out", .key "left", .index 1] := by cbv
  have hright : Path.parse? "out.right" = some [.key "out", .key "right"] := by cbv
  have hbarred : Path.parse? "barred" = some [.key "barred"] := by cbv
  have hseed : Path.parse? "seed" = some [.key "seed"] := by cbv
  -- the three targets are apart, also where two of them are in one object, and none is the seed
  have hleftRight := Path.separate_of_parse hleft hright (by decide)
  have hleftBarred := Path.separate_of_parse hleft hbarred (by decide)
  have hrightBarred := Path.separate_of_parse hright hbarred (by decide)
  have hleftSeed := Path.separate_of_parse hleft hseed (by decide)
  have hrightSeed := Path.separate_of_parse hright hseed (by decide)
  have hbarredSeed := Path.separate_of_parse hbarred hseed (by decide)
  have hwhole {a : String} (h : Path.Separate a "seed") :
      ∀ path ∈ Value.mentions (.string "{{seed}}"), Path.Separate a path := by
    have hmentions : Value.mentions (.string "{{seed}}") = ["seed"] := by cbv
    exact hmentions ▸ List.forall_mem_singleton.2 h
  have hmarker {a : String} (h : Path.Separate a "seed") :
      ∀ path ∈ Value.mentions (.string "<${seed}>"), Path.Separate a path := by
    have hmentions : Value.mentions (.string "<${seed}>") = ["seed"] := by cbv
    exact hmentions ▸ List.forall_mem_singleton.2 h
  intro m hm n hn hne hmn hnm
  simp only [fork, List.mem_cons, List.not_mem_nil, or_false] at hm hn
  rcases hm with rfl | rfl | rfl | rfl
  all_goals rcases hn with rfl | rfl | rfl | rfl
  · exact absurd rfl hne
  · exact absurd (.single (hjoin "left" (by decide))) hnm
  · exact ⟨hleftRight, hmarker hleftSeed⟩
  · exact ⟨hleftBarred, hwhole hleftSeed⟩
  · exact absurd (.single (hjoin "left" (by decide))) hmn
  · exact absurd rfl hne
  · exact absurd (.single (hjoin "right" (by decide))) hmn
  · exact absurd (.single (hjoin "barred" (by decide))) hmn
  · exact ⟨hleftRight.symm, hwhole hrightSeed⟩
  · exact absurd (.single (hjoin "right" (by decide))) hnm
  · exact absurd rfl hne
  · exact ⟨hrightBarred, hwhole hrightSeed⟩
  · exact ⟨hleftBarred.symm, hwhole hbarredSeed⟩
  · exact absurd (.single (hjoin "barred" (by decide))) hnm
  · exact ⟨hrightBarred.symm, hmarker hbarredSeed⟩
  · exact absurd rfl hne

/-- No target of the fork has an index that is too large. -/
theorem bounded_fork : ∀ n ∈ fork.nodes, Path.Bounded n.task.target := by
  intro n hn
  simp only [fork, List.mem_cons, List.not_mem_nil, or_false] at hn
  rcases hn with rfl | rfl | rfl | rfl
  · exact ⟨.key "out", [.key "left", .index 1], by cbv, by decide⟩
  · exact ⟨.key "joined", [], by cbv, by decide⟩
  · exact ⟨.key "out", [.key "right"], by cbv, by decide⟩
  · exact ⟨.key "barred", [], by cbv, by decide⟩

/-- The fork is executed in two waves; one of its nodes is refused for what nobody ever writes, in
the serial execution as well. -/
theorem execution_eq_serial_fork :
    let o : Options := { planId := "p" }
    let context : Value := .object [("seed", .string "s")]
    let e := fork.execution context .dag o
    fork.Reaches context .dag o e ∧ e.IsOver ∧ e.Uninterrupted o fork.nodes ∧
      fork.schedule.waves.flatten.map Node.id = ["left", "right", "barred", "join"] ∧
      (e.wave.entries.map fun entry => (entry.status, entry.error)) =
        [(.success, none), (.success, none),
          (.failed, some (Error.rejected (.lacking "barred" "pass")).message), (.success, none)] ∧
      ∃ outputs final,
        Serial (fun _ params => params) context fork.schedule.waves.flatten outputs final ∧
        e.wave.world.context = final ∧
        (e.wave.world.context.resolve "joined.left[1]") = some (.string "s") ∧
        ∀ p ∈ outputs, e.Shows p.1 p.2 := by
  intro o context e
  have hwaves : fork.schedule.waves.flatten.map Node.id = ["left", "right", "barred", "join"] := by
    cbv
  have hentries : ((fork.execution (.object [("seed", .string "s")]) .dag
      { planId := "p" }).wave.entries.map fun entry => (entry.status, entry.error)) =
        [(.success, none), (.success, none),
          (.failed, some (Error.rejected (.lacking "barred" "pass")).message), (.success, none)] := by
    cbv
  have hclosed : fork.Closed :=
    (by decide : ∀ n ∈ fork.nodes, ∀ d ∈ n.deps, d ∈ fork.ids)
  have hacyclic : ∀ id, ¬ Relation.TransGen fork.DependsOn id id := acyclic_of_runnable fun id hid => by
    rw [← mem_flatten_waves, hwaves]
    exact (by decide : ∀ id ∈ fork.ids, id ∈ ["left", "right", "barred", "join"]) id hid
  have hcalm : e.Uninterrupted o fork.nodes := by
    -- what has failed was rejected by its schema, which is no interruption
    refine Execution.uninterrupted_of_rejected fork.nodes rfl ?_
    intro p hp
    rw [hentries] at hp
    simp only [List.mem_cons, List.not_mem_nil, or_false] at hp
    rcases hp with rfl | rfl | rfl | rfl
    · exact .inl rfl
    · exact .inl rfl
    · exact .inr ⟨rfl, _, rfl⟩
    · exact .inl rfl
  obtain ⟨hexists, hagree⟩ := execution_eq_serial fork context (fun _ params => params) hclosed hacyclic
    computes_fork spares_fork fun m hm n hn _ _ _ => keepsVerdict_fork _ hm hn
  obtain ⟨outputs, final, hserial⟩ := hexists bounded_fork
  obtain ⟨hreaches, hover⟩ := fork.reaches_execution context .dag o
  obtain ⟨hcontext, houtputs⟩ := ((hagree outputs final hserial).2 .dag o).2 e hreaches hover hcalm
  refine ⟨hreaches, hover, hcalm, hwaves, hentries, outputs, final, hserial, hcontext, ?_, houtputs⟩
  show ((fork.execution (.object [("seed", .string "s")]) .dag
      { planId := "p" }).wave.world.context.resolve "joined.left[1]") = some (.string "s")
  cbv

/-- A node that needs what another one writes, and does not wait for it. -/
def impatient : Graph where
  nodes :=
    [.ofTool "a" [] (Stock.tool .echo "echo" none none) (.string "x") (.needing "b"),
     .ofTool "b" [] (Stock.tool .echo "echo" none none) (.string "y") {}]
  nodup := by decide

theorem closed_impatient : impatient.Closed :=
  (by decide : ∀ n ∈ impatient.nodes, ∀ d ∈ n.deps, d ∈ impatient.ids)

/-- No node of the impatient graph waits for another one. -/
theorem acyclic_impatient (id : String) : ¬ Relation.TransGen impatient.DependsOn id id := by
  have hwaves : impatient.schedule.waves.flatten.map Node.id = ["a", "b"] := by cbv
  refine acyclic_of_runnable (fun id hid => ?_) id
  rw [← mem_flatten_waves, hwaves]
  exact (by decide : ∀ id ∈ impatient.ids, id ∈ ["a", "b"]) id hid

/-- The tools of the impatient graph return their parameters. -/
theorem computes_impatient [Schema.Validator] :
    ∀ n ∈ impatient.nodes, n.Computes fun params => params := by
  intro n hn
  simp only [impatient, List.mem_cons, List.not_mem_nil, or_false] at hn
  rcases hn with rfl | rfl
  all_goals exact ⟨_, _, _, _, rfl, fun _ => ⟨rfl, fun _ _ => rfl⟩⟩

/-- The impatient nodes write apart and read nothing that the other writes. -/
theorem spares_impatient : ∀ m ∈ impatient.nodes, ∀ n ∈ impatient.nodes, m ≠ n → m.Spares n := by
  have hapart : Path.Separate "a" "b" :=
    Path.separate_of_key (by cbv) (by cbv) (by decide) (by decide) (by decide)
  have hx : Value.mentions (.string "x") = [] := by cbv
  have hy : Value.mentions (.string "y") = [] := by cbv
  intro m hm n hn hne
  simp only [impatient, List.mem_cons, List.not_mem_nil, or_false] at hm hn
  rcases hm with rfl | rfl
  all_goals rcases hn with rfl | rfl
  · exact absurd rfl hne
  · exact ⟨hapart, fun path (hpath : path ∈ Value.mentions (.string "y")) =>
      absurd (hy ▸ hpath) List.not_mem_nil⟩
  · exact ⟨hapart.symm, fun path (hpath : path ∈ Value.mentions (.string "x")) =>
      absurd (hx ▸ hpath) List.not_mem_nil⟩
  · exact absurd rfl hne

/-- The impatient nodes write at plain keys. -/
theorem bounded_impatient : ∀ n ∈ impatient.nodes, Path.Bounded n.task.target := by
  intro n hn
  simp only [impatient, List.mem_cons, List.not_mem_nil, or_false] at hn
  rcases hn with rfl | rfl
  · exact ⟨.key "a", [], by cbv, by decide⟩
  · exact ⟨.key "b", [], by cbv, by decide⟩

/-- The execution in which the node that needs nothing has the first turn. -/
def patientExecution : Execution :=
  let o : Options := { planId := "p" }
  let start := (impatient.start (.object []) .dag o).wave
  let wave := Wave.ofNodes o.settings start.world impatient.nodes
  .run o [start] (Wave.turn { wave with ready := [0] } o.observer 1) []

/-- Without the condition on schemas the order of turns matters: of the two nodes, which do not
write where the other one writes or reads, one is refused if it has the first turn, and not if it
has the last. -/
theorem execution_ne_serial_impatient :
    let o : Options := { planId := "p" }
    impatient.Closed ∧ (∀ id, ¬ Relation.TransGen impatient.DependsOn id id) ∧
      (∀ n ∈ impatient.nodes, n.Computes fun params => params) ∧
      (∀ m ∈ impatient.nodes, ∀ n ∈ impatient.nodes, m ≠ n → m.Spares n) ∧
      (∀ n ∈ impatient.nodes, Path.Bounded n.task.target) ∧
      ∃ e e', impatient.Reaches (.object []) .dag o e ∧ e.IsOver ∧
        e.Uninterrupted o impatient.nodes ∧
        impatient.Reaches (.object []) .dag o e' ∧ e'.IsOver ∧
        e'.Uninterrupted o impatient.nodes ∧
        e.wave.world.context.resolve "a" = none ∧
        e'.wave.world.context.resolve "a" = some (.string "x") := by
  intro o
  have hentries : ((impatient.execution (.object []) .dag
      { planId := "p" }).wave.entries.map fun entry => (entry.status, entry.error)) =
        [(.failed, some (Error.rejected (.lacking "a" "b")).message), (.success, none)] := by cbv
  have hentries' : (patientExecution.wave.entries.map fun entry => (entry.status, entry.error)) =
      [(.success, none), (.success, none)] := by cbv
  obtain ⟨hreaches, hover⟩ := impatient.reaches_execution (.object []) .dag o
  -- the same wave, but the second node of the line has its first turn before the first one
  have hreaches' : impatient.Reaches (.object []) .dag o patientExecution ∧
      patientExecution.IsOver := by
    have hover : (impatient.start (.object []) .dag o).wave.IsOver := fun i hi =>
      absurd hi (Nat.not_lt_zero i)
    have hwaves : (impatient.start (.object []) .dag o).waves = [impatient.nodes] := by cbv
    have hnext : impatient.Reaches (.object []) .dag o _ := .single (.next hover hwaves)
    have hline : (Wave.ofNodes o.settings (impatient.start (.object []) .dag o).wave.world
        impatient.nodes).ready = [0] ++ 1 :: [] := rfl
    exact Reaches.run (hnext.tail (.move (.turn hline)))
  have hcalm : (impatient.execution (.object []) .dag o).Uninterrupted o impatient.nodes := by
    refine Execution.uninterrupted_of_rejected impatient.nodes rfl fun p hp => ?_
    rw [hentries] at hp
    simp only [List.mem_cons, List.not_mem_nil, or_false] at hp
    rcases hp with rfl | rfl
    · exact .inr ⟨rfl, _, rfl⟩
    · exact .inl rfl
  have hcalm' : patientExecution.Uninterrupted o impatient.nodes := by
    refine Execution.uninterrupted_of_rejected impatient.nodes rfl fun p hp => ?_
    rw [hentries'] at hp
    simp only [List.mem_cons, List.not_mem_nil, or_false] at hp
    rcases hp with rfl | rfl
    · exact .inl rfl
    · exact .inl rfl
  have hcontext : (impatient.execution (.object []) .dag
      { planId := "p" }).wave.world.context.resolve "a" = none := by cbv
  have hcontext' : patientExecution.wave.world.context.resolve "a" = some (.string "x") := by cbv
  exact ⟨closed_impatient, acyclic_impatient, computes_impatient, spares_impatient,
    bounded_impatient, _, _, hreaches, hover, hcalm, hreaches'.1, hreaches'.2, hcalm', hcontext,
    hcontext'⟩

end Graph

end Wavefront
