/-
The order of a graph is topological, and there is one just if no node waits for itself.

Dependencies may name a node twice, or one that is not in the graph. Of the former one counts, and
of the latter none: a node waits for what is there.

A branch of a conditional is carried out in this order, one node to its end before the next begins.
So while a node of the branch is at work, all that it waits for in the branch has been carried out.
-/
import Mathlib
import Wavefront.Proofs.Digraph.Stack
import Wavefront.Proofs.Run.Leads

set_option autoImplicit false

namespace Wavefront

namespace Action

variable {α : Type}

/-- Work that is not at its end. -/
def Unfinished (x : Work (Except Error α)) : Prop := ∀ r, x ≠ .done r

/-- Work that is unfinished with something to follow, which ends at once, is unfinished without it.
-/
theorem Unfinished.of_andThen {β : Type} {x : Work (Except Error α)}
    {f : Except Error α → Work (Except Error β)} (hf : ∀ r, ∃ q, f r = .done q)
    (h : Unfinished (x.andThen f)) : Unfinished x := by
  rintro r rfl
  obtain ⟨q, hq⟩ := hf r
  exact h q hq

/-- Several pieces of work are carried out one at a time: until they have ended, what comes next is
what comes next in one of them, and all before it have ended with a value. -/
theorem exists_of_leads_forEach {as : List (Action α)} {cs : List Value}
    {v : Work (Except Error (List α))} (h : (forEach id as).run.Leads cs v) (hv : Unfinished v) :
    ∃ earlier a later before after u rest, as = earlier ++ a :: later ∧ cs = before ++ after ∧
      Performed earlier before ∧ a.run.Leads after u ∧ Unfinished u ∧ v = u.andThen rest := by
  induction as generalizing cs v with
  | nil =>
    obtain ⟨-, hdone⟩ := Work.Leads.of_done h
    exact absurd hdone (hv _)
  | cons a as ih =>
    -- the first piece of work is still under way, or it has ended and the others go on
    have hcases : (∃ u rest, a.run.Leads cs u ∧ Unfinished u ∧ v = u.andThen rest) ∨
        ∃ b before after, cs = before ++ after ∧ a.Returns before b ∧
          (forEach id as >>= fun bs => return b :: bs : Action (List α)).run.Leads after v := by
      rcases Work.Leads.andThen (w := a.run) h with ⟨u, hu, rfl⟩ | ⟨r, before, after, rfl, hr, hrest⟩
      · cases u with
        | done r =>
          cases r with
          | ok b => exact .inr ⟨b, cs, [], (List.append_nil cs).symm, hu, .refl _⟩
          | error e => exact absurd rfl (hv (.error e))
        | read next => exact .inl ⟨_, _, hu, fun _ h => (by cases h), rfl⟩
        | write path value next => exact .inl ⟨_, _, hu, fun _ h => (by cases h), rfl⟩
        | gather f next => exact .inl ⟨_, _, hu, fun _ h => (by cases h), rfl⟩
      · cases r with
        | ok b => exact .inr ⟨b, before, after, rfl, hr, hrest⟩
        | error e => exact absurd hrest.of_done.2 (hv _)
    rcases hcases with ⟨u, rest, hu, hunfinished, rfl⟩ | ⟨b, before, after, rfl, hb, hrest⟩
    · exact ⟨[], a, as, [], cs, u, rest, rfl, rfl, .nil, hu, hunfinished, rfl⟩
    have hlast : ∀ r : Except Error (List α), ∃ q,
        (ExceptT.bindCont (fun bs => return b :: bs) r : Work (Except Error (List α))) = .done q := by
      intro r
      cases r <;> exact ⟨_, rfl⟩
    have hrest : ((forEach id as).run.andThen (ExceptT.bindCont fun bs => return b :: bs)).Leads
        after v := hrest
    rcases hrest.andThen with
      ⟨u, hu, rfl⟩ | ⟨r, middle, last, rfl, hr, hend⟩
    · obtain ⟨earlier, c, later, before', after', u', rest, rfl, rfl, hearlier, hc, hunfinished, rfl⟩ :=
        ih hu (hv.of_andThen hlast)
      exact ⟨a :: earlier, c, later, before ++ before', after', u', _, rfl,
        (List.append_assoc ..).symm, .cons hb hearlier, hc, hunfinished,
        Work.andThen_assoc u' rest _⟩
    · obtain ⟨q, hq⟩ := hlast r
      have hend : (Work.done q).Leads last v := hq ▸ hend
      exact absurd hend.of_done.2 (hv q)

end Action

namespace Graph

variable {g : Graph}

/-- A node waits for another one of the graph. -/
def WaitsFor (g : Graph) (a b : String) : Prop := g.DependsOn a b ∧ b ∈ g.ids

/-- Waiting in the order is waiting for a dependency that is there. -/
theorem awaits_edges_iff {a b : String} : Digraph.Awaits g.edges a b ↔ g.WaitsFor a b := by
  constructor
  · intro h
    have hids : g.edges.map (·.1) = g.ids := map_fst_edges g
    obtain ⟨n, hn, rfl⟩ := mem_ids.1 (hids ▸ h.source_mem)
    rw [Digraph.Awaits, awaited_edges hn, List.mem_filter, decide_eq_true_eq] at h
    exact ⟨⟨n, hn, rfl, h.1⟩, h.2⟩
  · rintro ⟨⟨n, hn, rfl, hd⟩, hin⟩
    rw [Digraph.Awaits, awaited_edges hn, List.mem_filter, decide_eq_true_eq]
    exact ⟨hd, hin⟩

theorem awaits_edges : Digraph.Awaits g.edges = g.WaitsFor := by
  ext a b
  exact awaits_edges_iff

theorem nodup_edges (g : Graph) : (g.edges.map (·.1)).Nodup := (map_fst_edges g).symm ▸ g.nodup

/-- The order that is found with a stack. -/
def stackOrder (g : Graph) : Except Error (List String) :=
  (Digraph.stackOrder g.edges).mapError fun id => .graph (.cycleThrough id)

theorem order_eq_ok_iff {ids : List String} : g.order = .ok ids ↔ Digraph.order g.edges = .ok ids := by
  rw [order]
  cases Digraph.order g.edges <;> simp

/-- An order that fails names a vertex on a circle. -/
theorem order_eq_error_iff {e : Error} : g.order = .error e ↔
    ∃ id, Digraph.order g.edges = .error id ∧ e = .graph (.cycleThrough id) := by
  rw [order]
  cases Digraph.order g.edges <;> simp [eq_comm]

/-- These are the ids of all nodes, each once, and each behind those that the node waits for. -/
structure Orders (g : Graph) (ids : List String) : Prop where
  perm : ids.Perm g.ids
  behind : ∀ before id after, ids = before ++ id :: after → ∀ d, g.WaitsFor id d → d ∈ before

/-- An order that is given is topological. -/
theorem orders_of_order {ids : List String} (h : g.order = .ok ids) : g.Orders ids := by
  rw [order_eq_ok_iff] at h
  refine ⟨?_, fun before id after hsplit d hd => ?_⟩
  · rw [← map_fst_edges g]
    exact Digraph.order_perm g.nodup_edges h
  · exact Digraph.mem_before_of_order h hsplit (awaits_edges_iff.2 hd)

/-- Of the works of these nodes, carried out in their order, one is under way: that of a node, and
all that the node waits for has been carried out before it. -/
def CarriesOut (g : Graph) (s : Settings) (nodes : List Node) (cs : List Value)
    (v : Work (Except Error (List Value))) : Prop :=
  ∃ earlier n later before after u rest, nodes = earlier ++ n :: later ∧ cs = before ++ after ∧
    (∀ d, g.WaitsFor n.id d → d ∈ earlier.map Node.id) ∧
    Action.Performed (earlier.map fun m => m.task.work s m.id) before ∧
    (n.task.work s n.id).run.Leads after u ∧ Action.Unfinished u ∧ v = u.andThen rest

/-- The nodes in the order are all nodes of the graph. -/
theorem inOrder_perm {ids : List String} (h : g.Orders ids) : (g.inOrder ids).Perm g.nodes := by
  have hnode : ∀ n ∈ g.nodes, g.node? n.id = some n := by
    intro n hn
    obtain ⟨m, hm⟩ : ∃ m, g.node? n.id = some m := Option.isSome_iff_exists.1
      (List.find?_isSome.2 ⟨n, hn, decide_eq_true rfl⟩)
    obtain ⟨hmem, hid⟩ := node?_eq_some hm
    rw [hm, List.inj_on_of_nodup_map g.nodup hmem hn hid]
  have hall : g.inOrder g.ids = g.nodes := by
    rw [inOrder, Graph.ids, List.filterMap_map]
    exact (List.filterMap_congr fun n hn => hnode n hn).trans List.filterMap_some
  have hperm := h.perm.filterMap g.node?
  rwa [← inOrder, ← inOrder, hall] at hperm

/-- Work that has been carried out in part has gone through the nodes in their order up to the one
that is at work. -/
theorem carriesOut_of_leads {s : Settings} {works : List (Action Value)}
    (hworks : g.works s = .ok works) : ∃ nodes, nodes.Perm g.nodes ∧
      works = nodes.map (fun n => n.task.work s n.id) ∧
      ∀ cs v, (Action.forEach id works).run.Leads cs v → Action.Unfinished v →
        g.CarriesOut s nodes cs v := by
  obtain ⟨ids, horder, rfl⟩ := works_eq_ok hworks
  refine ⟨g.inOrder ids, inOrder_perm (orders_of_order horder), rfl, fun cs v hleads hv => ?_⟩
  obtain ⟨earlier, a, later, before, after, u, rest, hsplit, rfl, hearlier, ha, hu, rfl⟩ :=
    Action.exists_of_leads_forEach hleads hv
  -- the split of the work is one of the nodes
  obtain ⟨before', rest', hnodes, rfl, hrest⟩ := List.map_eq_append_iff.1 hsplit
  obtain ⟨n, after', rfl, rfl, -⟩ := List.map_eq_cons_iff.1 hrest
  have hn : n ∈ g.nodes := by
    refine (inOrder_perm (orders_of_order horder)).subset ?_
    rw [hnodes]
    exact List.mem_append_right _ List.mem_cons_self
  refine ⟨before', n, after', before, after, u, rest, hnodes, rfl, ?_, hearlier, ha, hu, rfl⟩
  rintro d ⟨⟨m, hm, hid, hd⟩, hin⟩
  obtain rfl := List.inj_on_of_nodup_map g.nodup hm hn hid
  exact mem_earlier_of_order horder hnodes hd hin

/-- **The order of a graph is topological**, whatever the dependencies name. It is the one that is
found with a stack; it has every node once, and behind all that the node waits for in the graph. So
when the nodes of a branch are carried out, then at every point at which they have not ended the
work that goes on is that of a node all of whose dependencies in the branch have been carried
out. -/
theorem order_topological (g : Graph) :
    g.order = g.stackOrder ∧ (∀ ids, g.order = .ok ids → g.Orders ids) ∧
      ∀ s works, g.works s = .ok works → ∃ nodes, nodes.Perm g.nodes ∧
        works = nodes.map (fun n => n.task.work s n.id) ∧
        ∀ cs v, (Action.forEach id works).run.Leads cs v → Action.Unfinished v →
          g.CarriesOut s nodes cs v := by
  refine ⟨?_, fun ids => orders_of_order, fun s works => carriesOut_of_leads⟩
  rw [order, stackOrder, Digraph.stackOrder_eq_order g.nodup_edges]
  cases Digraph.order g.edges <;> rfl

/-- A node that names another one twice, and one that is not there. -/
def doubled : Graph where
  nodes :=
    [{ id := "a", deps := ["b", "b", "x"], task := .aggregate (.list ["b"]) "a" },
     { id := "b", deps := [], task := .aggregate (.list []) "b" },
     { id := "c", deps := ["a", "b"], task := .aggregate (.list ["a"]) "c" }]
  nodup := by decide

/-- A graph with a dependency that is named twice and one that is not there. -/
theorem order_topological_doubled :
    doubled.order = .ok ["b", "a", "c"] ∧ doubled.Orders ["b", "a", "c"] ∧
      ∃ (works : List (Action Value)) (nodes : List Node), doubled.works {} = .ok works ∧
        nodes.Perm doubled.nodes ∧ works = nodes.map (fun n => n.task.work {} n.id) ∧
        doubled.CarriesOut {} nodes [] (Action.forEach id works).run := by
  have horder : doubled.order = .ok ["b", "a", "c"] := by cbv
  have h := order_topological doubled
  have hworks : doubled.works {} = .ok
      ((doubled.inOrder ["b", "a", "c"]).map fun n => n.task.work {} n.id) := by
    rw [works, horder]
    rfl
  obtain ⟨nodes, hperm, hnodes, hcarries⟩ := h.2.2 {} _ hworks
  refine ⟨horder, h.2.1 _ horder, _, nodes, hworks, hperm, hnodes, hcarries _ _ (.refl _) ?_⟩
  intro r hdone
  cases hdone

/-- **There is no order just if a node waits for itself**, directly or through others in the graph;
and the error names such a node. -/
theorem order_fails_iff (g : Graph) :
    ((∃ e, g.order = .error e) ↔ ∃ id ∈ g.ids, Relation.TransGen g.WaitsFor id id) ∧
      ∀ e, g.order = .error e →
        ∃ id ∈ g.ids, Relation.TransGen g.WaitsFor id id ∧ e = .graph (.cycleThrough id) := by
  -- the last link of a circle ends at a node of the graph
  have hmem : ∀ id, Relation.TransGen g.WaitsFor id id → id ∈ g.ids := by
    intro id hcircle
    obtain ⟨_, -, hlast⟩ := Relation.TransGen.tail'_iff.1 hcircle
    exact hlast.2
  have hnamed : ∀ e, g.order = .error e →
      ∃ id ∈ g.ids, Relation.TransGen g.WaitsFor id id ∧ e = .graph (.cycleThrough id) := by
    intro e he
    obtain ⟨id, herror, rfl⟩ := order_eq_error_iff.1 he
    have hcircle := Digraph.transGen_of_order g.nodup_edges herror
    rw [awaits_edges] at hcircle
    exact ⟨id, hmem id hcircle, hcircle, rfl⟩
  refine ⟨⟨fun ⟨e, he⟩ => ?_, ?_⟩, hnamed⟩
  · obtain ⟨id, hid, hcircle, -⟩ := hnamed e he
    exact ⟨id, hid, hcircle⟩
  · rintro ⟨id, -, hcircle⟩
    rw [← awaits_edges] at hcircle
    obtain ⟨b, hb⟩ := (Digraph.exists_order_eq_error_iff g.nodup_edges).2 ⟨id, hcircle⟩
    exact ⟨_, order_eq_error_iff.2 ⟨b, hb, rfl⟩⟩

/-- Two nodes on a circle, and one that waits for them. -/
def ring : Graph where
  nodes :=
    [{ id := "c", deps := ["b"], task := .aggregate (.list ["b"]) "c" },
     { id := "a", deps := ["b"], task := .aggregate (.list ["b"]) "a" },
     { id := "b", deps := ["a"], task := .aggregate (.list ["a"]) "b" }]
  nodup := by decide

/-- The ring has no order, and the node that is named waits for itself. -/
theorem order_fails_iff_ring :
    ring.order = .error (.graph (.cycleThrough "b")) ∧
      ∃ id ∈ ring.ids, Relation.TransGen ring.WaitsFor id id ∧
        Error.graph (.cycleThrough "b") = .graph (.cycleThrough id) := by
  have horder : ring.order = .error (.graph (.cycleThrough "b")) := by cbv
  exact ⟨horder, (order_fails_iff ring).2 _ horder⟩

end Graph

end Wavefront
