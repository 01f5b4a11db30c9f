/-
The graph of a plan that has been compiled, said of the places of the plan.

Two facts carry everything that is proved about the dependencies of such a graph. An id that is
known of a place leads to what the place ends with, whoever waits for it, for no id is known of two
places. And a node waits for another one for one of two reasons: it gathers its result, or something
that is declared for its station leads there.
-/
import Wavefront.Proofs.Graph.Dependency
import Wavefront.Proofs.Plan.Expansion
import Wavefront.Proofs.Plan.Written

set_option autoImplicit false

namespace Wavefront

namespace Place

/-- The nodes that a place ends with, or the one node of the conditional around it. -/
def exits (context : Value) (P : Place) : List String :=
  match P.home with
  | none => P.step.exits context
  | some h => [h]

theorem exits_of_home_none {context : Value} {P : Place} (hP : P.home = none) :
    P.exits context = P.step.exits context := by
  rw [exits, hP]

theorem exits_of_home_some {context : Value} {P : Place} {h : String} (hP : P.home = some h) :
    P.exits context = [h] := by
  rw [exits, hP]

theorem nodes_of_home_none {context : Value} {P : Place} (hP : P.home = none) :
    P.nodes context = P.step.nodes context := by
  rw [nodes, hP]

theorem nodes_of_home_some {context : Value} {P : Place} {h : String} (hP : P.home = some h) :
    P.nodes context = [h] := by
  rw [nodes, hP]

/-- A place ends with what its station ends with. -/
theorem exits_eq_of_station {context : Value} {S Q : Place} (hhome : S.home = none)
    (h : S = Q ∨ S.step.kind = "conditional" ∧ Q ∈ S.inside) :
    Q.exits context = S.step.exits context := by
  rcases h with rfl | ⟨hkind, hinside⟩
  · exact exits_of_home_none hhome
  · rw [exits_of_home_some (home_of_mem_inside hhome hkind hinside), Step.exits_of_conditional hkind]
    rfl

/-- A place ends with some of its nodes. -/
theorem exits_subset_nodes (context : Value) (P : Place) : P.exits context ⊆ P.nodes context := by
  cases hhome : P.home with
  | none =>
    rw [exits_of_home_none hhome, nodes_of_home_none hhome]
    exact Step.exits_subset_nodes context P.step
  | some h =>
    rw [exits_of_home_some hhome, nodes_of_home_some hhome]
    exact List.Subset.refl _

/-- What is known of a place belongs to it. -/
theorem mem_ownIds_of_mem_known {P : Place} {a : String} (ha : a ∈ P.known) (hne : a ≠ "") :
    a ∈ P.step.ownIds := by
  cases hhome : P.home with
  | none => rwa [known_of_home_none hhome] at ha
  | some h =>
    rw [known_of_home_some hhome] at ha
    exact P.step.innerIds_subset a ha hne

/-- A place is known by its id. -/
theorem id_mem_known (P : Place) : P.id ∈ P.known := by
  cases hhome : P.home with
  | none =>
    rw [known_of_home_none hhome]
    exact P.step.id_mem_ownIds
  | some h =>
    rw [known_of_home_some hhome]
    exact P.step.id_mem_innerIds

end Place

namespace Plan

/-- A graph that a plan has been compiled to, by way of an expansion. -/
structure Compiled (p : Plan) (context : Value) (e : Expansion) (g : Graph) : Prop where
  sound : p.Sound
  covers : e.Covers context (p.steps.map fun s => ⟨s, [], none⟩)
  nodes : g.nodes = e.drafts.map e.finish

variable {p : Plan} {tools : Registry} {context : Value} {e : Expansion} {g : Graph}

/-- A plan that compiles has a graph that is as `Compiled` says. -/
theorem compiled_of_compile (h : p.compile tools context = .ok g) :
    ∃ e, Step.expandAll tools context [] p.steps = .ok e ∧ e.graph = .ok g
      ∧ p.Compiled context e g := by
  obtain ⟨⟨⟩, hcheck, h⟩ := bind_eq_ok_iff.1 h
  obtain ⟨e, he, hg⟩ := bind_eq_ok_iff.1 h
  exact ⟨e, he, hg, sound_of_check hcheck, covers_expandAll he, Graph.nodes_of_ofNodes hg⟩

/-- The stations of a plan are its places that stand by themselves. -/
theorem mem_stations {S : Place} :
    S ∈ (p.steps.map fun s => (⟨s, [], none⟩ : Place)).flatMap Place.stations
      ↔ S ∈ p.places ∧ S.home = none := by
  simp only [List.mem_flatMap, Place.mem_stations, List.mem_map, exists_exists_and_eq_and,
    mem_places, ← and_assoc, exists_and_right]

namespace Compiled

/-! ## What ids lead to -/

/-- An id that is known of a place is a name of its station. -/
theorem mem_names (hc : p.Compiled context e g) {Q : Place} (hQ : Q ∈ p.places) {a : String}
    (ha : a ∈ Q.known) (hne : a ≠ "") : (a, Q.exits context) ∈ e.names := by
  obtain ⟨S, hS, hhome, hroot, hcases⟩ := exists_station hQ
  have hexits : Q.exits context = S.step.exits context := Place.exits_eq_of_station hhome hcases
  refine (hc.covers.names _).2 ⟨S, mem_stations.2 ⟨hS, hhome⟩, a, ?_, hne, by rw [hexits]⟩
  exact (hc.sound.mem_aliases hS hhome).2 ⟨Q, hQ, hroot.symm, ha⟩

/-- A name is known of a place, and leads to what that place ends with. -/
theorem exists_known_of_mem_names (hc : p.Compiled context e g) {a : String} {exits : List String}
    (h : (a, exits) ∈ e.names) :
    ∃ Q ∈ p.places, a ∈ Q.known ∧ a ≠ "" ∧ exits = Q.exits context := by
  obtain ⟨S, hS, a', ha, hne, heq⟩ := (hc.covers.names _).1 h
  obtain ⟨rfl, rfl⟩ := Prod.mk.inj heq
  obtain ⟨hS, hhome⟩ := mem_stations.1 hS
  obtain ⟨Q, hQ, hroot, ha⟩ := (hc.sound.mem_aliases hS hhome).1 ha
  refine ⟨Q, hQ, ha, hne, ?_⟩
  exact (Place.exits_eq_of_station hhome (hc.sound.station_unique hS hQ hroot)).symm

/-- No id leads to two things. -/
theorem exits_unique (hc : p.Compiled context e g) {a : String} {exits other : List String}
    (h : (a, exits) ∈ e.names) (hother : (a, other) ∈ e.names) : other = exits := by
  obtain ⟨Q, hQ, ha, hne, rfl⟩ := hc.exists_known_of_mem_names h
  obtain ⟨Q', hQ', ha', -, rfl⟩ := hc.exists_known_of_mem_names hother
  rw [hc.sound.place_unique hQ' hQ (Place.mem_ownIds_of_mem_known ha' hne)
    (Place.mem_ownIds_of_mem_known ha hne)]

/-- An id that is known of a place leads to what the place ends with. -/
theorem resolve_of_mem_known (hc : p.Compiled context e g) {Q : Place} (hQ : Q ∈ p.places)
    {a : String} (ha : a ∈ Q.known) (hne : a ≠ "") : e.resolve a = Q.exits context := by
  have hmem := hc.mem_names hQ ha hne
  exact Expansion.resolve_of_mem hmem fun other hother => hc.exits_unique hmem hother

/-- An id that is known of no place is kept as it is. -/
theorem resolve_of_unknown (hc : p.Compiled context e g) {a : String}
    (h : ∀ Q ∈ p.places, a ∉ Q.known) : e.resolve a = [a] := by
  apply Expansion.resolve_of_not_mem
  intro exits hmem
  obtain ⟨Q, hQ, ha, -⟩ := hc.exists_known_of_mem_names hmem
  exact h Q hQ ha

/-- The id of a step leads to what the step ends with. -/
theorem resolve_id (hc : p.Compiled context e g) {Q : Place} (hQ : Q ∈ p.places) :
    e.resolve Q.id = Q.exits context :=
  hc.resolve_of_mem_known hQ Q.id_mem_known (hc.sound.id_ne_empty hQ)

/-! ## Nodes and dependencies -/

/-- The nodes of the graph are those that the stations make. -/
theorem mem_ids (hc : p.Compiled context e g) {n : String} :
    n ∈ g.ids ↔ ∃ S ∈ p.places, S.home = none ∧ n ∈ S.step.madeIds context := by
  rw [Graph.mem_ids, hc.nodes]
  constructor
  · rintro ⟨node, hnode, rfl⟩
    obtain ⟨d, hd, rfl⟩ := List.mem_map.1 hnode
    obtain ⟨S, hS, hmade, -⟩ := hc.covers.stems d hd
    obtain ⟨hS, hhome⟩ := mem_stations.1 hS
    exact ⟨S, hS, hhome, List.mem_map.2 ⟨_, hmade, rfl⟩⟩
  · rintro ⟨S, hS, hhome, hn⟩
    obtain ⟨⟨n, deps⟩, hmade, rfl⟩ := List.mem_map.1 hn
    obtain ⟨d, hd, heq, -⟩ := hc.covers.drafted S (mem_stations.2 ⟨hS, hhome⟩) _ hmade
    exact ⟨e.finish d, List.mem_map.2 ⟨d, hd, rfl⟩, (Prod.mk.inj heq).1⟩

theorem mem_deps_finish {d : Draft} {m : String} :
    m ∈ (e.finish d).deps ↔ (∃ id ∈ d.declared, m ∈ e.resolve id) ∨ m ∈ d.node.deps := by
  rw [Expansion.finish, mem_distinct, List.mem_append, List.mem_flatMap]

/-- A node waits for those that it gathers, and for what is declared for its station. -/
theorem dependsOn_iff (hc : p.Compiled context e g) {n m : String} :
    g.DependsOn n m ↔ ∃ S ∈ p.places, S.home = none ∧ ∃ deps, (n, deps) ∈ S.step.made context
      ∧ (m ∈ deps ∨ ∃ id ∈ S.declared, m ∈ e.resolve id) := by
  -- a node comes from one draft, and a draft from one station
  constructor
  · rintro ⟨node, hnode, rfl, hm⟩
    rw [hc.nodes] at hnode
    obtain ⟨d, hd, rfl⟩ := List.mem_map.1 hnode
    obtain ⟨S, hS, hmade, hdeclared⟩ := hc.covers.stems d hd
    obtain ⟨hS, hhome⟩ := mem_stations.1 hS
    refine ⟨S, hS, hhome, d.node.deps, hmade, ?_⟩
    rcases mem_deps_finish.1 hm with ⟨id, hid, hm⟩ | hm
    · exact .inr ⟨id, (hdeclared id).1 hid, hm⟩
    · exact .inl hm
  · rintro ⟨S, hS, hhome, deps, hmade, hm⟩
    obtain ⟨d, hd, heq, -, hdeclared⟩ :=
      hc.covers.drafted S (mem_stations.2 ⟨hS, hhome⟩) _ hmade
    obtain ⟨rfl, rfl⟩ := Prod.mk.inj heq
    refine ⟨e.finish d, ?_, rfl, mem_deps_finish.2 ?_⟩
    · rw [hc.nodes]
      exact List.mem_map.2 ⟨d, hd, rfl⟩
    · rcases hm with hm | ⟨id, hid, hm⟩
      · exact .inr hm
      · exact .inl ⟨id, (hdeclared id).2 hid, hm⟩

/-- No two stations make nodes of the same id. -/
theorem nodup_madeIds (hc : p.Compiled context e g) :
    (((p.steps.map fun s => (⟨s, [], none⟩ : Place)).flatMap Place.stations).flatMap fun S =>
      S.step.madeIds context).Nodup := by
  have hids : g.nodes.map Node.id = e.drafts.map fun d => d.node.id := by
    rw [hc.nodes, List.map_map]
    rfl
  rw [← hc.covers.ids.nodup_iff, ← hids]
  exact g.nodup

/-- No node is made by two stations. -/
theorem maker_unique (hc : p.Compiled context e g) {S Q : Place} (hS : S ∈ p.places)
    (hShome : S.home = none) (hQ : Q ∈ p.places) (hQhome : Q.home = none) {n : String}
    (hnS : n ∈ S.step.madeIds context) (hnQ : n ∈ Q.step.madeIds context) : S = Q :=
  eq_of_mem_flatMap hc.nodup_madeIds (mem_stations.2 ⟨hS, hShome⟩) (mem_stations.2 ⟨hQ, hQhome⟩)
    hnS hnQ

/-- What a node waits for, given the station that makes it. -/
theorem dependsOn_iff_of_made (hc : p.Compiled context e g) {S : Place} (hS : S ∈ p.places)
    (hhome : S.home = none) {n : String} {deps : List String}
    (hmade : (n, deps) ∈ S.step.made context) {m : String} :
    g.DependsOn n m ↔ m ∈ deps ∨ ∃ id ∈ S.declared, m ∈ e.resolve id := by
  constructor
  · intro h
    obtain ⟨Q, hQ, hQhome, deps', hmade', hm⟩ := hc.dependsOn_iff.1 h
    have hnS : n ∈ S.step.madeIds context := List.mem_map.2 ⟨_, hmade, rfl⟩
    have hnQ : n ∈ Q.step.madeIds context := List.mem_map.2 ⟨_, hmade', rfl⟩
    obtain rfl : S = Q := hc.maker_unique hS hhome hQ hQhome hnS hnQ
    have hnodup : (S.step.madeIds context).Nodup :=
      (List.nodup_flatMap.1 hc.nodup_madeIds).1 S (mem_stations.2 ⟨hS, hhome⟩)
    obtain ⟨-, rfl⟩ := Prod.mk.inj (List.inj_on_of_nodup_map hnodup hmade hmade' rfl)
    exact hm
  · exact fun hm => hc.dependsOn_iff.2 ⟨S, hS, hhome, deps, hmade, hm⟩

/-- Every node that a station makes waits for all that is declared for it. -/
theorem dependsOn_of_declared (hc : p.Compiled context e g) {S : Place} (hS : S ∈ p.places)
    (hhome : S.home = none) {n : String} (hn : n ∈ S.step.madeIds context) {d m : String}
    (hd : d ∈ S.declared) (hm : m ∈ e.resolve d) : g.DependsOn n m := by
  obtain ⟨⟨n, deps⟩, hmade, rfl⟩ := List.mem_map.1 hn
  exact hc.dependsOn_iff.2 ⟨S, hS, hhome, deps, hmade, .inr ⟨d, hd, hm⟩⟩

/-- The nodes of a place are nodes of the graph. -/
theorem mem_ids_of_mem_nodes (hc : p.Compiled context e g) {Q : Place} (hQ : Q ∈ p.places)
    {n : String} (hn : n ∈ Q.nodes context) : n ∈ g.ids := by
  cases hhome : Q.home with
  | none =>
    rw [Place.nodes_of_home_none hhome] at hn
    obtain ⟨S, hS, hmade⟩ := (Place.mem_nodes hhome).1 hn
    obtain ⟨hwithin, hSnone⟩ := Place.mem_stations.1 hS
    exact hc.mem_ids.2 ⟨S, mem_places_of_mem_within hQ hwithin, hSnone, hmade⟩
  | some h =>
    rw [Place.nodes_of_home_some hhome, List.mem_singleton] at hn
    obtain ⟨C, hC, hCnone, hkind, hid, -⟩ := exists_home hQ hhome
    refine hc.mem_ids.2 ⟨C, hC, hCnone, ?_⟩
    rw [hn, ← hid]
    exact Step.id_mem_madeIds_of_conditional hkind

theorem mem_ids_of_mem_exits (hc : p.Compiled context e g) {Q : Place} (hQ : Q ∈ p.places)
    {n : String} (hn : n ∈ Q.exits context) : n ∈ g.ids :=
  hc.mem_ids_of_mem_nodes hQ (Q.exits_subset_nodes context hn)

/-- If all that is declared is known of some place, then all that nodes wait for is there. -/
theorem closed_of_known (hc : p.Compiled context e g)
    (hknown : ∀ S ∈ p.places, ∀ d ∈ S.awaited, ∃ Q ∈ p.places, d ∈ Q.known) : g.Closed := by
  rw [Graph.closed_iff]
  intro n x h
  obtain ⟨S, hS, hhome, deps, hmade, hx⟩ := hc.dependsOn_iff.1 h
  rcases hx with hx | ⟨d, hd, hx⟩
  · rcases Place.mem_of_mem_made hhome hmade hx with hitem | ⟨M, hM, hMhome, hx⟩
    · exact hc.mem_ids.2 ⟨S, hS, hhome, List.mem_map.2 ⟨_, hitem, rfl⟩⟩
    · rw [← Place.exits_of_home_none hMhome] at hx
      exact hc.mem_ids_of_mem_exits (mem_places_of_mem_within hS (Place.member_mem_within hM)) hx
  · obtain ⟨R, hR, -, hdR, -⟩ := (hc.sound.mem_declared hS hhome).1 hd
    obtain ⟨Q, hQ, hdQ⟩ := hknown R hR d hdR
    rw [hc.resolve_of_mem_known hQ hdQ (hc.sound.awaited_ne_empty hR hdR)] at hx
    exact hc.mem_ids_of_mem_exits hQ hx

/-- Every node of a step is reached from one that the step ends with. -/
theorem reached_from_exits (hc : p.Compiled context e g) {P : Place} (hP : P ∈ p.places)
    (hhome : P.home = none) {m : String} (hm : m ∈ P.step.nodes context) :
    ∃ x ∈ P.step.exits context, Relation.ReflTransGen g.DependsOn x m := by
  induction P using Place.induction with
  | h P ih =>
    -- one node that the step makes, or that a step in its group ends with, and the way from there
    have hnear : ∃ y, (y ∈ P.step.madeIds context ∨ ∃ t ∈ P.step.group, y ∈ t.exits context)
        ∧ Relation.ReflTransGen g.DependsOn y m := by
      rcases Step.mem_nodes.1 hm with hm | ⟨t, ht, hm⟩
      · exact ⟨m, .inl hm, .refl⟩
      · obtain ⟨M, hM, hMhome, rfl⟩ := Place.exists_member_of_mem_group hhome ht
        have hMp : M ∈ p.places := mem_places_of_mem_within hP (Place.member_mem_within hM)
        obtain ⟨y, hy, hway⟩ := ih M hM hMp hMhome hm
        exact ⟨y, .inr ⟨M.step, ht, hy⟩, hway⟩
    obtain ⟨y, hy, hway⟩ := hnear
    rcases Step.mem_exits_or_gathered hy with hy | ⟨x, hx, deps, hmade, hy⟩
    · exact ⟨y, hy, hway⟩
    · have hstep : g.DependsOn x y := hc.dependsOn_iff.2 ⟨P, hP, hhome, deps, hmade, .inl hy⟩
      exact ⟨x, hx, .head hstep hway⟩

end Compiled

end Plan

end Wavefront
