/-
The expansion of steps makes the nodes that can be read off them.

`Expansion.Covers` says it for the steps of a list: the drafts are those of the stations inside
them, each with all that is declared for its station, and the names are the ids that the stations
are known by, each standing for what its station ends with. It is followed along the places; the
steps that become one node, whatever they are, go by one lemma.
-/
import Wavefront.Proofs.Plan.Station
import Wavefront.Proofs.Result

set_option autoImplicit false

namespace Wavefront

/-- Leaving out what comes up again leaves out no member. -/
theorem mem_distinct {α : Type} [DecidableEq α] {a : α} {l : List α} : a ∈ distinct l ↔ a ∈ l := by
  induction l with
  | nil => rfl
  | cons b rest ih =>
    rw [distinct, List.mem_cons, List.mem_cons, List.mem_filter, ih, decide_eq_true_eq]
    by_cases h : a = b
    · exact iff_of_true (.inl h) (.inl h)
    · exact or_congr_right (and_iff_left h)

/-! ## Names -/

namespace Expansion

@[simp] theorem drafts_named (e : Expansion) (id : String) : (e.named id).drafts = e.drafts := by
  unfold named
  split <;> rfl

@[simp] theorem exits_named (e : Expansion) (id : String) : (e.named id).exits = e.exits := by
  unfold named
  split <;> rfl

/-- A further name stands for the exits, unless it is empty. -/
theorem mem_names_named {e : Expansion} {id : String} {entry : String × List String} :
    entry ∈ (e.named id).names ↔ entry ∈ e.names ∨ id ≠ "" ∧ entry = (id, e.exits) := by
  unfold named
  by_cases h : id = ""
  · rw [if_pos h]
    exact (or_iff_left fun hne => hne.1 h).symm
  · rw [if_neg h]
    simp [h]

/-- Further names change no node. -/
@[simp] theorem drafts_namedAll (e : Expansion) (ids : List String) :
    (e.namedAll ids).drafts = e.drafts := by
  induction ids generalizing e with
  | nil => rfl
  | cons id ids ih => exact (ih (e.named id)).trans (drafts_named e id)

/-- Further names change no exit. -/
@[simp] theorem exits_namedAll (e : Expansion) (ids : List String) :
    (e.namedAll ids).exits = e.exits := by
  induction ids generalizing e with
  | nil => rfl
  | cons id ids ih => exact (ih (e.named id)).trans (exits_named e id)

/-- Further names stand for the exits, except for empty ones. -/
theorem mem_names_namedAll {e : Expansion} {ids : List String} {entry : String × List String} :
    entry ∈ (e.namedAll ids).names
      ↔ entry ∈ e.names ∨ ∃ id ∈ ids, id ≠ "" ∧ entry = (id, e.exits) := by
  induction ids generalizing e with
  | nil => simp [namedAll]
  | cons id ids ih =>
    have hstep : e.namedAll (id :: ids) = (e.named id).namedAll ids := rfl
    rw [hstep, ih, mem_names_named, exits_named, List.exists_mem_cons_iff, or_assoc]

/-- Where all entries for an id have the same exits, the id leads there. -/
theorem resolve_of_mem {e : Expansion} {id : String} {exits : List String}
    (hmem : (id, exits) ∈ e.names) (hunique : ∀ other, (id, other) ∈ e.names → other = exits) :
    e.resolve id = exits := by
  rw [resolve]
  cases hfind : e.names.reverse.find? fun entry => entry.1 = id with
  | none =>
    have hnot := List.find?_eq_none.1 hfind _ (List.mem_reverse.2 hmem)
    exact absurd (decide_eq_true rfl) hnot
  | some entry =>
    obtain ⟨b, other⟩ := entry
    obtain rfl : b = id := by simpa using List.find?_some hfind
    exact hunique other (List.mem_reverse.1 (List.mem_of_find?_eq_some hfind))

/-- An id that names nothing is kept as it is. -/
theorem resolve_of_not_mem {e : Expansion} {id : String} (h : ∀ exits, (id, exits) ∉ e.names) :
    e.resolve id = [id] := by
  rw [resolve]
  cases hfind : e.names.reverse.find? fun entry => entry.1 = id with
  | none => rfl
  | some entry =>
    obtain ⟨b, exits⟩ := entry
    obtain rfl : b = id := by simpa using List.find?_some hfind
    exact absurd (List.mem_reverse.1 (List.mem_of_find?_eq_some hfind)) (h exits)

end Expansion

/-! ## What an expansion covers -/

/-- A draft is that of one of the nodes that a station makes. -/
def Draft.StemsFrom (context : Value) (d : Draft) (S : Place) : Prop :=
  (d.node.id, d.node.deps) ∈ S.step.made context ∧ ∀ id, id ∈ d.declared ↔ id ∈ S.declared

/-- An expansion is that of the steps at these places. -/
structure Expansion.Covers (context : Value) (e : Expansion) (Ps : List Place) : Prop where
  exits : e.exits = Ps.flatMap fun P => P.step.exits context
  ids : (e.drafts.map fun d => d.node.id).Perm
    ((Ps.flatMap Place.stations).flatMap fun S => S.step.madeIds context)
  stems : ∀ d ∈ e.drafts, ∃ S ∈ Ps.flatMap Place.stations, d.StemsFrom context S
  drafted : ∀ S ∈ Ps.flatMap Place.stations, ∀ m ∈ S.step.made context,
    ∃ d ∈ e.drafts, (d.node.id, d.node.deps) = m ∧ d.StemsFrom context S
  names : ∀ entry, entry ∈ e.names ↔ ∃ S ∈ Ps.flatMap Place.stations, ∃ id ∈ S.step.aliases,
    id ≠ "" ∧ entry = (id, S.step.exits context)

namespace Expansion.Covers

variable {context : Value}

/-- Nothing has been expanded for no places. -/
theorem nil : Covers context {} [] := by
  refine ⟨rfl, .refl _, ?_, ?_, ?_⟩
  · exact fun d hd => absurd hd List.not_mem_nil
  · exact fun S hS => absurd hS List.not_mem_nil
  · intro entry
    refine iff_of_false List.not_mem_nil ?_
    rintro ⟨S, hS, -⟩
    exact absurd hS List.not_mem_nil

/-- What covers two lists of places covers both together. -/
theorem append {e f : Expansion} {Ps Qs : List Place} (he : e.Covers context Ps)
    (hf : f.Covers context Qs) : (e ++ f).Covers context (Ps ++ Qs) := by
  -- the fields in their order: exits, ids, where drafts stem from, what is drafted, names
  refine ⟨?_, ?_, ?_, ?_, ?_⟩
  · rw [List.flatMap_append, ← he.exits, ← hf.exits]
    rfl
  · have hdrafts : (e ++ f).drafts = e.drafts ++ f.drafts := rfl
    rw [hdrafts, List.map_append, List.flatMap_append, List.flatMap_append]
    exact he.ids.append hf.ids
  · intro d hd
    rw [List.flatMap_append]
    rcases List.mem_append.1 hd with hd | hd
    · obtain ⟨S, hS, hstems⟩ := he.stems d hd
      exact ⟨S, List.mem_append_left _ hS, hstems⟩
    · obtain ⟨S, hS, hstems⟩ := hf.stems d hd
      exact ⟨S, List.mem_append_right _ hS, hstems⟩
  · intro S hS m hm
    rw [List.flatMap_append] at hS
    rcases List.mem_append.1 hS with hS | hS
    · obtain ⟨d, hd, hstems⟩ := he.drafted S hS m hm
      exact ⟨d, List.mem_append_left _ hd, hstems⟩
    · obtain ⟨d, hd, hstems⟩ := hf.drafted S hS m hm
      exact ⟨d, List.mem_append_right _ hd, hstems⟩
  · intro entry
    rw [List.flatMap_append]
    refine List.mem_append.trans ?_
    rw [he.names, hf.names]
    simp only [List.mem_append, or_and_right, exists_or]

/-- The expansion of a step that makes all its nodes itself. -/
theorem of_alone {P : Place} (hP : P.home = none) (hgroup : P.step.group = []) {e : Expansion}
    (hfresh : e.names = []) (hexits : e.exits = P.step.exits context)
    (hdrafts : e.drafts.map (fun d => (d.node.id, d.node.deps)) = P.step.made context)
    (hdeclared : ∀ d ∈ e.drafts, ∀ id, id ∈ d.declared ↔ id ∈ P.declared) {names : List String}
    (hnames : ∀ id, id ≠ "" → (id ∈ names ↔ id ∈ P.step.aliases)) :
    (e.namedAll names).Covers context [P] := by
  have halone : [P].flatMap Place.stations = [P] := by
    rw [List.flatMap_singleton, Place.stations_of_group_eq_nil hP hgroup]
  -- such a place is its own one station
  have hstations : ∀ S, S ∈ [P].flatMap Place.stations ↔ S = P := by
    intro S
    rw [halone, List.mem_singleton]
  have hstems : ∀ d ∈ e.drafts, d.StemsFrom context P := by
    intro d hd
    refine ⟨?_, hdeclared d hd⟩
    rw [← hdrafts]
    exact List.mem_map.2 ⟨d, hd, rfl⟩
  refine ⟨?_, ?_, ?_, ?_, ?_⟩
  · rw [List.flatMap_singleton, exits_namedAll, hexits]
  · rw [halone, List.flatMap_singleton, Step.madeIds, ← hdrafts, drafts_namedAll, List.map_map]
    exact .refl _
  · rw [drafts_namedAll]
    exact fun d hd => ⟨P, (hstations P).2 rfl, hstems d hd⟩
  · intro S hS m hm
    obtain rfl : S = P := (hstations S).1 hS
    rw [← hdrafts] at hm
    obtain ⟨d, hd, rfl⟩ := List.mem_map.1 hm
    rw [drafts_namedAll]
    exact ⟨d, hd, rfl, hstems d hd⟩
  · intro entry
    rw [mem_names_namedAll, hfresh, or_iff_right List.not_mem_nil, hexits]
    simp only [hstations, exists_eq_left]
    constructor
    · rintro ⟨id, hmem, hne, heq⟩
      exact ⟨id, (hnames id hne).1 hmem, hne, heq⟩
    · rintro ⟨id, hmem, hne, heq⟩
      exact ⟨id, (hnames id hne).2 hmem, hne, heq⟩

/-- The expansion of a step that is one node. -/
theorem of_node {P : Place} (hP : P.home = none) (hgroup : P.step.group = [])
    (hmade : P.step.made context = [(P.id, [])]) (hexits : P.step.exits context = [P.id])
    {node : Node} (hid : node.id = P.id) (hdeps : node.deps = []) {declared names : List String}
    (hdeclared : ∀ id, id ∈ declared ↔ id ∈ P.declared)
    (hnames : ∀ id, id ≠ "" → (id ∈ names ↔ id ∈ P.step.aliases)) :
    ((Expansion.ofNode node declared).namedAll names).Covers context [P] := by
  refine of_alone hP hgroup rfl ?_ ?_ ?_ hnames
  · rw [hexits, ← hid]
    rfl
  · rw [hmade, ← hid, ← hdeps]
    rfl
  · intro d hd
    obtain rfl := List.mem_singleton.1 hd
    exact hdeclared

end Expansion.Covers

/-! ## Steps without steps inside -/

/-- A tool step is expanded to one node with its id and no dependency of its own. -/
theorem ToolStep.expand_eq_ok {s : ToolStep} {tools : Registry} {declared : List String}
    {e : Expansion} (h : s.expand tools declared = .ok e) :
    ∃ node, node.id = s.id ∧ node.deps = [] ∧ e = (Expansion.ofNode node declared).namedAll [] := by
  rw [expand, bind_eq_ok_iff] at h
  obtain ⟨tool, -, h⟩ := h
  obtain rfl := pure_eq_ok_iff.1 h
  exact ⟨_, rfl, rfl, rfl⟩

/-- A final step is expanded to one node with its id and no dependency of its own. -/
theorem FinalStep.expand_eq_ok {s : FinalStep} {tools : Registry} {declared : List String}
    {e : Expansion} (h : s.expand tools declared = .ok e) :
    ∃ node, node.id = s.id ∧ node.deps = [] ∧ e = (Expansion.ofNode node declared).namedAll [] := by
  rw [expand, bind_eq_ok_iff] at h
  obtain ⟨tool, -, h⟩ := h
  obtain rfl := pure_eq_ok_iff.1 h
  exact ⟨_, rfl, rfl, rfl⟩

/-- A reduce step is expanded to one node, known by the id of an inline reducer as well. -/
theorem ReduceStep.expand_eq_ok {s : ReduceStep} {tools : Registry} {declared : List String}
    {e : Expansion} (h : s.expand tools declared = .ok e) :
    ∃ node names, node.id = s.id ∧ node.deps = []
      ∧ (∀ id, id ≠ "" → (id ∈ names ↔ id ∈ (Step.reduce s).bodyIds))
      ∧ e = (Expansion.ofNode node declared).namedAll names := by
  rw [expand, bind_eq_ok_iff] at h
  obtain ⟨tool, -, h⟩ := h
  obtain rfl := pure_eq_ok_iff.1 h
  cases hreducer : s.reducer with
  | named name =>
    refine ⟨_, [], rfl, rfl, fun id _ => ?_, rfl⟩
    simp [Step.bodyIds, Step.body?, hreducer]
  | inline step =>
    refine ⟨_, [step.id], rfl, rfl, fun id hne => ?_, rfl⟩
    simp only [Step.bodyIds, Step.body?, hreducer, Option.map_some, Option.toList_some,
      List.mem_filter, decide_eq_true_eq]
    exact (and_iff_left hne).symm

/-- A loop is expanded item by item if its array is there, and to one node otherwise; it is known by
the id of its body either way. -/
theorem LoopStep.expand_eq_ok {s : LoopStep} {tools : Registry} {context : Value}
    {declared : List String} {e : Expansion} (h : s.expand tools context declared = .ok e) :
    (∃ items tool, s.known? context = some items
        ∧ e = (s.expandItems tool items declared).namedAll [s.body.id])
      ∨ s.known? context = none ∧ ∃ node, node.id = s.id ∧ node.deps = []
        ∧ e = (Expansion.ofNode node declared).namedAll [s.body.id] := by
  rw [expand, bind_eq_ok_iff] at h
  obtain ⟨tool, -, h⟩ := h
  obtain rfl := pure_eq_ok_iff.1 h
  rw [known?]
  cases context.deref s.items with
  | none => exact .inr ⟨rfl, _, rfl, rfl, rfl⟩
  | some v =>
    cases v with
    | array items => exact .inl ⟨items, tool, rfl, rfl⟩
    | null => exact .inr ⟨rfl, _, rfl, rfl, rfl⟩
    | bool b => exact .inr ⟨rfl, _, rfl, rfl, rfl⟩
    | number n => exact .inr ⟨rfl, _, rfl, rfl, rfl⟩
    | string s => exact .inr ⟨rfl, _, rfl, rfl, rfl⟩
    | object fields => exact .inr ⟨rfl, _, rfl, rfl, rfl⟩

/-- A conditional is expanded to one node that is known by what is inside and waits for what that
waits for outside. -/
theorem Shell.expandConditional_eq_ok {shell : Shell} {condition : String} {inside : List Step}
    {yes no : Branch} {tools : Registry} {declared : List String} {e : Expansion}
    (h : shell.expandConditional condition inside yes no tools declared = .ok e) :
    ∃ node, node.id = shell.id ∧ node.deps = []
      ∧ e = (Expansion.ofNode node (distinct (declared
          ++ (inside.flatMap Step.dependsOn).filter fun id =>
            id ∉ inside.flatMap Step.innerIds))).namedAll (inside.flatMap Step.innerIds) := by
  rw [expandConditional, bind_eq_ok_iff] at h
  obtain ⟨-, -, h⟩ := h
  obtain rfl := pure_eq_ok_iff.1 h
  exact ⟨_, rfl, rfl, rfl⟩

namespace Shell

variable {shell : Shell} {steps : List Step} {inside : Expansion} {declared : List String}

/-- A parallel step ends with what its members end with, or with the node that gathers. -/
theorem exits_expandParallel {context : Value} (h : inside.exits = Step.exitsAll context steps) :
    (shell.expandParallel steps inside declared).exits
      = (Step.parallel shell steps).exits context := by
  rw [Step.exits, expandParallel]
  cases shell.output with
  | none => exact h
  | some output => rfl

/-- Nothing but its members is known of a parallel step before it is named. -/
theorem names_expandParallel :
    (shell.expandParallel steps inside declared).names = inside.names := by
  rw [expandParallel]
  cases shell.output with
  | none => rfl
  | some output => rfl

/-- Apart from what is inside there is at most the gathering node. -/
theorem mem_drafts_expandParallel {d : Draft} :
    d ∈ (shell.expandParallel steps inside declared).drafts
      ↔ d ∈ inside.drafts ∨ ∃ output, shell.output = some output
        ∧ d = ⟨shell.gathering steps inside.exits output, declared⟩ := by
  rw [expandParallel]
  cases shell.output with
  | none => simp
  | some output => simp

end Shell

namespace Expansion

/-- Naming after naming is naming once. -/
theorem named_namedAll (e : Expansion) (ids : List String) (id : String) :
    (e.namedAll ids).named id = e.namedAll (ids ++ [id]) := by
  rw [namedAll, namedAll, List.foldl_append]
  rfl

end Expansion

/-! ## Steps -/

namespace Step

variable {tools : Registry} {context : Value}

/-- Nothing is declared for a step other than a conditional but what it waits for. -/
theorem mem_declared_of_distinct {P : Place} (hkind : P.step.kind ≠ "conditional")
    {inherited : List String} (hinherited : ∀ id, id ∈ inherited ↔ id ∈ P.inherited) (id : String) :
    id ∈ distinct (inherited ++ P.step.dependsOn) ↔ id ∈ P.declared := by
  rw [mem_distinct, Place.declared, lifted_eq_nil hkind, List.append_nil, Place.awaited,
    List.mem_append, List.mem_append, hinherited]

/-- Such a step is known by its own id and that of its body. -/
theorem mem_aliases_of_bodyIds {P : Place} (hkind : P.step.kind ≠ "conditional")
    {names : List String} (hnames : ∀ id, id ≠ "" → (id ∈ names ↔ id ∈ P.step.bodyIds)) (id : String)
    (hne : id ≠ "") : id ∈ names ++ [P.id] ↔ id ∈ P.step.aliases := by
  rw [aliases_eq_ownIds hkind, ownIds, List.mem_cons, List.mem_append, List.mem_singleton,
    hnames id hne, or_comm]
  rfl

/-- A step that is one node, and whose names are its own id and that of its body. -/
theorem covers_of_node {P : Place} (hP : P.home = none) (hkind : P.step.kind ≠ "conditional")
    (hgroup : P.step.group = []) (hmade : P.step.made context = [(P.id, [])])
    (hexits : P.step.exits context = [P.id]) {inherited : List String}
    (hinherited : ∀ id, id ∈ inherited ↔ id ∈ P.inherited) {node : Node} (hid : node.id = P.id)
    (hdeps : node.deps = []) {names : List String}
    (hnames : ∀ id, id ≠ "" → (id ∈ names ↔ id ∈ P.step.bodyIds)) :
    (((Expansion.ofNode node (distinct (inherited ++ P.step.dependsOn))).namedAll names).named
      P.id).Covers context [P] := by
  rw [Expansion.named_namedAll]
  exact .of_node hP hgroup hmade hexits hid hdeps (mem_declared_of_distinct hkind hinherited)
    (mem_aliases_of_bodyIds hkind hnames)

/-- A loop is covered, in either form. -/
theorem covers_loop {s : LoopStep} {P : Place} (hP : P.home = none) (hstep : P.step = .loop s)
    {inherited : List String} (hinherited : ∀ id, id ∈ inherited ↔ id ∈ P.inherited)
    {e : Expansion} (h : s.expand tools context (distinct (inherited ++ P.step.dependsOn)) = .ok e) :
    (e.named P.id).Covers context [P] := by
  have hkind : P.step.kind ≠ "conditional" := by
    rw [hstep]
    simp [kind]
  have hgroup : P.step.group = [] := by
    rw [hstep]
    rfl
  have hid : P.id = s.id := by
    rw [Place.id, hstep, id]
  have hbody : ∀ id, id ≠ "" → (id ∈ [s.body.id] ↔ id ∈ P.step.bodyIds) := by
    intro id hne
    rw [hstep]
    exact ⟨fun hmem => List.mem_filter.2 ⟨hmem, by simpa using hne⟩, List.mem_of_mem_filter⟩
  -- the array is there, with a node for each item and one that gathers; or it is not, with one node
  rcases LoopStep.expand_eq_ok h with ⟨items, tool, hknown, rfl⟩ | ⟨hknown, node, hnode, hdeps, rfl⟩
  · rw [Expansion.named_namedAll]
    refine .of_alone hP hgroup rfl ?_ ?_ ?_ (mem_aliases_of_bodyIds hkind hbody)
    · rw [hstep, exits, hknown]
      rfl
    · rw [hstep, made, hknown]
      simp [LoopStep.expandItems, LoopStep.iterationIds, LoopStep.iteration, Function.comp_def]
    · intro d hd
      obtain ⟨node, -, rfl⟩ := List.mem_map.1 hd
      exact mem_declared_of_distinct hkind hinherited
  · refine covers_of_node hP hkind hgroup ?_ ?_ hinherited (hnode.trans hid.symm) hdeps hbody
    · rw [hid, hstep, made, hknown]
    · rw [hid, hstep, exits, hknown]

/-- A conditional is covered: the steps inside lend it their names, not their nodes. -/
theorem covers_conditional {P : Place} (hP : P.home = none) {shell : Shell} {condition : String}
    {yes no : List Step} (hstep : P.step = .conditional shell condition yes no)
    {inherited : List String} (hinherited : ∀ id, id ∈ inherited ↔ id ∈ P.inherited)
    {yesBranch noBranch : Branch} {e : Expansion}
    (h : shell.expandConditional condition (nestedList yes ++ nestedList no) yesBranch noBranch tools
      (distinct (inherited ++ shell.dependsOn)) = .ok e) : (e.named P.id).Covers context [P] := by
  have hgroup : P.step.group = [] := by
    rw [hstep]
    rfl
  have hid : P.id = shell.id := by
    rw [Place.id, hstep, id]
  obtain ⟨node, hnode, hdeps, rfl⟩ := Shell.expandConditional_eq_ok h
  rw [Expansion.named_namedAll]
  refine .of_node hP hgroup ?_ ?_ (hnode.trans hid.symm) hdeps ?_ ?_
  · rw [hid, hstep]
    rfl
  · rw [hid, hstep]
    rfl
  · intro d
    rw [mem_distinct, List.mem_append, mem_distinct, List.mem_append, hinherited, Place.declared,
      Place.awaited, hstep, List.mem_append, List.mem_append]
    rfl
  · intro d _
    rw [hstep, aliases, hid, List.mem_append, List.mem_singleton, List.mem_cons, or_comm]

/-- A parallel step is covered if its members are. -/
theorem covers_parallel {P : Place} (hP : P.home = none) {shell : Shell} {steps : List Step}
    (hstep : P.step = .parallel shell steps) {inherited : List String}
    (hinherited : ∀ id, id ∈ inherited ↔ id ∈ P.inherited) {inside : Expansion}
    (hinside : inside.Covers context P.members) :
    ((shell.expandParallel steps inside (distinct (inherited ++ shell.dependsOn))).named
      P.id).Covers context [P] := by
  have hkind : P.step.kind ≠ "conditional" := by
    rw [hstep]
    simp [kind]
  have hmembers : P.members.map (·.step) = steps := by
    rw [Place.members, hstep, List.map_map]
    exact List.map_id steps
  have hhome : ∀ M ∈ P.members, M.home = none := by
    intro M hM
    rw [Place.home_of_mem_members hM, Place.innerHome_eq_home hkind, hP]
  -- the members keep their own stations, since a parallel step takes none of them in
  have hstations : ∀ S, S ∈ [P].flatMap Place.stations
      ↔ S = P ∨ S ∈ P.members.flatMap Place.stations := by
    intro S
    rw [List.flatMap_singleton, Place.mem_stations_iff hP, List.mem_flatMap]
    refine or_congr Iff.rfl (exists_congr fun M => and_congr_right fun hM => ?_)
    exact and_iff_right (hhome M hM)
  have hinsideExits : inside.exits = exitsAll context steps := by
    rw [hinside.exits, exitsAll_eq_flatMap, ← hmembers, List.flatMap_map]
  have hdeclared := mem_declared_of_distinct hkind hinherited
  have hdepends : P.step.dependsOn = shell.dependsOn := by rw [hstep, dependsOn]
  rw [hdepends] at hdeclared
  have hexits : (shell.expandParallel steps inside (distinct (inherited ++ shell.dependsOn))).exits
      = P.step.exits context := by
    rw [hstep]
    exact Shell.exits_expandParallel hinsideExits
  have hmade : ∀ m, m ∈ P.step.made context
      ↔ ∃ output, shell.output = some output
        ∧ m = (gatheredId shell.id, exitsAll context steps) := by
    intro m
    rw [hstep]
    exact mem_made_parallel
  -- exits, ids, stems, drafts and names; the node that gathers is the only one that the step adds
  refine ⟨?_, ?_, ?_, ?_, ?_⟩
  · rw [List.flatMap_singleton, Expansion.exits_named, hexits]
  · rw [List.flatMap_singleton, Place.stations_eq_cons hP, List.flatMap_cons, Expansion.drafts_named,
      madeIds, hstep, made, Shell.expandParallel]
    cases shell.output with
    | none => exact hinside.ids
    | some output =>
      simp only [List.map_append]
      exact List.perm_append_comm.trans (hinside.ids.append_left _)
  · intro d hd
    rw [Expansion.drafts_named, Shell.mem_drafts_expandParallel] at hd
    rcases hd with hd | ⟨output, houtput, rfl⟩
    · obtain ⟨S, hS, hstems⟩ := hinside.stems d hd
      exact ⟨S, (hstations S).2 (.inr hS), hstems⟩
    · refine ⟨P, (hstations P).2 (.inl rfl), (hmade _).2 ⟨output, houtput, ?_⟩, hdeclared⟩
      rw [← hinsideExits]
      rfl
  · intro S hS m hm
    rw [Expansion.drafts_named]
    rcases (hstations S).1 hS with rfl | hS
    · obtain ⟨output, houtput, rfl⟩ := (hmade m).1 hm
      refine ⟨_, Shell.mem_drafts_expandParallel.2 (.inr ⟨output, houtput, rfl⟩), ?_, ?_,
        hdeclared⟩
      · rw [← hinsideExits]
        rfl
      · rw [← hinsideExits] at hm
        exact hm
    · obtain ⟨d, hd, heq, hstems⟩ := hinside.drafted S hS m hm
      exact ⟨d, Shell.mem_drafts_expandParallel.2 (.inl hd), heq, hstems⟩
  · intro entry
    rw [Expansion.mem_names_named, hexits, Shell.names_expandParallel, hinside.names]
    constructor
    · rintro (⟨S, hS, hentry⟩ | ⟨hne, rfl⟩)
      · exact ⟨S, (hstations S).2 (.inr hS), hentry⟩
      · refine ⟨P, (hstations P).2 (.inl rfl), P.id, ?_, hne, rfl⟩
        exact ownIds_subset_aliases P.step P.step.id_mem_ownIds
    · rintro ⟨S, hS, id, hid, hne, rfl⟩
      rcases (hstations S).1 hS with rfl | hS
      · right
        have hown : S.step.aliases = [S.id] := by
          rw [Place.id, hstep]
          rfl
        rw [hown] at hid
        obtain rfl := List.mem_singleton.1 hid
        exact ⟨hne, rfl⟩
      · exact .inl ⟨S, hS, id, hid, hne, rfl⟩

/-- Steps are expanded one after the other. -/
theorem expandAll_cons_eq_ok {inherited : List String} {s : Step} {steps : List Step}
    {e : Expansion} :
    expandAll tools context inherited (s :: steps) = .ok e
      ↔ ∃ first rest, expand tools context inherited s = .ok first
        ∧ expandAll tools context inherited steps = .ok rest ∧ e = first ++ rest := by
  rw [expandAll, bind_eq_ok_iff]
  constructor
  · rintro ⟨first, hfirst, h⟩
    obtain ⟨rest, hrest, h⟩ := bind_eq_ok_iff.1 h
    exact ⟨first, rest, hfirst, hrest, (pure_eq_ok_iff.1 h).symm⟩
  · rintro ⟨first, rest, hfirst, hrest, rfl⟩
    exact ⟨first, hfirst, bind_eq_ok_iff.2 ⟨rest, hrest, rfl⟩⟩

/-- Steps side by side are covered if each of them is. -/
theorem covers_expandAll {inherited scope : List String} {steps : List Step}
    (hsteps : ∀ s ∈ steps, ∀ e, expand tools context inherited s = .ok e →
      e.Covers context [⟨s, scope, none⟩]) {e : Expansion}
    (h : expandAll tools context inherited steps = .ok e) :
    e.Covers context (steps.map fun s => ⟨s, scope, none⟩) := by
  induction steps generalizing e with
  | nil =>
    rw [expandAll] at h
    obtain rfl := Except.ok.inj h
    exact .nil
  | cons s steps ih =>
    obtain ⟨first, rest, hfirst, hrest, rfl⟩ := expandAll_cons_eq_ok.1 h
    have hcovers := ih (fun t ht => hsteps t (List.mem_cons_of_mem s ht)) hrest
    exact (hsteps s List.mem_cons_self first hfirst).append hcovers

/-- The expansion of a step covers it. -/
theorem covers_expand {P : Place} (hP : P.home = none) {inherited : List String}
    (hinherited : ∀ id, id ∈ inherited ↔ id ∈ P.inherited) {e : Expansion}
    (h : expand tools context inherited P.step = .ok e) : e.Covers context [P] := by
  -- members inherit more than the place itself, so what is inherited is general
  induction P using Place.induction generalizing inherited e with
  | h P ih =>
    obtain ⟨step, scope, home⟩ := P
    cases step with
    | tool s =>
      rw [expand, bind_eq_ok_iff] at h
      obtain ⟨first, hfirst, h⟩ := h
      obtain rfl := pure_eq_ok_iff.1 h
      obtain ⟨node, hid, hdeps, rfl⟩ := ToolStep.expand_eq_ok hfirst
      exact covers_of_node hP (by simp [kind]) rfl rfl rfl hinherited hid hdeps fun id _ => Iff.rfl
    | final s =>
      rw [expand, bind_eq_ok_iff] at h
      obtain ⟨first, hfirst, h⟩ := h
      obtain rfl := pure_eq_ok_iff.1 h
      obtain ⟨node, hid, hdeps, rfl⟩ := FinalStep.expand_eq_ok hfirst
      exact covers_of_node hP (by simp [kind]) rfl rfl rfl hinherited hid hdeps fun id _ => Iff.rfl
    | reduce s =>
      rw [expand, bind_eq_ok_iff] at h
      obtain ⟨first, hfirst, h⟩ := h
      obtain rfl := pure_eq_ok_iff.1 h
      obtain ⟨node, names, hid, hdeps, hnames, rfl⟩ := ReduceStep.expand_eq_ok hfirst
      exact covers_of_node hP (by simp [kind]) rfl rfl rfl hinherited hid hdeps hnames
    | loop s =>
      rw [expand, bind_eq_ok_iff] at h
      obtain ⟨first, hfirst, h⟩ := h
      obtain rfl := pure_eq_ok_iff.1 h
      exact covers_loop hP rfl hinherited hfirst
    | conditional shell condition yes no =>
      rw [expand, bind_eq_ok_iff] at h
      obtain ⟨first, hfirst, h⟩ := h
      obtain rfl := pure_eq_ok_iff.1 h
      exact covers_conditional hP rfl hinherited hfirst
    | parallel shell steps =>
      rw [expand] at h
      obtain ⟨inside, hinside, h⟩ := bind_eq_ok_iff.1 h
      obtain rfl := pure_eq_ok_iff.1 h
      obtain rfl : home = none := hP
      refine covers_parallel rfl rfl hinherited (covers_expandAll ?_ hinside)
      intro s hs e he
      refine ih ⟨s, scope ++ shell.dependsOn, none⟩ (Place.mem_members.2 ⟨s, hs, rfl⟩) rfl ?_ he
      intro id
      rw [mem_distinct, List.mem_append, hinherited, List.mem_append]

end Step

/-- The expansion of a plan covers its steps. -/
theorem Plan.covers_expandAll {p : Plan} {tools : Registry} {context : Value} {e : Expansion}
    (h : Step.expandAll tools context [] p.steps = .ok e) :
    e.Covers context (p.steps.map fun s => ⟨s, [], none⟩) :=
  Step.covers_expandAll (fun s _ _ he => Step.covers_expand (P := ⟨s, [], none⟩) rfl
    (fun _ => Iff.rfl) he) h

end Wavefront
