/-
Recording a trace: what any sequence of operations leaves.

Three things are done to a trace while it is recorded: entries are begun, changed at their index,
and failed by their node. Each of them is told by what it does to the list of entries
(`entries_perform`), so a whole sequence only ever appends: the entries are those that were begun,
in this order, and the indices that were given out go on to mean them.

An update may be any change of an entry, and it is a change of this entry only. Those of a run set
some of the fields that tell how the node has fared (`Entry.Revision`), and so leave alone what the
entry is known by; an update that sets its names is the one way to lose those that it was begun
with.
-/
import Mathlib.Data.List.Basic
import Wavefront.Trace.Basic

set_option autoImplicit false

namespace Wavefront

/-! ## Changing the first item with a property -/

section ModifyFirst

variable {α : Type} {p : α → Bool} {f : α → α} {l : List α}

/-- Either no item has the property and nothing is changed, or the first one that has it is changed
where it stands. -/
theorem modifyFirst_cases (p : α → Bool) (f : α → α) (l : List α) :
    (∀ a ∈ l, p a = false) ∧ modifyFirst p f l = l ∨
    ∃ i a, l[i]? = some a ∧ p a = true ∧ (∀ j < i, ∀ b, l[j]? = some b → p b = false) ∧
      modifyFirst p f l = l.set i (f a) := by
  induction l with
  | nil => exact .inl ⟨fun _ ha => absurd ha List.not_mem_nil, rfl⟩
  | cons first l ih =>
    by_cases hfirst : p first = true
    · refine .inr ⟨0, first, rfl, hfirst, fun j hj => absurd hj (Nat.not_lt_zero j), ?_⟩
      rw [modifyFirst, if_pos hfirst]
      rfl
    · rw [modifyFirst, if_neg hfirst]
      rw [Bool.not_eq_true] at hfirst
      rcases ih with ⟨hnone, hsame⟩ | ⟨i, a, ha, hp, hbefore, hset⟩
      · exact .inl ⟨List.forall_mem_cons.2 ⟨hfirst, hnone⟩, by rw [hsame]⟩
      · refine .inr ⟨i + 1, a, ha, hp, fun j hj b hb => ?_, by rw [hset, List.set_cons_succ]⟩
        cases j with
        | zero => exact Option.some.inj hb ▸ hfirst
        | succ j => exact hbefore j (Nat.lt_of_succ_lt_succ hj) b hb

/-- Where nothing fits nothing is changed. -/
theorem modifyFirst_eq_self (h : ∀ a ∈ l, p a = false) : modifyFirst p f l = l := by
  rcases modifyFirst_cases p f l with ⟨_, hsame⟩ | ⟨i, a, ha, hp, _⟩
  · exact hsame
  · rw [h a (List.mem_of_getElem? ha)] at hp
    contradiction

/-- Where only one entry fits, that is the one that is changed. -/
theorem modifyFirst_eq_modify {i : Nat} {a : α} (ha : l[i]? = some a) (hp : p a = true)
    (honly : ∀ (j : Nat) (b : α), l[j]? = some b → p b = true → j = i) :
    modifyFirst p f l = l.modify i f := by
  rcases modifyFirst_cases p f l with ⟨hnone, _⟩ | ⟨j, b, hb, hpb, _, hset⟩
  · rw [hnone a (List.mem_of_getElem? ha)] at hp
    contradiction
  · obtain rfl := honly j b hb hpb
    rw [hset, List.modify_eq_set_getElem?, hb]
    rfl

/-- An item without the property stays. -/
theorem mem_modifyFirst {a : α} (ha : a ∈ l) (hp : p a = false) : a ∈ modifyFirst p f l := by
  rcases modifyFirst_cases p f l with ⟨_, hsame⟩ | ⟨i, b, hb, hpb, _, hset⟩
  · rwa [hsame]
  · obtain ⟨k, hk⟩ := List.mem_iff_getElem?.1 ha
    have hne : i ≠ k := by
      rintro rfl
      obtain rfl := Option.some.inj (hb.symm.trans hk)
      rw [hp] at hpb
      contradiction
    rw [hset]
    exact List.mem_of_getElem? ((List.getElem?_set_ne hne).trans hk)

/-- Every entry was there, or is one that was there, changed. -/
theorem mem_or_of_mem_modifyFirst {a : α} (ha : a ∈ modifyFirst p f l) :
    a ∈ l ∨ ∃ b ∈ l, a = f b := by
  rcases modifyFirst_cases p f l with ⟨_, hsame⟩ | ⟨i, b, hb, _, _, hset⟩
  · exact .inl (hsame ▸ ha)
  · rw [hset] at ha
    exact (List.mem_or_eq_of_mem_set ha).imp_right fun heq => ⟨b, List.mem_of_getElem? hb, heq⟩

end ModifyFirst

/-! ## Entries -/

namespace Entry

/-- What an entry is known by: its node, the step that the node comes from, and its tool. -/
def names (e : Entry) : String × Option String × Option String := (e.nodeId, e.stepId, e.toolName)

/-- The entry is one of the node and has not ended. -/
def IsOpenOf (node : String) (e : Entry) : Prop := e.nodeId = node ∧ e.status.isTerminal = false

/-- The change leaves alone what entries are known by. -/
def KeepsNames (change : Entry → Entry) : Prop := ∀ e, (change e).names = e.names

/-- What an update of a run sets, each of it only if it is given: the number of retries, the output,
the error, and the status that the entry ends with at a moment. -/
structure Revision where
  retryCount : Option Nat := none
  output : Option Value := none
  error : Option String := none
  ending : Option (Moment × Status) := none

/-- Sets what is given. -/
def Revision.apply (r : Revision) (e : Entry) : Entry :=
  let revised : Entry :=
    { e with
      retryCount := r.retryCount.getD e.retryCount
      output := r.output.or e.output
      error := r.error.or e.error }
  match r.ending with
  | some (now, status) => revised.finish now status
  | none => revised

/-- No revision touches the names. -/
theorem Revision.keepsNames_apply (r : Revision) : KeepsNames r.apply := by
  intro e
  simp only [apply]
  split <;> rfl

/-- Failing an entry keeps what it is known by. -/
theorem keepsNames_fail (now : Moment) (message : String) :
    KeepsNames fun e => e.fail now message := fun _ => rfl

end Entry

/-! ## Operations -/

namespace Trace

/-- What is done to a trace while it is recorded. -/
inductive Operation where
  | begin (e : Entry)
  | update (i : Nat) (change : Entry → Entry)
  | failUnsettled (now : Moment) (node message : String)

/-- Carries out an operation. A begin answers with the index of its entry. -/
def perform (t : Trace) : Operation → Option Nat × Trace
  | .begin e => (some (t.begin e).1, (t.begin e).2)
  | .update i change => (none, t.update i change)
  | .failUnsettled now node message => (none, t.failUnsettled now node message)

/-- Carries out operations one after the other, and collects the answers of the begins. -/
def performAll (t : Trace) : List Operation → List Nat × Trace
  | [] => ([], t)
  | op :: ops =>
      ((t.perform op).1.toList ++ ((t.perform op).2.performAll ops).1,
        ((t.perform op).2.performAll ops).2)

/-- The entry that an operation begins. -/
def Operation.begun? : Operation → Option Entry
  | .begin e => some e
  | _ => none

/-- The entries that are begun, in this order. -/
def begun (ops : List Operation) : List Entry := ops.filterMap Operation.begun?

/-- The operation is an update of the index, and by a change that does not leave names alone. -/
def Operation.Renames (i : Nat) : Operation → Prop
  | .update j change => j = i ∧ ¬ Entry.KeepsNames change
  | _ => False

/-- The entries that are begun, operation by operation. -/
theorem begun_cons (op : Operation) (ops : List Operation) :
    begun (op :: ops) = op.begun?.toList ++ begun ops := by
  rw [begun, List.filterMap_cons]
  cases op.begun? <;> rfl

variable {t : Trace}

/-! ### Updates -/

/-- An update changes what is at its index, and nothing else. -/
theorem getElem?_update (t : Trace) (i : Nat) (change : Entry → Entry) :
    (t.update i change).entries[i]? = (t.entries[i]?).map change ∧
      ∀ j, j ≠ i → (t.update i change).entries[j]? = t.entries[j]? := by
  refine ⟨?_, fun j hj => ?_⟩
  · rw [update, List.getElem?_modify_eq]
    rfl
  · exact List.getElem?_modify_ne change t.entries hj.symm

/-! ### Failing by node -/

/-- The entries of a node failed by a message: the first one that is open, if there is one, has now
failed with this message, and nothing else has changed. -/
inductive Fails (t : Trace) (node message : String) : Trace → Prop where
  | settled (h : ∀ e ∈ t.entries, ¬ e.IsOpenOf node) : t.Fails node message t
  | first {i : Nat} {e failed : Entry} (he : t.entries[i]? = some e) (hopen : e.IsOpenOf node)
      (hbefore : ∀ j < i, ∀ d, t.entries[j]? = some d → ¬ d.IsOpenOf node)
      (hnames : failed.names = e.names) (hstatus : failed.status = .failed)
      (herror : failed.error = some message) :
      t.Fails node message { t with entries := t.entries.set i failed }

/-- Failing what has not ended does what `Fails` says. -/
theorem fails_failUnsettled (t : Trace) (now : Moment) (node message : String) :
    t.Fails node message (t.failUnsettled now node message) := by
  have hopen : ∀ e : Entry,
      (decide (e.nodeId = node) && !e.status.isTerminal) = true ↔ e.IsOpenOf node := fun e => by
    rw [Entry.IsOpenOf, Bool.and_eq_true, decide_eq_true_eq, Bool.not_eq_true']
  rw [failUnsettled]
  rcases modifyFirst_cases (fun e : Entry => decide (e.nodeId = node) && !e.status.isTerminal)
    (fun e => e.fail now message) t.entries with ⟨hnone, hsame⟩ | ⟨i, e, he, hp, hbefore, hset⟩
  · rw [hsame]
    refine .settled fun e he => ?_
    rw [← hopen, hnone e he]
    exact Bool.false_ne_true
  · rw [hset]
    refine .first he ((hopen e).1 hp) (fun j hj d hd => ?_) (Entry.keepsNames_fail now message e)
      rfl rfl
    rw [← hopen, hbefore j hj d hd]
    exact Bool.false_ne_true

namespace Fails

variable {node message : String} {t' : Trace}

/-- Failing an entry makes the trace no longer. -/
theorem length_eq (h : t.Fails node message t') : t'.entries.length = t.entries.length := by
  cases h with
  | settled _ => rfl
  | first _ _ _ _ _ _ => exact List.length_set

/-- An entry that has ended stays as it is. -/
theorem getElem?_of_isTerminal (h : t.Fails node message t') {i : Nat} {e : Entry}
    (he : t.entries[i]? = some e) (hterminal : e.status.isTerminal = true) :
    t'.entries[i]? = some e := by
  cases h with
  | settled _ => exact he
  | @first k d failed hd hopen _ _ _ _ =>
    have hne : k ≠ i := by
      rintro rfl
      obtain rfl := Option.some.inj (hd.symm.trans he)
      rw [hopen.2] at hterminal
      contradiction
    exact (List.getElem?_set_ne hne).trans he

/-- Failing an entry leaves all names alone. -/
theorem names_eq (h : t.Fails node message t') (i : Nat) :
    (t'.entries[i]?).map Entry.names = (t.entries[i]?).map Entry.names := by
  cases h with
  | settled _ => rfl
  | @first k d failed hd _ _ hnames _ _ =>
    by_cases hk : k = i
    · subst hk
      rw [List.getElem?_set_self (List.getElem?_eq_some_iff.1 hd).1, hd, Option.map_some,
        Option.map_some, hnames]
    · rw [List.getElem?_set_ne hk]

end Fails

/-! ### One operation -/

/-- A begin is answered with the index behind all entries that there are. -/
theorem perform_answer (t : Trace) (op : Operation) :
    (t.perform op).1.toList = List.range' t.entries.length op.begun?.toList.length := by
  cases op <;> rfl

/-- Only a begin makes the trace longer. -/
theorem length_perform (t : Trace) (op : Operation) :
    (t.perform op).2.entries.length = t.entries.length + op.begun?.toList.length := by
  cases op with
  | begin e => exact List.length_append
  | update i change => exact List.length_modify change t.entries i
  | failUnsettled now node message => exact (fails_failUnsettled t now node message).length_eq

/-- An operation appends the entry that it begins, and what is at an index keeps its names. -/
theorem names_perform {op : Operation} {i : Nat} (h : ¬ op.Renames i) :
    ((t.perform op).2.entries[i]?).map Entry.names
      = ((t.entries ++ op.begun?.toList)[i]?).map Entry.names := by
  cases op with
  | begin e => rfl
  | failUnsettled now node message =>
    simp only [Operation.begun?, Option.toList_none, List.append_nil]
    exact (fails_failUnsettled t now node message).names_eq i
  | update j change =>
    simp only [Operation.begun?, Option.toList_none, List.append_nil, perform, update,
      List.getElem?_modify, Option.map_eq_map, Option.map_map]
    refine Option.map_congr fun e _ => ?_
    by_cases hj : j = i
    · have hkeeps : Entry.KeepsNames change := not_not.1 fun hnot => h ⟨hj, hnot⟩
      rw [Function.comp_apply, if_pos hj, hkeeps e]
    · rw [Function.comp_apply, if_neg hj]

/-! ### All operations -/

/-- The begins are answered with the indices behind the entries that there were, one after the
other. -/
theorem performAll_answers (t : Trace) (ops : List Operation) :
    (t.performAll ops).1 = List.range' t.entries.length (begun ops).length := by
  induction ops generalizing t with
  | nil => rfl
  | cons op ops ih =>
    rw [performAll, ih, perform_answer, length_perform, begun_cons, List.length_append,
      ← List.range'_append, Nat.one_mul]

/-- The trace is longer by the entries that were begun. -/
theorem length_performAll (t : Trace) (ops : List Operation) :
    (t.performAll ops).2.entries.length = t.entries.length + (begun ops).length := by
  induction ops generalizing t with
  | nil => rfl
  | cons op ops ih =>
    rw [performAll, ih, length_perform, begun_cons, List.length_append, Nat.add_assoc]

/-- After all operations an index means the entry that was there or was begun as that one. -/
theorem names_performAll {ops : List Operation} {i : Nat} (h : ∀ op ∈ ops, ¬ op.Renames i) :
    ((t.performAll ops).2.entries[i]?).map Entry.names
      = ((t.entries ++ begun ops)[i]?).map Entry.names := by
  induction ops generalizing t with
  | nil => rw [performAll, begun, List.filterMap_nil, List.append_nil]
  | cons op ops ih =>
    obtain ⟨hop, hops⟩ := List.forall_mem_cons.1 h
    have hlength : (t.perform op).2.entries.length
        = (t.entries ++ op.begun?.toList).length := by
      rw [length_perform, List.length_append]
    rw [performAll, ih hops, begun_cons, ← List.append_assoc, List.getElem?_append,
      List.getElem?_append, hlength]
    split
    · exact names_perform hop
    · rfl

end Trace

/-! ## Statistics -/

/-- Each entry is counted once: by how it has ended, or as one that has not. -/
theorem Statistics.total_ofEntries (entries : List Entry) :
    (ofEntries entries).total
      = (ofEntries entries).successful + (ofEntries entries).failed + (ofEntries entries).skipped
        + (ofEntries entries).cancelled
        + (countStatus .pending entries + countStatus .running entries) := by
  induction entries with
  | nil => rfl
  | cons e entries ih =>
    simp only [ofEntries, countStatus, List.length_cons, List.countP_cons] at ih ⊢
    cases hstatus : e.status
    all_goals
      simp [-List.countP_eq_zero]
      omega

/-! ## The log -/

namespace Trace

/-- What a trace is that has been recorded from the beginning by operations, the begins of which
have been answered. -/
structure IsLogOf (ops : List Operation) (answers : List Nat) (t : Trace) : Prop where
  /-- The first begin is answered with 0, the next one with 1 and so on. -/
  answers_eq : answers = List.range (begun ops).length
  length_eq : t.entries.length = (begun ops).length
  /-- An entry keeps the names that it was begun with, unless an update of just this entry changes names. -/
  names_eq : ∀ i, (∀ op ∈ ops, ¬ op.Renames i) →
    (t.entries[i]?).map Entry.names = ((begun ops)[i]?).map Entry.names
  /-- So all entries do if the updates are such as a run makes. -/
  names_of_revisions :
    (∀ i change, .update i change ∈ ops → ∃ r : Entry.Revision, change = r.apply) →
    t.entries.map Entry.names = (begun ops).map Entry.names
  update_of_length_le : ∀ i change, t.entries.length ≤ i → t.update i change = t
  /-- An update changes the entry at its index by the change, and no other entry. -/
  updates : ∀ i change, (t.update i change).entries[i]? = (t.entries[i]?).map change ∧
    ∀ j, j ≠ i → (t.update i change).entries[j]? = t.entries[j]?
  fails : ∀ now node message, t.Fails node message (t.failUnsettled now node message)
  /-- What has ended is not failed by its node any more. -/
  spared : ∀ now node message (i : Nat) (e : Entry), t.entries[i]? = some e →
    e.status.isTerminal = true → (t.failUnsettled now node message).entries[i]? = some e
  /-- The statistics at the end count each entry once, but for those that have not ended. -/
  counted : ∀ now context, ∃ s, (t.finish now context).statistics = some s ∧
    s.total = s.successful + s.failed + s.skipped + s.cancelled
      + (countStatus .pending t.entries + countStatus .running t.entries)

/-- Whatever the operations on a new trace, and in whatever order, the trace is a log of them. -/
theorem performAll_isLogOf (planId : String) (mode : Mode) (startedAt : Moment)
    (ops : List Operation) :
    IsLogOf ops (performAll { planId, mode, startedAt } ops).1
      (performAll { planId, mode, startedAt } ops).2 := by
  -- the names of one entry depend on the updates of this entry alone
  have hnames : ∀ i, (∀ op ∈ ops, ¬ op.Renames i) →
      ((performAll { planId, mode, startedAt } ops).2.entries[i]?).map Entry.names
        = ((begun ops)[i]?).map Entry.names := fun i h => names_performAll h
  constructor
  case answers_eq => exact (performAll_answers _ ops).trans List.range_eq_range'.symm
  case length_eq => exact (length_performAll _ ops).trans (Nat.zero_add _)
  case names_eq => exact hnames
  case names_of_revisions =>
    intro hrevisions
    refine List.ext_getElem? fun i => ?_
    rw [List.getElem?_map, List.getElem?_map]
    refine hnames i fun op hop hrenames => ?_
    cases op with
    | update j change =>
      obtain ⟨r, rfl⟩ := hrevisions j change hop
      exact hrenames.2 r.keepsNames_apply
    | _ => exact hrenames
  case update_of_length_le =>
    intro i change hle
    rw [update, List.modify_eq_self hle]
  case updates => exact fun i change => getElem?_update _ i change
  case fails => exact fun now node message => fails_failUnsettled _ now node message
  case spared =>
    exact fun now node message i e he hterminal =>
      (fails_failUnsettled _ now node message).getElem?_of_isTerminal he hterminal
  case counted => exact fun now context => ⟨_, rfl, Statistics.total_ofEntries _⟩

/-- Two entries are begun. The second one gets another node, the first one its output and its
end. -/
def renamingSecond : List Operation :=
  [.begin { nodeId := "a", startTime := .epoch }, .begin { nodeId := "b", startTime := .epoch },
    .update 1 fun e => { e with nodeId := "c" },
    .update 0 (Entry.Revision.apply { output := some .null, ending := some (.epoch, .success) })]

/-- Two entries are begun, updated as a run does it, and failed by their nodes. -/
def revising : List Operation :=
  [.begin { nodeId := "a", startTime := .epoch }, .begin { nodeId := "b", startTime := .epoch },
    .update 0 (Entry.Revision.apply { output := some .null, ending := some (.epoch, .success) }),
    .failUnsettled .epoch "b" "panicked"]

/-- An entry keeps its names while another one loses them, and all keep theirs under updates of a
run. -/
theorem performAll_isLogOf_renamingSecond :
    (∀ op ∈ renamingSecond, ¬ op.Renames 0) ∧
      ((performAll { planId := "p", mode := .dag, startedAt := .epoch } renamingSecond).2.entries[0]?).map
        Entry.names = some ("a", none, none) ∧
      (∀ i change, .update i change ∈ revising → ∃ r : Entry.Revision, change = r.apply) ∧
      (performAll { planId := "p", mode := .dag, startedAt := .epoch } revising).2.entries.map
        Entry.names = [("a", none, none), ("b", none, none)] := by
  have hspared : ∀ op ∈ renamingSecond, ¬ op.Renames 0 := by
    intro op hop hrenames
    simp only [renamingSecond, List.mem_cons, List.not_mem_nil, or_false] at hop
    rcases hop with rfl | rfl | rfl | rfl
    · exact hrenames
    · exact hrenames
    · exact absurd hrenames.1 (by decide)
    · exact hrenames.2 (Entry.Revision.keepsNames_apply _)
  have hrevisions : ∀ i change, .update i change ∈ revising →
      ∃ r : Entry.Revision, change = r.apply := by
    intro i change hop
    simp only [revising, List.mem_cons, List.not_mem_nil, or_false, Operation.update.injEq,
      reduceCtorEq, false_or] at hop
    exact ⟨_, hop.2⟩
  exact ⟨hspared, (performAll_isLogOf "p" .dag .epoch renamingSecond).names_eq 0 hspared, hrevisions,
    (performAll_isLogOf "p" .dag .epoch revising).names_of_revisions hrevisions⟩

/-- An entry is begun, and its node is set to another one. -/
def renamingFirst : List Operation :=
  [.begin { nodeId := "a", startTime := .epoch }, .update 0 fun e => { e with nodeId := "b" }]

/-- Not every sequence of operations leaves the entries the names that they were begun with. -/
theorem renamingFirst_loses_names :
    (performAll { planId := "p", mode := .dag, startedAt := .epoch } renamingFirst).2.entries.map
      Entry.names = [("b", none, none)] ∧
    (begun renamingFirst).map Entry.names = [("a", none, none)] := ⟨rfl, rfl⟩

end Trace

end Wavefront
