/-
The same order, found with a stack.

The order can be found without any list of what is still to do, from a stack of vertices alone. The
vertex on top is discovered the first time it is looked at, and then those that wait for it are
pushed; the second time it is popped and finished. A vertex may be pushed by several others before
it is discovered, and by one of them as often as it names it, so it can be on the stack many times.
The order is that of finishing, backwards. A second sweep goes the other way, from each vertex in
this order to what it waits for, and a walk in it that comes to a second vertex has found a circle.

Here this is shown to be the same. What a stack holds can be read as visits: the place at which a
vertex was discovered is its leaving, and every other place is an entering, which comes to nothing
if the vertex has been entered by the time it is looked at. Such enterings may be left out or put in
wherever they are idle, which is what makes up for the several copies of a vertex. The second sweep
never gets further than to the vertex at which the walk starts and one that it waits for, and so it
is the look for what is unmet.
-/
import Wavefront.Proofs.Digraph.Traversal

set_option autoImplicit false

namespace Wavefront

namespace Digraph

variable {α : Type} [DecidableEq α]

/-! ## The stack -/

/-- The edges to the vertex of an entry, each from what is waited for to what waits. -/
def linksOf (vertices : List α) (entry : α × List α) : List (α × α) :=
  (entry.2.filter (· ∈ vertices)).map fun b => (b, entry.1)

/-- The edges one by one, as the entries list them. -/
def links (edges : Edges α) : List (α × α) := edges.flatMap (linksOf (edges.map (·.1)))

/-- The vertices that wait for a vertex: once for every edge, and the last edge first. -/
def successors (edges : Edges α) (a : α) : List α :=
  ((links edges).filter fun link => link.1 = a).reverse.map (·.2)

/-- What a vertex waits for: once for every edge, and the last edge first. -/
def predecessors (edges : Edges α) (a : α) : List α :=
  ((links edges).filter fun link => link.2 = a).reverse.map (·.1)

/-- Pushes the vertices of a list that have not been discovered, one after the other. -/
def push (discovered list stack : List α) : List α :=
  (list.filter fun b => b ∉ discovered).reverse ++ stack

/-- A vertex is finished, unless it has been. -/
def Traversal.finish (t : Traversal α) (a : α) : Traversal α :=
  if a ∈ t.left then t else { t with left := a :: t.left }

/-- Finishing a vertex enters none. -/
@[simp] theorem Traversal.entered_finish (t : Traversal α) (a : α) :
    (t.finish a).entered = t.entered := by
  rw [finish]
  split <;> rfl

/-- After a vertex has been finished, it has been left. -/
@[simp] theorem Traversal.mem_left_finish {t : Traversal α} {a b : α} :
    b ∈ (t.finish a).left ↔ b = a ∨ b ∈ t.left := by
  rw [finish]
  split
  · rename_i ha
    exact ⟨.inr, fun hb => hb.elim (fun heq => heq ▸ ha) id⟩
  · exact List.mem_cons

/-- Nothing waits for what is no vertex: such a link leads nowhere. -/
theorem successors_eq_nil {edges : Edges α} {a : α} (h : a ∉ edges.map (·.1)) :
    successors edges a = [] := by
  have hnone : ((links edges).filter fun link => link.1 = a) = [] := by
    refine List.filter_eq_nil_iff.2 fun link hlink => ?_
    obtain ⟨entry, -, hlink⟩ := List.mem_flatMap.1 hlink
    obtain ⟨b, hb, rfl⟩ := List.mem_map.1 hlink
    have hin : b ∈ edges.map (·.1) := by simpa using (List.mem_filter.1 hb).2
    rw [decide_eq_true_eq]
    rintro rfl
    exact h hin
  rw [successors, hnone]
  rfl

/-- Entering what is no vertex leaves as much to enter as before. -/
theorem remaining_of_not_mem {edges : Edges α} {t : Traversal α} {a : α}
    (h : a ∉ edges.map (·.1)) :
    remaining edges { t with entered := a :: t.entered } = remaining edges t := by
  refine List.countP_congr fun entry hentry => ?_
  have hne : entry.1 ≠ a := fun heq => h (heq ▸ List.mem_map_of_mem hentry)
  simp [hne]

/-- Entering a new vertex leaves less to enter, which is the measure of the sweep. -/
theorem remaining_lt {edges : Edges α} {t : Traversal α} {a : α} (hnew : a ∉ t.entered)
    (hin : a ∈ edges.map (·.1)) :
    remaining edges { t with entered := a :: t.entered } < remaining edges t := by
  obtain ⟨entry, hmem, rfl⟩ := List.mem_map.1 hin
  refine countP_lt_countP (b := entry) ?_ hmem ?_ ?_
  · simp only [List.mem_cons, not_or, decide_eq_true_eq]
    exact fun x hx => hx.2
  · simp
  · simp [hnew]

/-- Works off a stack: a vertex that has been discovered is popped, and finished if it is not yet;
another one is discovered, and stays on the stack below those that are pushed. A vertex that waits
for itself ends everything. -/
def sweep (edges : Edges α) : List α → Traversal α → Except α (Traversal α)
  | [], t => .ok t
  | a :: stack, t =>
      if _h : a ∈ t.entered then
        sweep edges stack (t.finish a)
      else if a ∈ successors edges a then .error a
      else
        sweep edges (push (a :: t.entered) (successors edges a) (a :: stack))
          { t with entered := a :: t.entered }
termination_by stack t => (remaining edges t, stack.countP (· ∉ t.entered) + stack.length)
decreasing_by
  · rw [remaining, Traversal.entered_finish, ← remaining]
    refine Prod.Lex.right _ ?_
    simp [_h]
  · by_cases hin : a ∈ edges.map (·.1)
    · exact Prod.Lex.left _ _ (remaining_lt _h hin)
    · -- nothing is pushed, but the top of the stack has been discovered now
      rw [remaining_of_not_mem hin, push, successors_eq_nil hin]
      refine Prod.Lex.right _ ?_
      have hle : stack.countP (fun b => b ∉ a :: t.entered) ≤ stack.countP (· ∉ t.entered) :=
        List.countP_mono_left fun b _ hb => by
          simp only [List.mem_cons, not_or, decide_eq_true_eq] at hb ⊢
          exact hb.2
      simp [_h] at hle ⊢
      omega

/-- Sweeps from every vertex that has not been discovered by then. -/
def sweepFrom (edges : Edges α) : List α → Traversal α → Except α (Traversal α)
  | [], t => .ok t
  | a :: rest, t => do
      let t ← if a ∈ t.entered then .ok t else sweep edges [a] t
      sweepFrom edges rest t

/-- Pops until a vertex comes up that has not been discovered, and pushes what that one waits
for. -/
def next? (edges : Edges α) (discovered : List α) : List α → Option (α × List α)
  | [] => none
  | a :: stack =>
      if a ∈ discovered then next? edges discovered stack
      else some (a, push (a :: discovered) (predecessors edges a) stack)

/-- Walks from each vertex of a list in turn, against the edges; the first vertex that is the second
one on its walk. -/
def second? (edges : Edges α) (discovered : List α) : List α → Option α
  | [] => none
  | a :: rest =>
      match next? edges discovered [a] with
      | none => second? edges discovered rest
      | some (b, stack) =>
          match next? edges (b :: discovered) stack with
          | some (c, _) => some c
          | none => second? edges (b :: discovered) rest

/-- The order that is found with a stack. -/
def stackOrder (edges : Edges α) : Except α (List α) := do
  let t ← sweepFrom edges (edges.map (·.1)) {}
  match second? edges [] t.left with
  | some a => .error a
  | none => .ok t.left

/-! ## The neighbours of a vertex -/

variable {edges : Edges α}

/-- The targets of a vertex are those of its first entry. -/
theorem targets?_cons (entry : α × List α) (edges : Edges α) (a : α) :
    targets? (entry :: edges) a = if entry.1 = a then some entry.2 else targets? edges a := by
  rw [targets?, List.find?_cons]
  by_cases h : entry.1 = a <;> simp [h, targets?]

/-- What a vertex waits for is listed at one entry, its own. -/
theorem map_fst_filter_links (hnodup : (edges.map (·.1)).Nodup) (vertices : List α) (a : α) :
    ((edges.flatMap (linksOf vertices)).filter fun link => link.2 = a).map (·.1)
      = ((targets? edges a).getD []).filter (· ∈ vertices) := by
  induction edges with
  | nil => rfl
  | cons entry edges ih =>
    rw [List.map_cons, List.nodup_cons] at hnodup
    rw [List.flatMap_cons, List.filter_append, List.map_append, ih hnodup.2, targets?_cons]
    by_cases hentry : entry.1 = a
    · have hnone : targets? edges a = none := by
        rw [targets?, Option.map_eq_none_iff, List.find?_eq_none]
        intro other hother heq
        rw [decide_eq_true_eq] at heq
        exact hnodup.1 (hentry ▸ heq ▸ List.mem_map_of_mem hother)
      simp [hnone, hentry, linksOf, List.filter_map, Function.comp_def]
    · simp [hentry, linksOf, List.filter_map, Function.comp_def]

/-- The predecessors of a vertex are what it waits for, last first. -/
theorem reverse_predecessors (hnodup : (edges.map (·.1)).Nodup) (a : α) :
    (predecessors edges a).reverse = awaited edges a := by
  rw [predecessors, ← List.map_reverse, List.reverse_reverse]
  exact map_fst_filter_links hnodup _ a

/-- There is a link from what is waited for to what waits. -/
theorem mem_links_iff (hnodup : (edges.map (·.1)).Nodup) {a b : α} :
    (b, a) ∈ links edges ↔ Awaits edges a b := by
  rw [Awaits, ← reverse_predecessors hnodup]
  simp [predecessors]

/-- The successors of a vertex wait for it. -/
theorem mem_successors_iff (hnodup : (edges.map (·.1)).Nodup) {a b : α} :
    b ∈ successors edges a ↔ Awaits edges b a := by
  rw [← mem_links_iff hnodup]
  simp [successors]

/-! ## Idle visits -/

/-- A traversal does its visits one after the other. -/
theorem traverse_append (first second : List (Visit α)) (t : Traversal α) :
    traverse edges (first ++ second) t = traverse edges second (traverse edges first t) := by
  induction first, t using traverse.induct edges with
  | case1 t => rw [List.nil_append, traverse.eq_1 edges t]
  | case2 a rest t ih => rw [List.cons_append, traverse, ih, traverse]
  | case3 a rest t hskip ih =>
    rw [List.cons_append, traverse, dif_pos hskip, ih, traverse.eq_3, dif_pos hskip]
  | case4 a rest t henter ih =>
    rw [List.cons_append, traverse, dif_neg henter, traverse.eq_3 edges t a rest, dif_neg henter,
      ← ih, List.append_assoc, List.cons_append]

/-- Nothing that has been entered is forgotten, and what is entered is entered on top of it. -/
theorem entered_suffix (edges : Edges α) (visits : List (Visit α)) (t : Traversal α) :
    t.entered <:+ (traverse edges visits t).entered := by
  induction visits, t using traverse.induct edges with
  | case1 t => simp only [traverse, List.suffix_rfl]
  | case2 a rest t ih =>
    rw [traverse]
    exact ih
  | case3 a rest t hskip ih =>
    rw [traverse, dif_pos hskip]
    exact ih
  | case4 a rest t henter ih =>
    rw [traverse, dif_neg henter]
    exact (List.suffix_cons a t.entered).trans ih

/-- Having been asked to enter a vertex of the graph, a traversal has entered it. -/
theorem mem_entered_of_enter {visits : List (Visit α)} {t : Traversal α} {a : α}
    (h : .enter a ∈ visits) (hin : a ∈ edges.map (·.1)) : a ∈ (traverse edges visits t).entered := by
  obtain ⟨before, after, rfl⟩ := List.append_of_mem h
  rw [traverse_append, traverse]
  split
  · rename_i hskip
    exact (entered_suffix edges after _).subset (hskip.resolve_right fun hout => hout hin)
  · exact (entered_suffix edges _ _).subset List.mem_cons_self

/-- Enterings are idle that are asked for by the visits before them, or that have been done. So they
may be left out. -/
theorem traverse_filter (edges : Edges α) (before rest : List (Visit α)) (t : Traversal α)
    (list : List α) (keep : α → Bool)
    (h : ∀ a ∈ list, keep a = false → a ∈ t.entered ∨ .enter a ∈ before) :
    traverse edges (before ++ ((list.filter keep).map .enter ++ rest)) t
      = traverse edges (before ++ (list.map .enter ++ rest)) t := by
  induction list generalizing before with
  | nil => rfl
  | cons a list ih =>
    have hlist := fun b hb => h b (List.mem_cons_of_mem a hb)
    cases hkeep : keep a with
    | true =>
      have hmore := ih (before ++ [.enter a]) fun b hb hk =>
        (hlist b hb hk).imp_right (List.mem_append_left _)
      rw [List.filter_cons_of_pos hkeep]
      simpa using hmore
    | false =>
      rw [List.filter_cons_of_neg (by simp [hkeep]), ih before hlist, List.map_cons, List.cons_append,
        -- an entering that was left out would have been idle: the vertex has been entered, or it is
        -- on its way in front of the others
        traverse_append before, traverse_append before, traverse.eq_3, dif_pos]
      by_cases hin : a ∈ edges.map (·.1)
      · refine .inl ?_
        rcases h a List.mem_cons_self hkeep with hentered | hbefore
        · exact (entered_suffix edges before t).subset hentered
        · exact mem_entered_of_enter hbefore hin
      · exact .inr hin

/-- A vertex is entered once however often it is asked for in a row. -/
theorem traverse_eq_of_forall_eq (edges : Edges α) (before rest : List (Visit α))
    (t : Traversal α) {list : List α} {a : α} (hne : list ≠ []) (h : ∀ b ∈ list, b = a) :
    traverse edges (before ++ (list.map .enter ++ rest)) t
      = traverse edges (before ++ (.enter a :: rest)) t := by
  obtain ⟨b, list, rfl⟩ := List.exists_cons_of_ne_nil hne
  obtain rfl := h b List.mem_cons_self
  have hidle := traverse_filter edges (before ++ [.enter b]) rest t list (fun _ => false)
    fun c hc _ => by
      rw [h c (List.mem_cons_of_mem b hc)]
      exact .inr (by simp)
  simpa using hidle.symm

/-- The heads of the edges from a vertex, among those of some of the entries. -/
def heads (vertices : List α) (part : Edges α) (a : α) : List α :=
  ((part.flatMap (linksOf vertices)).filter fun link => link.1 = a).map (·.2)

/-- The first entry waits for a vertex as often as it names it. -/
theorem heads_cons {vertices : List α} {a : α} (ha : a ∈ vertices) (entry : α × List α)
    (part : Edges α) :
    heads vertices (entry :: part) a
      = (entry.2.filter (· = a)).map (fun _ => entry.1) ++ heads vertices part a := by
  have hentry : (linksOf vertices entry).filter (fun link => link.1 = a)
      = (entry.2.filter (· = a)).map fun b => (b, entry.1) := by
    rw [linksOf, List.filter_map, List.filter_filter]
    congr 1
    refine List.filter_congr fun b _ => ?_
    by_cases hb : b = a
    · simp [hb, ha]
    · simp [hb]
  rw [heads, List.flatMap_cons, List.filter_append, List.map_append, hentry, List.map_map]
  rfl

/-- One edge to a vertex is as good as several. -/
theorem traverse_heads (edges : Edges α) {vertices : List α} {a : α} (ha : a ∈ vertices)
    (part : Edges α) (before rest : List (Visit α)) (t : Traversal α) :
    traverse edges (before ++ ((heads vertices part a).map .enter ++ rest)) t
      = traverse edges (before ++ ((waiting part a).map .enter ++ rest)) t := by
  -- on the entries of the graph, so that the copies of one vertex stand together
  induction part generalizing before with
  | nil => rfl
  | cons entry part ih =>
    rw [heads_cons ha, List.map_append, List.append_assoc]
    by_cases hmem : a ∈ entry.2
    · have hcopies : (entry.2.filter (· = a)).map (fun _ => entry.1) ≠ [] := by
        simpa using hmem
      have hwaiting : waiting (entry :: part) a = entry.1 :: waiting part a := by
        simp [waiting, hmem]
      -- all copies come from one entry, and of these only the first enters anything
      have hone := traverse_eq_of_forall_eq edges before
        ((heads vertices part a).map .enter ++ rest) t hcopies
        fun b hb => (List.mem_map.1 hb).elim fun _ h => h.2.symm
      have hrest := ih (before ++ [.enter entry.1])
      rw [List.append_assoc, List.append_assoc] at hrest
      rw [hone, hwaiting, List.map_cons]
      exact hrest
    · have hcopies : entry.2.filter (· = a) = [] := by
        refine List.filter_eq_nil_iff.2 fun b hb => ?_
        rw [decide_eq_true_eq]
        rintro rfl
        exact hmem hb
      have hwaiting : waiting (entry :: part) a = waiting part a := by
        simp [waiting, hmem]
      rw [hcopies, hwaiting]
      exact ih before

/-- The successors of a vertex, last first, are the vertices that wait for it, each as often as it
names it. -/
theorem reverse_successors (edges : Edges α) (a : α) :
    (successors edges a).reverse = heads (edges.map (·.1)) edges a := by
  rw [successors, ← List.map_reverse, List.reverse_reverse]
  rfl

/-! ## The first sweep -/

/-- A traversal that has been looked through for a vertex that names itself. -/
def lookedThrough (edges : Edges α) (t : Traversal α) : Except α (Traversal α) :=
  match t.entered.reverse.find? fun a => a ∈ awaited edges a with
  | some a => .error a
  | none => .ok t

/-- The first vertex that was entered and waits for itself is the one that a look through finds,
whatever was entered later. -/
theorem lookedThrough_of_suffix {t u : Traversal α} {a : α} (ha : Awaits edges a a)
    (h : (a :: t.entered) <:+ u.entered) (hnone : ∀ b ∈ t.entered, ¬ Awaits edges b b) :
    lookedThrough edges u = .error a := by
  obtain ⟨later, hu⟩ := h
  have hfind : (t.entered.reverse.find? fun b => b ∈ awaited edges b) = none := by
    refine List.find?_eq_none.2 fun b hb hself => ?_
    exact hnone b (List.mem_reverse.1 hb) (of_decide_eq_true hself)
  have hself : decide (a ∈ awaited edges a) = true := decide_eq_true ha
  rw [lookedThrough, ← hu]
  simp [hfind, hself]

/-- A look through finds nothing where no vertex waits for itself. -/
theorem lookedThrough_eq_ok {t : Traversal α} (h : ∀ a ∈ t.entered, ¬ Awaits edges a a) :
    lookedThrough edges t = .ok t := by
  have hfind : (t.entered.reverse.find? fun a => a ∈ awaited edges a) = none := by
    refine List.find?_eq_none.2 fun a ha hself => ?_
    exact h a (List.mem_reverse.1 ha) (of_decide_eq_true hself)
  rw [lookedThrough, hfind]

/-- Visits that a stack can be read as: what has been entered and not left is still to be left, and
the place of the leaving is above all other places of the vertex. -/
structure Stacked (visits : List (Visit α)) (t : Traversal α) : Prop where
  left : t.left ⊆ t.entered
  opened : ∀ a, .leave a ∈ visits ↔ a ∈ t.entered ∧ a ∉ t.left
  above : visits.Pairwise fun v w => ∀ a, w = .leave a → v.vertex ≠ a

namespace Stacked

variable {rest : List (Visit α)} {t : Traversal α} {a : α}

/-- What is asked for again when it has been entered has been left. -/
theorem mem_left (h : Stacked (.enter a :: rest) t) (ha : a ∈ t.entered) : a ∈ t.left := by
  by_contra hleft
  have hopen := (h.opened a).2 ⟨ha, hleft⟩
  exact (List.pairwise_cons.1 h.above).1 _ (List.mem_of_ne_of_mem (by simp) hopen) a rfl rfl

omit [DecidableEq α] in
theorem pass (h : Stacked (.enter a :: rest) t) : Stacked rest t :=
  ⟨h.left, fun b => by rw [← h.opened, List.mem_cons]; simp, (List.pairwise_cons.1 h.above).2⟩

/-- A vertex that is left has been left from then on. -/
theorem leave (h : Stacked (.leave a :: rest) t) :
    Stacked rest { t with left := a :: t.left } := by
  refine ⟨List.cons_subset.2 ⟨((h.opened a).1 List.mem_cons_self).1, h.left⟩, fun b => ?_,
    (List.pairwise_cons.1 h.above).2⟩
  have hrest : .leave a ∉ rest := fun ha => (List.pairwise_cons.1 h.above).1 _ ha a rfl rfl
  have hopened := h.opened b
  rw [List.mem_cons, Visit.leave.injEq] at hopened
  by_cases hb : b = a
  · subst hb
    simp [hrest]
  · simpa [hb] using hopened

/-- A new vertex is entered with a place for its leaving, and only new ones are pushed on it. -/
theorem enter (h : Stacked (.enter a :: rest) t) (hnew : a ∉ t.entered) {list : List α}
    (hlist : ∀ b ∈ list, b ∉ a :: t.entered) :
    Stacked (list.map .enter ++ .leave a :: rest) { t with entered := a :: t.entered } := by
  have hrest : ∀ b, .leave b ∈ rest → b ∈ t.entered := fun b hb =>
    ((h.pass.opened b).1 hb).1
  refine ⟨fun b hb => List.mem_cons_of_mem a (h.left hb), fun b => ?opened, ?above⟩
  case opened =>
    have hopened := h.pass.opened b
    by_cases hb : b = a
    · subst hb
      have hleft : b ∉ t.left := fun hleft => hnew (h.left hleft)
      simp [hleft]
    · simpa [hb] using hopened
  -- what is pushed is new, so it is none of the vertices that are still open
  case above =>
    refine List.pairwise_append.2 ⟨pairwise_of_forall_ne_leave (by simp),
      List.pairwise_cons.2 ⟨?_, h.pass.above⟩, ?_⟩
    · rintro w hw b rfl rfl
      exact hnew (hrest _ hw)
    · rintro v hv w hw b rfl
      obtain ⟨c, hc, rfl⟩ := List.mem_map.1 hv
      rintro rfl
      refine hlist c hc ?_
      rcases List.mem_cons.1 hw with hw | hw
      · exact List.mem_cons.2 (.inl (Visit.leave.inj hw))
      · exact List.mem_cons_of_mem _ (hrest _ hw)

end Stacked

/-- What is pushed, on top of the vertex that is discovered, stands for the visits of those that
wait for it. -/
theorem traverse_push {rest : List (Visit α)} {t : Traversal α} {a : α} (ha : a ∉ t.entered)
    (hin : a ∈ edges.map (·.1)) :
    traverse edges (((successors edges a).filter fun b => b ∉ a :: t.entered).reverse.map .enter
        ++ .leave a :: rest) { t with entered := a :: t.entered }
      = traverse edges (.enter a :: rest) t := by
  have hidle := traverse_filter edges [] (.leave a :: rest) { t with entered := a :: t.entered }
    (successors edges a).reverse (fun b => b ∉ a :: t.entered) fun b _ hb =>
      .inl (Decidable.not_not.1 (of_decide_eq_false hb))
  have hheads := traverse_heads edges hin edges [] (.leave a :: rest)
    { t with entered := a :: t.entered }
  rw [List.nil_append, List.nil_append] at hidle hheads
  rw [← List.filter_reverse, hidle, reverse_successors, hheads, traverse.eq_3, dif_neg]
  simp [ha, hin]

/-- A sweep comes to what the traversal comes to, unless it finds a vertex that names itself. -/
theorem sweep_eq (hnodup : (edges.map (·.1)).Nodup) {visits : List (Visit α)} {t : Traversal α}
    (hvisits : Stacked visits t) (hin : ∀ v ∈ visits, v.vertex ∈ edges.map (·.1))
    (hnone : ∀ a ∈ t.entered, ¬ Awaits edges a a) :
    sweep edges (visits.map Visit.vertex) t = lookedThrough edges (traverse edges visits t) := by
  generalize hstack : visits.map Visit.vertex = stack
  -- by what the sweep does with the top of the stack; the visits say which of its places it is
  induction stack, t using sweep.induct edges generalizing visits with
  | case1 t =>
    obtain rfl := List.map_eq_nil_iff.1 hstack
    rw [sweep, traverse, lookedThrough_eq_ok hnone]
  | case2 a stack t hentered ih =>
    obtain ⟨v, rest, rfl, hv, rfl⟩ := List.map_eq_cons_iff.1 hstack
    have hrest := fun w hw => hin w (List.mem_cons_of_mem v hw)
    rw [sweep, dif_pos hentered]
    cases v with
    | enter b =>
      obtain rfl : b = a := hv
      have hleft : b ∈ t.left := hvisits.mem_left hentered
      rw [Traversal.finish, if_pos hleft] at ih ⊢
      rw [traverse, dif_pos (.inl hentered)]
      exact ih hvisits.pass hrest hnone rfl
    | leave b =>
      obtain rfl : b = a := hv
      have hleft : b ∉ t.left := ((hvisits.opened b).1 List.mem_cons_self).2
      rw [Traversal.finish, if_neg hleft] at ih ⊢
      rw [traverse]
      exact ih hvisits.leave hrest hnone rfl
  | case3 a stack t hnew hself =>
    obtain ⟨v, rest, rfl, hv, rfl⟩ := List.map_eq_cons_iff.1 hstack
    cases v with
    | leave b =>
      obtain rfl : b = a := hv
      exact absurd ((hvisits.opened b).1 List.mem_cons_self).1 hnew
    | enter b =>
      obtain rfl : b = a := hv
      have hawaits : Awaits edges b b := (mem_successors_iff hnodup).1 hself
      rw [sweep, dif_neg hnew, if_pos hself, traverse, dif_neg (by simp [hnew, hawaits.source_mem])]
      -- the sweep stops here, while the traversal would go on; but what it goes on with was entered
      -- later
      refine (lookedThrough_of_suffix hawaits ?_ hnone).symm
      exact entered_suffix edges _ { t with entered := b :: t.entered }
  | case4 a stack t hnew hself ih =>
    obtain ⟨v, rest, rfl, hv, rfl⟩ := List.map_eq_cons_iff.1 hstack
    cases v with
    | leave b =>
      obtain rfl : b = a := hv
      exact absurd ((hvisits.opened b).1 List.mem_cons_self).1 hnew
    | enter b =>
      obtain rfl : b = a := hv
      have hb : b ∈ edges.map (·.1) := hin (.enter b) List.mem_cons_self
      rw [sweep, dif_neg hnew, if_neg hself, ← traverse_push hnew hb]
      refine ih (hvisits.enter hnew fun c hc => ?_) (fun w hw => ?_) ?_ ?_
      · simpa using (List.mem_filter.1 (List.mem_reverse.1 hc)).2
      · rcases List.mem_append.1 hw with hw | hw
        · obtain ⟨c, hc, rfl⟩ := List.mem_map.1 hw
          have hc := List.mem_of_mem_filter (List.mem_reverse.1 hc)
          exact ((mem_successors_iff hnodup).1 hc).source_mem
        · rcases List.mem_cons.1 hw with rfl | hw
          · exact hb
          · exact hin w (List.mem_cons_of_mem _ hw)
      · intro c hc
        rcases List.mem_cons.1 hc with rfl | hc
        · exact fun hawaits => hself ((mem_successors_iff hnodup).2 hawaits)
        · exact hnone c hc
      · simp [push, Visit.vertex, Function.comp_def]

/-- A sweep that comes to its end has finished what it discovered. -/
theorem entered_subset_left_of_sweep {stack : List α} {t u : Traversal α}
    (h : sweep edges stack t = .ok u) (hstack : ∀ a ∈ t.entered, a ∈ t.left ∨ a ∈ stack) :
    u.entered ⊆ u.left := by
  -- what has been entered and not left is still on the stack, until there is no stack
  induction stack, t using sweep.induct edges with
  | case1 t =>
    rw [sweep] at h
    obtain rfl := Except.ok.inj h
    exact fun a ha => (hstack a ha).resolve_right List.not_mem_nil
  | case2 a stack t hentered ih =>
    rw [sweep, dif_pos hentered] at h
    refine ih h fun b hb => ?_
    rw [Traversal.entered_finish] at hb
    rw [Traversal.mem_left_finish]
    rcases hstack b hb with hb | hb
    · exact .inl (.inr hb)
    · rcases List.mem_cons.1 hb with hb | hb
      · exact .inl (.inl hb)
      · exact .inr hb
  | case3 a stack t hnew hself =>
    rw [sweep, dif_neg hnew, if_pos hself] at h
    cases h
  | case4 a stack t hnew hself ih =>
    rw [sweep, dif_neg hnew, if_neg hself] at h
    refine ih h fun b hb => ?_
    rcases List.mem_cons.1 hb with rfl | hb
    · exact .inr (by simp [push])
    · rcases hstack b hb with hb | hb
      · exact .inl hb
      · exact .inr (List.mem_append_right _ hb)

/-- What has been looked through without a vertex that names itself is what it was. -/
theorem eq_of_lookedThrough_eq_ok {t u : Traversal α} (h : lookedThrough edges t = .ok u) :
    u = t ∧ ∀ a ∈ t.entered, ¬ Awaits edges a a := by
  rw [lookedThrough] at h
  split at h
  · cases h
  · rename_i hnone
    obtain rfl := Except.ok.inj h
    refine ⟨rfl, fun a ha hself => ?_⟩
    exact List.find?_eq_none.1 hnone a (List.mem_reverse.2 ha) (decide_eq_true hself)

/-- A vertex that was found to name itself is found whatever is entered after it. -/
theorem lookedThrough_traverse_of_eq_error {t : Traversal α} {a : α}
    (h : lookedThrough edges t = .error a) (visits : List (Visit α)) :
    lookedThrough edges (traverse edges visits t) = .error a := by
  rw [lookedThrough] at h
  split at h
  · rename_i b hfind
    obtain rfl := Except.error.inj h
    obtain ⟨later, hlater⟩ := entered_suffix edges visits t
    rw [lookedThrough, ← hlater, List.reverse_append, List.find?_append, hfind]
    rfl
  · cases h

/-- The sweeps from all vertices come to what the traversal of the graph comes to. -/
theorem sweepFrom_eq (hnodup : (edges.map (·.1)).Nodup) {list : List α} {t : Traversal α}
    (hlist : ∀ a ∈ list, a ∈ edges.map (·.1)) (hsame : ∀ a, a ∈ t.entered ↔ a ∈ t.left)
    (hnone : ∀ a ∈ t.entered, ¬ Awaits edges a a) :
    sweepFrom edges list t = lookedThrough edges (traverse edges (list.map .enter) t) := by
  induction list generalizing t with
  | nil => rw [sweepFrom, List.map_nil, traverse, lookedThrough_eq_ok hnone]
  | cons a list ih =>
    have hrest := fun b hb => hlist b (List.mem_cons_of_mem a hb)
    rw [sweepFrom, List.map_cons]
    by_cases hentered : a ∈ t.entered
    · rw [if_pos hentered, traverse, dif_pos (.inl hentered)]
      exact ih hrest hsame hnone
    -- a new start is swept through before the next one is looked at
    · have hstacked : Stacked [.enter a] t := by
        refine ⟨fun b hb => (hsame b).2 hb, fun b => ?_, List.pairwise_singleton _ _⟩
        simp [hsame]
      have hsweep : sweep edges [a] t = lookedThrough edges (traverse edges [.enter a] t) := by
        refine sweep_eq hnodup hstacked (fun v hv => ?_) hnone
        obtain rfl := List.mem_singleton.1 hv
        exact hlist a List.mem_cons_self
      have hsplit : traverse edges (.enter a :: list.map .enter) t
          = traverse edges (list.map .enter) (traverse edges [.enter a] t) :=
        traverse_append [.enter a] _ t
      rw [if_neg hentered, hsweep, hsplit]
      cases hlooked : lookedThrough edges (traverse edges [.enter a] t) with
      | error b => exact (lookedThrough_traverse_of_eq_error hlooked _).symm
      | ok u =>
        obtain ⟨rfl, hnone⟩ := eq_of_lookedThrough_eq_ok hlooked
        rw [hlooked] at hsweep
        have hfinished := entered_subset_left_of_sweep hsweep fun b hb => .inl ((hsame b).1 hb)
        refine ih hrest (fun b => ⟨fun hb => hfinished hb, fun hb => ?_⟩) hnone
        refine left_subset_entered (fun c hc => ?_) (fun c hc => (hsame c).2 hc) hb
        simp at hc

/-! ## The second sweep -/

/-- Where nothing has been discovered, the next vertex is the first one. -/
theorem next?_eq_head? {discovered list : List α} (h : ∀ a ∈ list, a ∉ discovered) :
    (next? edges discovered list).map (·.1) = list.head? := by
  cases list with
  | nil => rfl
  | cons a list => rw [next?, if_neg (h a List.mem_cons_self), List.head?_cons, Option.map_some]

/-- The walk from a vertex that has not been discovered comes next to the first one that the vertex
waits for and that has not been discovered. -/
theorem next?_push (hnodup : (edges.map (·.1)).Nodup) (discovered : List α) (a : α) :
    (next? edges (a :: discovered) (push (a :: discovered) (predecessors edges a) [])).map (·.1)
      = (awaited edges a).find? fun b => b ∉ a :: discovered := by
  rw [push, List.append_nil, next?_eq_head?, ← List.filter_reverse, reverse_predecessors hnodup,
    List.head?_filter]
  intro b hb
  simpa using (List.mem_filter.1 (List.mem_reverse.1 hb)).2

/-- The second sweep is the look for what is unmet. -/
theorem second?_eq_unmet? (hnodup : (edges.map (·.1)).Nodup) {discovered list : List α}
    (hlist : list.Nodup) (hnew : ∀ a ∈ list, a ∉ discovered) :
    second? edges discovered list = unmet? edges discovered list := by
  induction list generalizing discovered with
  | nil => rfl
  | cons a list ih =>
    obtain ⟨ha, hlist⟩ := List.nodup_cons.1 hlist
    have hrest : ∀ b ∈ list, b ∉ a :: discovered := fun b hb => by
      refine List.not_mem_cons_of_ne_of_not_mem ?_ (hnew b (List.mem_cons_of_mem a hb))
      rintro rfl
      exact ha hb
    -- the walk from `a` has come to its second vertex, or to its end, after one look
    have hnext := next?_push hnodup discovered a
    simp only [second?, next?, unmet?, if_neg (hnew a List.mem_cons_self)]
    rw [← hnext]
    cases next? edges (a :: discovered) (push (a :: discovered) (predecessors edges a) []) with
    | none => exact ih hlist hrest
    | some found => rfl

/-! ## The two orders -/

/-- The order that is found with a stack is the order. -/
theorem stackOrder_eq_order (hnodup : (edges.map (·.1)).Nodup) :
    stackOrder edges = order edges := by
  have hsweep : sweepFrom edges (edges.map (·.1)) {} = lookedThrough edges (traversal edges) := by
    rw [sweepFrom_eq hnodup (fun _ ha => ha) (fun a => by simp) (by simp), List.map_map]
    rfl
  have hsecond : second? edges [] (traversal edges).left = unmet? edges [] (traversal edges).left :=
    second?_eq_unmet? hnodup (traverses_traversal hnodup).nodup (by simp)
  rw [stackOrder, hsweep, lookedThrough, order]
  cases (traversal edges).entered.reverse.find? fun a => a ∈ awaited edges a with
  | some a => rfl
  | none =>
    rw [← hsecond]
    rfl

end Digraph

end Wavefront
