/-
The order of leaving, backwards, fails to respect the edges only where there is a circle.

A traversal is at every point in the middle of a way: the vertices that it has entered and not left
wait for one another, the top one for all below. What waits for a vertex has been entered when the
vertex is left, since it was put in front of the leaving. So a vertex that waits for the one that is
being left has been left before, or it is on the way; and what is on the way is waited for by the
one that is being left, which closes a circle.

That is the whole of the argument why one look through the order is enough. A vertex that the look
finds unmet comes behind one that waits for it; the two are on a circle. The other direction needs
no traversal: in an order that respects all edges a circle would have to come before itself.
-/
import Wavefront.Proofs.Graph.Order

set_option autoImplicit false

namespace Wavefront

namespace Digraph

variable {α : Type} [DecidableEq α] {edges : Edges α}

/-! ## Waiting -/

/-- A vertex waits for another one, and both are in the graph. -/
def Awaits (edges : Edges α) (a b : α) : Prop := b ∈ awaited edges a

instance (edges : Edges α) (a b : α) : Decidable (Awaits edges a b) :=
  inferInstanceAs (Decidable (b ∈ awaited edges a))

theorem Awaits.target_mem {a b : α} (h : Awaits edges a b) : b ∈ edges.map (·.1) := by
  simpa using (List.mem_filter.1 h).2

/-- What waits is a vertex. -/
theorem Awaits.source_mem {a b : α} (h : Awaits edges a b) : a ∈ edges.map (·.1) := by
  have hmem := (List.mem_filter.1 h).1
  cases htargets : targets? edges a with
  | none =>
    rw [htargets] at hmem
    cases hmem
  | some targets =>
    obtain ⟨entry, hfind, -⟩ := Option.map_eq_some_iff.1 htargets
    have ha : entry.1 = a := by simpa using List.find?_some hfind
    exact List.mem_map.2 ⟨entry, List.mem_of_find?_eq_some hfind, ha⟩

/-- Which vertices wait for one that is in the graph. -/
theorem mem_waiting_iff (hnodup : (edges.map (·.1)).Nodup) {a b : α} (ha : a ∈ edges.map (·.1)) :
    b ∈ waiting edges a ↔ Awaits edges b a := by
  simp only [waiting, Awaits, awaited, List.mem_map, List.mem_filter, decide_eq_true_eq]
  constructor
  · rintro ⟨⟨c, targets⟩, ⟨hentry, htarget⟩, rfl⟩
    -- two entries for one vertex would be two answers here
    rw [targets?_of_mem hnodup hentry]
    exact ⟨htarget, List.mem_map.1 ha⟩
  · rintro ⟨htarget, -⟩
    cases htargets : targets? edges b with
    | none =>
      rw [htargets] at htarget
      cases htarget
    | some targets =>
      rw [htargets] at htarget
      obtain ⟨entry, hfind, rfl⟩ := Option.map_eq_some_iff.1 htargets
      have hb : entry.1 = b := by simpa using List.find?_some hfind
      exact ⟨entry, ⟨List.mem_of_find?_eq_some hfind, htarget⟩, hb⟩

/-! ## What holds all along a traversal -/

/-- The vertex that a visit is about. -/
def Visit.vertex : Visit α → α
  | enter a => a
  | leave a => a

omit [DecidableEq α] in
/-- Where nothing is left, nothing is to be shown of what comes before a leaving. -/
theorem pairwise_of_forall_ne_leave {P : Visit α → α → Prop} {visits : List (Visit α)}
    (h : ∀ a, .leave a ∉ visits) : visits.Pairwise fun v w => ∀ a, w = .leave a → P v a := by
  refine List.pairwise_of_forall_mem_list fun v _ w hw a ha => ?_
  exact absurd (ha ▸ hw) (h a)

/-- Where a traversal can be: with these visits still to do. -/
structure Traverses (edges : Edges α) (visits : List (Visit α)) (t : Traversal α) : Prop where
  /-- Entered is what has been left and what is on the way. -/
  entered : ∀ a, a ∈ t.entered ↔ a ∈ t.left ∨ .leave a ∈ visits
  inside : t.entered ⊆ edges.map (·.1)
  nodup : t.left.Nodup
  /-- A vertex is left once: what is still to be left has not been left, and is left once. -/
  apart : ∀ a, .leave a ∈ visits → a ∉ t.left
  once : visits.Pairwise fun v w => ∀ a, w = .leave a → v ≠ .leave a
  /-- Everything is entered sooner or later. -/
  covers : ∀ a ∈ edges.map (·.1), a ∈ t.entered ∨ .enter a ∈ visits
  /-- Whatever comes before the leaving of a vertex waits for that vertex. -/
  way : visits.Pairwise fun v w => ∀ a, w = .leave a → Relation.TransGen (Awaits edges) v.vertex a
  /-- What waits for a vertex on the way is entered before the vertex is left. -/
  ahead : ∀ a b, .leave a ∈ visits → Awaits edges b a →
    b ∈ t.entered ∨ [.enter b, .leave a].Sublist visits
  /-- What waits for a vertex that has been left has been left too, or is on a circle with it. -/
  behind : ∀ a ∈ t.left, ∀ b, Awaits edges b a →
    b ∈ t.left ∨ Relation.TransGen (Awaits edges) a b
  /-- Of two vertices the one left later waits for the other only on a circle. -/
  sorted : t.left.Pairwise fun a b => Awaits edges a b → Relation.TransGen (Awaits edges) b a

namespace Traverses

variable {rest : List (Visit α)} {t : Traversal α} {a : α}

/-- At the start every vertex is to be entered. -/
theorem start (edges : Edges α) : Traverses edges (edges.map (.enter ·.1)) {} := by
  have hnoleave : ∀ a, .leave a ∉ edges.map fun entry => Visit.enter entry.1 := by
    intro a ha
    obtain ⟨_, _, hvisit⟩ := List.mem_map.1 ha
    cases hvisit
  refine ⟨fun a => ?_, List.nil_subset _, List.nodup_nil, fun a ha => absurd ha (hnoleave a),
    pairwise_of_forall_ne_leave hnoleave, fun a ha => ?_, pairwise_of_forall_ne_leave hnoleave,
    fun a b ha => absurd ha (hnoleave a), fun a ha => absurd ha List.not_mem_nil,
    List.Pairwise.nil⟩
  · simp
  · obtain ⟨entry, hentry, rfl⟩ := List.mem_map.1 ha
    exact .inr (List.mem_map_of_mem hentry)

/-- The top vertex of the way is left. -/
theorem leave (h : Traverses edges (.leave a :: rest) t) :
    Traverses edges rest { t with left := a :: t.left } := by
  have hrest : .leave a ∉ rest := fun ha =>
    (List.pairwise_cons.1 h.once).1 _ ha a rfl rfl
  have hway := List.pairwise_cons.1 h.way
  refine ⟨fun b => ?entered, h.inside, ?nodup, fun b hb => ?apart, (List.pairwise_cons.1 h.once).2,
    fun b hb => ?covers, hway.2, fun b c hb hc => ?ahead, fun b hb c hc => ?behind, ?sorted⟩
  case entered =>
    rw [h.entered, List.mem_cons, List.mem_cons, Visit.leave.injEq]
    tauto
  case nodup => exact List.nodup_cons.2 ⟨h.apart a List.mem_cons_self, h.nodup⟩
  case apart =>
    rintro hmem
    rcases List.mem_cons.1 hmem with rfl | hmem
    · exact hrest hb
    · exact h.apart b (List.mem_cons_of_mem _ hb) hmem
  case covers =>
    rcases h.covers b hb with hb | hb
    · exact .inl hb
    · exact .inr (List.mem_of_ne_of_mem (by simp) hb)
  case ahead =>
    rcases h.ahead b c (List.mem_cons_of_mem _ hb) hc with hc | hc
    · exact .inl hc
    · refine .inr ?_
      cases hc with
      | cons _ hc => exact hc
  case behind =>
    rcases List.mem_cons.1 hb with rfl | hb
    · -- nothing comes before the leaving any more, so `c` has been entered
      have hentered : c ∈ t.entered := by
        rcases h.ahead _ c List.mem_cons_self hc with hin | hvisit
        · exact hin
        · cases hvisit with
          | cons _ hvisit => exact absurd (hvisit.subset (by simp)) hrest
      rcases (h.entered c).1 hentered with hleft | hopen
      · exact .inl (List.mem_cons_of_mem _ hleft)
      · rcases List.mem_cons.1 hopen with hopen | hopen
        · obtain rfl := Visit.leave.inj hopen
          exact .inl List.mem_cons_self
        · exact .inr (hway.1 _ hopen _ rfl)
    · rcases h.behind b hb c hc with hleft | hcircle
      · exact .inl (List.mem_cons_of_mem _ hleft)
      · exact .inr hcircle
  -- the one that is left goes in front of all that were left before: if it waits for one of them,
  -- there is a circle
  case sorted =>
    refine List.pairwise_cons.2 ⟨fun b hb hawaits => ?_, h.sorted⟩
    rcases h.behind b hb a hawaits with hleft | hcircle
    · exact absurd hleft (h.apart a List.mem_cons_self)
    · exact hcircle

/-- A vertex that has been entered is passed over. -/
theorem pass (h : Traverses edges (.enter a :: rest) t)
    (hskip : a ∈ t.entered ∨ a ∉ edges.map (·.1)) : Traverses edges rest t := by
  have hleave : ∀ b, .leave b ∈ (.enter a :: rest : List (Visit α)) ↔ .leave b ∈ rest := by simp
  -- the entering was of no use, for the vertex has been entered or is none
  have hentered : ∀ b ∈ edges.map (·.1), b = a → b ∈ t.entered := by
    rintro b hb rfl
    exact hskip.resolve_right fun hout => hout hb
  refine ⟨fun b => ?entered, h.inside, h.nodup, fun b hb => h.apart b ((hleave b).2 hb),
    (List.pairwise_cons.1 h.once).2, fun b hb => ?covers, (List.pairwise_cons.1 h.way).2,
    fun b c hb hc => ?ahead, h.behind, h.sorted⟩
  case entered => rw [h.entered, hleave]
  case covers =>
    rcases h.covers b hb with hin | hvisit
    · exact .inl hin
    · rcases List.mem_cons.1 hvisit with hvisit | hvisit
      · exact .inl (hentered b hb (Visit.enter.inj hvisit))
      · exact .inr hvisit
  case ahead =>
    rcases h.ahead b c ((hleave b).2 hb) hc with hin | hvisit
    · exact .inl hin
    · cases hvisit with
      | cons _ hvisit => exact .inr hvisit
      | cons_cons _ hvisit => exact .inl (hentered _ hc.source_mem rfl)

/-- A vertex is entered: what waits for it comes first, and then it is left. -/
theorem enter (hnodup : (edges.map (·.1)).Nodup) (h : Traverses edges (.enter a :: rest) t)
    (hnew : a ∉ t.entered) (hin : a ∈ edges.map (·.1)) :
    Traverses edges ((waiting edges a).map .enter ++ .leave a :: rest)
      { t with entered := a :: t.entered } := by
  have hnoleave : ∀ b, .leave b ∉ (waiting edges a).map Visit.enter := by simp
  have hnotleft : a ∉ t.left := fun hleft => hnew ((h.entered a).2 (.inl hleft))
  have hnotopen : .leave a ∉ rest := fun hopen =>
    hnew ((h.entered a).2 (.inr (List.mem_cons_of_mem _ hopen)))
  have hleave : ∀ b, .leave b ∈ (waiting edges a).map Visit.enter ++ .leave a :: rest
      ↔ b = a ∨ .leave b ∈ rest := by simp
  -- what waits for `a` waits for all that `a` waits for
  have hbehind : ∀ v ∈ (waiting edges a).map Visit.enter, ∀ w ∈ .leave a :: rest, ∀ b,
      w = .leave b → Relation.TransGen (Awaits edges) v.vertex b := by
    intro v hv w hw b hb
    obtain ⟨c, hc, rfl⟩ := List.mem_map.1 hv
    have hca : Awaits edges c a := (mem_waiting_iff hnodup hin).1 hc
    rcases List.mem_cons.1 hw with rfl | hw
    · obtain rfl := Visit.leave.inj hb
      exact .single hca
    · exact .head hca ((List.pairwise_cons.1 h.way).1 w hw b hb)
  refine ⟨fun b => ?entered, List.cons_subset.2 ⟨hin, h.inside⟩, h.nodup, fun b hb => ?apart, ?once,
    fun b hb => ?covers, ?way, fun b c hb hc => ?ahead, h.behind, h.sorted⟩
  case entered =>
    rw [List.mem_cons, h.entered, hleave]
    simp only [List.mem_cons, reduceCtorEq, false_or]
    tauto
  case apart =>
    rcases (hleave b).1 hb with rfl | hb
    · exact hnotleft
    · exact h.apart b (List.mem_cons_of_mem _ hb)
  case once =>
    have hentries : ∀ v ∈ (waiting edges a).map Visit.enter, ∀ b, v ≠ .leave b := by
      rintro v hv b rfl
      exact hnoleave b hv
    refine List.pairwise_append.2 ⟨?_, List.pairwise_cons.2 ⟨?_, (List.pairwise_cons.1 h.once).2⟩,
      fun v hv w _ b _ => hentries v hv b⟩
    · exact pairwise_of_forall_ne_leave hnoleave
    · rintro w hw b rfl heq
      exact hnotopen (heq ▸ hw)
  case covers =>
    rcases h.covers b hb with hb | hb
    · exact .inl (List.mem_cons_of_mem _ hb)
    · rcases List.mem_cons.1 hb with hb | hb
      · exact .inl (List.mem_cons.2 (.inl (Visit.enter.inj hb)))
      · exact .inr (List.mem_append_right _ (List.mem_cons_of_mem _ hb))
  case way =>
    refine List.pairwise_append.2 ⟨?_, List.pairwise_cons.2 ⟨?_, (List.pairwise_cons.1 h.way).2⟩,
      hbehind⟩
    · exact pairwise_of_forall_ne_leave hnoleave
    · exact fun w hw b hb => (List.pairwise_cons.1 h.way).1 w hw b hb
  case ahead =>
    rcases (hleave b).1 hb with rfl | hb
    · -- `b` is the vertex that is being entered: all that waits for it comes before its leaving
      have hvisit : .enter c ∈ (waiting edges b).map Visit.enter :=
        List.mem_map_of_mem ((mem_waiting_iff hnodup hin).2 hc)
      exact .inr ((List.singleton_sublist.2 hvisit).append
        (List.singleton_sublist.2 List.mem_cons_self))
    · rcases h.ahead b c (List.mem_cons_of_mem _ hb) hc with hc | hc
      · exact .inl (List.mem_cons_of_mem _ hc)
      · cases hc with
        | cons _ hc =>
          exact .inr ((hc.trans (List.sublist_cons_self _ _)).trans (List.sublist_append_right _ _))
        | cons_cons _ hc => exact .inl List.mem_cons_self

/-- A traversal comes to its end. -/
theorem run (hnodup : (edges.map (·.1)).Nodup) {visits : List (Visit α)}
    (h : Traverses edges visits t) : Traverses edges [] (traverse edges visits t) := by
  -- one lemma for each thing that a traversal does
  induction visits, t using traverse.induct edges with
  | case1 t =>
    rw [traverse]
    exact h
  | case2 a rest t ih =>
    rw [traverse]
    exact ih h.leave
  | case3 a rest t hskip ih =>
    rw [traverse, dif_pos hskip]
    exact ih (h.pass hskip)
  | case4 a rest t henter ih =>
    rw [traverse, dif_neg henter]
    obtain ⟨hnew, hin⟩ := not_or.1 henter
    exact ih (h.enter hnodup hnew (Decidable.not_not.1 hin))

end Traverses

/-! ## The order of leaving -/

variable (hnodup : (edges.map (·.1)).Nodup)
include hnodup

theorem traverses_traversal : Traverses edges [] (traversal edges) := (Traverses.start edges).run hnodup

/-- A traversal of the whole graph leaves every vertex once. -/
theorem left_perm : (traversal edges).left.Perm (edges.map (·.1)) := by
  have h := traverses_traversal hnodup
  refine (List.perm_ext_iff_of_nodup h.nodup hnodup).2 fun a => ?_
  have hentered : a ∈ (traversal edges).entered ↔ a ∈ (traversal edges).left := by
    simpa using h.entered a
  rw [← hentered]
  refine ⟨fun ha => h.inside ha, fun ha => ?_⟩
  simpa using h.covers a ha

theorem mem_left_iff {a : α} : a ∈ (traversal edges).left ↔ a ∈ edges.map (·.1) :=
  (left_perm hnodup).mem_iff

omit hnodup in
/-- What is unmet comes behind a vertex that waits for it. -/
theorem exists_split_of_unmet? {done list : List α} {b : α} (h : unmet? edges done list = some b) :
    ∃ before a after, list = before ++ a :: after ∧ Awaits edges a b ∧ b ≠ a ∧ b ∉ before
      ∧ b ∉ done := by
  induction list generalizing done with
  | nil => simp [unmet?] at h
  | cons a rest ih =>
    rw [unmet?] at h
    split at h
    · rename_i c hfind
      obtain rfl := Option.some.inj h
      have hnot : c ∉ a :: done := by simpa using List.find?_some hfind
      exact ⟨[], a, rest, rfl, List.mem_of_find?_eq_some hfind, fun heq => hnot (by simp [heq]),
        List.not_mem_nil, fun hdone => hnot (List.mem_cons_of_mem _ hdone)⟩
    · obtain ⟨before, c, after, rfl, hawaits, hne, hbefore, hdone⟩ := ih h
      -- what was looked through before counts as done behind it
      have hba : b ≠ a := fun heq => hdone (heq ▸ List.mem_cons_self)
      exact ⟨a :: before, c, after, rfl, hawaits, hne, by simp [hba, hbefore],
        fun hmem => hdone (List.mem_cons_of_mem _ hmem)⟩

/-- A vertex that is not met in the order of leaving is on a circle. -/
theorem transGen_of_unmet? {b : α} (h : unmet? edges [] (traversal edges).left = some b) :
    Relation.TransGen (Awaits edges) b b := by
  obtain ⟨before, a, after, hsplit, hawaits, hne, hbefore, -⟩ := exists_split_of_unmet? h
  have hb : b ∈ (traversal edges).left := (mem_left_iff hnodup).2 hawaits.target_mem
  have hafter : b ∈ after := by
    rw [hsplit] at hb
    simpa [hne, hbefore] using hb
  have hsorted := (traverses_traversal hnodup).sorted
  rw [hsplit] at hsorted
  have hpair := (List.pairwise_append.1 hsorted).2.1
  exact ((List.pairwise_cons.1 hpair).1 b hafter hawaits).tail hawaits

/-- The order is one of all vertices. -/
theorem order_perm {ids : List α} (h : order edges = .ok ids) : ids.Perm (edges.map (·.1)) := by
  unfold order at h
  simp only at h
  split at h
  · cases h
  split at h
  · cases h
  rw [← Except.ok.inj h]
  exact left_perm hnodup

/-- The vertex that is named when there is no order is on a circle. -/
theorem transGen_of_order {b : α} (h : order edges = .error b) :
    Relation.TransGen (Awaits edges) b b := by
  unfold order at h
  simp only at h
  split at h
  · rename_i a hfind
    obtain rfl := Except.error.inj h
    have hself : a ∈ awaited edges a := by simpa using List.find?_some hfind
    exact .single hself
  split at h
  · rename_i a hunmet
    obtain rfl := Except.error.inj h
    exact transGen_of_unmet? hnodup hunmet
  · cases h

/-- There is an order only if no vertex is on a circle: what a vertex waits for has a lower
place. -/
theorem not_transGen_of_order {ids : List α} (h : order edges = .ok ids) (a : α) :
    ¬ Relation.TransGen (Awaits edges) a a := by
  have hids := order_perm hnodup h
  -- places in the order fall along the edges, so no way of edges comes back
  have hplace : ∀ a b, Awaits edges a b → ids.idxOf b < ids.idxOf a := by
    intro a b hab
    obtain ⟨before, after, hsplit⟩ := List.append_of_mem (hids.mem_iff.2 hab.source_mem)
    have hb : b ∈ before := mem_before_of_order h hsplit hab
    have ha : a ∉ before := by
      have hids := hsplit ▸ hids.nodup_iff.2 hnodup
      exact fun ha => (List.nodup_append.1 hids).2.2 a ha a List.mem_cons_self rfl
    have hlength : ids.idxOf a = before.length := by
      rw [hsplit, List.idxOf_append_of_notMem ha, List.idxOf_cons_self, Nat.add_zero]
    rw [hlength, hsplit, List.idxOf_append_of_mem hb]
    exact List.idxOf_lt_length_of_mem hb
  intro hcircle
  have hlt : Relation.TransGen (fun m n : ℕ => n < m) (ids.idxOf a) (ids.idxOf a) :=
    hcircle.lift ids.idxOf hplace
  rw [Relation.transGen_eq_self] at hlt
  exact Nat.lt_irrefl _ hlt

/-- There is no order just if some vertex is on a circle. -/
theorem exists_order_eq_error_iff :
    (∃ b, order edges = .error b) ↔ ∃ a, Relation.TransGen (Awaits edges) a a := by
  constructor
  · rintro ⟨b, h⟩
    exact ⟨b, transGen_of_order hnodup h⟩
  · rintro ⟨a, hcircle⟩
    cases h : order edges with
    | error b => exact ⟨b, rfl⟩
    | ok ids => exact absurd hcircle (not_transGen_of_order hnodup h a)

end Digraph

end Wavefront
