/-
Writing and reading by paths: what a write changes and what it leaves alone.

A write goes down segment by segment. At each it takes the value one step away, or null if there is
none, and puts back what became of it. So each law of writes comes from one of a single step: what
was put at a segment is there, the last of two values put at one segment counts, and of two segments
that are apart neither sees what is put at the other. Two indices that differ are apart, and so are
two keys that differ if neither is a numeral: a numeral names an item where an array stands and a
field elsewhere, and which of them it is may change by a write.

Reading tells nothing apart from null. That is what makes padding harmless: an item that was not
there reads as one that has been padded.
-/
import Mathlib.Logic.Basic
import Wavefront.Proofs.Value.Fields
import Wavefront.Context

set_option autoImplicit false

namespace Wavefront

/-- No write at one of the segments is seen at the other. -/
def Segment.Apart : Segment → Segment → Prop
  | .index i, .index j => i ≠ j
  | .key a, .key b => a ≠ b ∧ Text.index? a.toList = none ∧ Text.index? b.toList = none
  | _, _ => False

/-- Where the paths first differ, their segments are apart. -/
def Path.Diverge : List Segment → List Segment → Prop
  | s :: p, t :: q => s = t ∧ Path.Diverge p q ∨ s.Apart t
  | _, _ => False

/-- No write stops at the segment, whatever it comes to there. -/
def Segment.Bounded : Segment → Prop
  | .index i => i ≤ Value.maxWriteIndex
  | .key name => ∀ i, Text.index? name.toList = some i → i ≤ Value.maxWriteIndex

/-- A key that is no numeral asks for no index. -/
theorem Segment.bounded_key {name : String} (h : Text.index? name.toList = none) :
    (Segment.key name).Bounded := by
  intro i hi
  rw [h] at hi
  cases hi

/-- Whether a segment is bounded is seen by the index that it asks for, if it asks for one. -/
instance : DecidablePred Segment.Bounded
  | .index i => inferInstanceAs (Decidable (i ≤ Value.maxWriteIndex))
  | .key name =>
    match h : Text.index? name.toList with
    | none => isTrue (Segment.bounded_key h)
    | some i => decidable_of_iff (i ≤ Value.maxWriteIndex)
        ⟨fun hi _ hj => Option.some.inj (h.symm.trans hj) ▸ hi, fun hall => hall i h⟩

/-- Whether segments are apart is seen by comparing them. -/
instance : DecidableRel Segment.Apart
  | .index i, .index j => inferInstanceAs (Decidable (i ≠ j))
  | .key a, .key b => inferInstanceAs (Decidable (a ≠ b ∧ Text.index? a.toList = none ∧ _))
  | .index _, .key _ => .isFalse id
  | .key _, .index _ => .isFalse id

/-- Whether paths diverge is seen at the first segments that differ. -/
instance Path.decidableDiverge : DecidableRel Path.Diverge
  | s :: p, t :: q =>
    have := decidableDiverge p q
    inferInstanceAs (Decidable (s = t ∧ Path.Diverge p q ∨ s.Apart t))
  | [], _ => .isFalse id
  | _ :: _, [] => .isFalse id

/-- Being apart goes both ways. -/
theorem Segment.Apart.symm {s t : Segment} (h : s.Apart t) : t.Apart s := by
  cases s with
  | index i =>
    cases t with
    | index j => exact Ne.symm h
    | key b => exact h.elim
  | key a =>
    cases t with
    | index j => exact h.elim
    | key b => exact ⟨Ne.symm h.1, h.2.2, h.2.1⟩

/-- Diverging goes both ways. -/
theorem Path.Diverge.symm {p q : List Segment} (h : Path.Diverge p q) : Path.Diverge q p := by
  induction p generalizing q with
  | nil => exact h.elim
  | cons s p ih =>
    cases q with
    | nil => exact h.elim
    | cons t q =>
      rcases h with ⟨rfl, h⟩ | h
      · exact .inl ⟨rfl, ih h⟩
      · exact .inr h.symm

/-- No path diverges from itself. -/
theorem Path.not_diverge_self (p : List Segment) : ¬ Path.Diverge p p := by
  induction p with
  | nil => exact id
  | cons s p ih =>
    rintro (⟨_, h⟩ | h)
    · exact ih h
    · cases s with
      | index i => exact h rfl
      | key a => exact h.1 rfl

namespace Value

/-! ## One step -/

/-- The value one step away, or null. -/
def inner (v : Value) (s : Segment) : Value := (v.child? s).getD null

/-- Puts a value one step away. -/
def put (v : Value) (s : Segment) (x : Value) : Value :=
  match v.placeOf s with
  | .item i => array ((pad i v.items).set i x)
  | .field name => object (Fields.insert name x v.fields)

/-- A value may be put at the segment. -/
def Fits (v : Value) (s : Segment) : Prop :=
  match v.placeOf s with
  | .item i => i < v.items.length ∨ i ≤ maxWriteIndex
  | .field _ => True

/-- What padding puts behind the items are nulls. -/
theorem getElem?_pad (i k : Nat) (l : List Value) :
    (pad i l)[k]? = if k < l.length then l[k]? else if k ≤ i then some null else none := by
  rw [pad, List.getElem?_append, List.getElem?_replicate]
  split
  · rfl
  · split
    · rw [if_pos (by omega)]
    · rw [if_neg (by omega)]

/-- Padding is not seen by a reader to whom nothing is null. -/
theorem getD_pad (i k : Nat) (l : List Value) : ((pad i l)[k]?).getD null = (l[k]?).getD null := by
  rw [getElem?_pad]
  split
  · rfl
  · rename_i hk
    rw [List.getElem?_eq_none (Nat.le_of_not_lt hk)]
    split <;> rfl

theorem index?_lengthKey : Text.index? lengthKey.toList = none := by decide

/-- A key is a field wherever an array does not stand, and everywhere if it is no numeral. -/
theorem placeOf_key_of_index?_eq_none {name : String} (h : Text.index? name.toList = none)
    (v : Value) : v.placeOf (.key name) = .field name := by
  cases v with
  | array items => simp only [placeOf, h]
  | _ => rfl

/-- A key that is no numeral reads a field. -/
theorem child?_key_of_index?_eq_none {name : String} (h : Text.index? name.toList = none)
    (v : Value) : v.child? (.key name) = Fields.get? name v.fields := by
  cases v with
  | array items => simp [child?, h, fields, object?, Fields.get?]
  | object fs => rfl
  | _ => rfl

/-- What a write goes down to is the value one step away. -/
theorem inner_eq (s : Segment) (v : Value) :
    v.inner s = match v.placeOf s with
      | .item i => ((pad i v.items)[i]?).getD null
      | .field name => (Fields.get? name v.fields).getD null := by
  cases s with
  | index i =>
    simp only [placeOf, getD_pad]
    cases v <;> rfl
  | key name =>
    cases hname : Text.index? name.toList with
    | none => rw [placeOf_key_of_index?_eq_none hname, inner, child?_key_of_index?_eq_none hname]
    | some i =>
      cases v with
      | array items =>
        have hlength : name ≠ lengthKey := by
          rintro rfl
          rw [index?_lengthKey] at hname
          cases hname
        simp only [placeOf, hname, getD_pad, inner, child?, if_neg hlength, Option.bind_some]
        rfl
      | _ => rfl

/-! ### The same segment -/

theorem length_pad (i : Nat) (l : List Value) : (pad i l).length = max l.length (i + 1) := by
  rw [pad, List.length_append, List.length_replicate]
  omega

theorem lt_length_pad (i : Nat) (l : List Value) : i < (pad i l).length := by
  rw [length_pad]
  omega

/-- Where a value was put, the segment still names the same place. -/
theorem placeOf_put_self (s : Segment) (x v : Value) : (v.put s x).placeOf s = v.placeOf s := by
  cases s with
  | index i => rfl
  | key name =>
    cases hname : Text.index? name.toList with
    | none => rw [placeOf_key_of_index?_eq_none hname, placeOf_key_of_index?_eq_none hname]
    | some i =>
      cases v with
      | array items => simp only [put, placeOf, hname]
      | _ => rfl

/-- What was put at a segment is there. -/
theorem child?_put_self (s : Segment) (x v : Value) : (v.put s x).child? s = some x := by
  cases s with
  | index i =>
    have hlt := lt_length_pad i v.items
    simp only [put, placeOf, child?, List.getElem?_set_self hlt]
  | key name =>
    cases hname : Text.index? name.toList with
    | none =>
      rw [child?_key_of_index?_eq_none hname, put, placeOf_key_of_index?_eq_none hname]
      exact Fields.get?_insert_self name x v.fields
    | some i =>
      cases v with
      | array items =>
        have hlength : name ≠ lengthKey := by
          rintro rfl
          rw [index?_lengthKey] at hname
          cases hname
        have hlt := lt_length_pad i (array items).items
        simp only [put, placeOf, hname, child?, if_neg hlength, Option.bind_some,
          List.getElem?_set_self hlt]
      | _ => exact Fields.get?_insert_self name x _

theorem inner_put_self (s : Segment) (x v : Value) : (v.put s x).inner s = x := by
  rw [inner, child?_put_self]
  rfl

/-- Where something was put there is a container for it. -/
theorem fits_put_self (s : Segment) (x v : Value) : (v.put s x).Fits s := by
  rw [Fits, placeOf_put_self]
  split
  · rename_i i hplace
    refine .inl ?_
    simp only [put, hplace, items, array?, Option.getD_some, List.length_set]
    exact lt_length_pad i _
  · trivial

theorem pad_of_lt {i : Nat} {l : List Value} (h : i < l.length) : pad i l = l := by
  have hzero : i + 1 - l.length = 0 := by omega
  rw [pad, hzero, List.replicate_zero, List.append_nil]

/-- Of two values put at one segment the later counts. -/
theorem put_put_self (s : Segment) (x y v : Value) : (v.put s x).put s y = v.put s y := by
  rw [put, placeOf_put_self, put, put]
  cases v.placeOf s with
  | item i =>
    simp only [items, array?, Option.getD_some]
    rw [pad_of_lt (by rw [List.length_set]; exact lt_length_pad i _), List.set_set]
  | field name =>
    simp only [fields, object?, Option.getD_some]
    rw [Fields.insert_insert_self]

/-! ### Segments that are apart -/

variable {s t : Segment}

/-- What is put is not seen at a segment that is apart. -/
theorem inner_put_of_apart (h : s.Apart t) (x v : Value) : (v.put s x).inner t = v.inner t := by
  cases s with
  | index i =>
    cases t with
    | key b => exact h.elim
    | index j =>
      rw [inner_eq, inner_eq]
      simp only [put, placeOf, getD_pad, items, array?, Option.getD_some]
      rw [List.getElem?_set_ne h, getD_pad]
  | key a =>
    cases t with
    | index j => exact h.elim
    | key b =>
      obtain ⟨hne, ha, hb⟩ := h
      rw [inner_eq, inner_eq, put, placeOf_key_of_index?_eq_none ha,
        placeOf_key_of_index?_eq_none hb, placeOf_key_of_index?_eq_none hb]
      simp only [fields, object?, Option.getD_some]
      rw [Fields.get?_insert_of_ne hne]

/-- What is put takes no container away from a segment that is apart. -/
theorem fits_put_of_apart (h : s.Apart t) (x : Value) {v : Value} (hs : v.Fits s) :
    (v.put s x).Fits t ↔ v.Fits t := by
  cases s with
  | index i =>
    cases t with
    | key b => exact h.elim
    | index j =>
      have hs : i < v.items.length ∨ i ≤ maxWriteIndex := hs
      simp only [Fits, put, placeOf]
      simp only [items, array?, Option.getD_some, List.length_set, length_pad] at hs ⊢
      omega
  | key a =>
    cases t with
    | index j => exact h.elim
    | key b =>
      obtain ⟨_, _, hb⟩ := h
      simp only [Fits, placeOf_key_of_index?_eq_none hb]

/-- Two items are padded and set in either order. -/
theorem pad_set_comm {i j : Nat} (hne : i ≠ j) (x y : Value) (l : List Value) :
    (pad j ((pad i l).set i x)).set j y = (pad i ((pad j l).set j y)).set i x := by
  refine List.ext_getElem? fun k => ?_
  by_cases hi : i = k
  · subst hi
    rw [List.getElem?_set_ne (Ne.symm hne), getElem?_pad, List.length_set,
      if_pos (lt_length_pad i l), List.getElem?_set_self (lt_length_pad i l),
      List.getElem?_set_self (lt_length_pad i _)]
  by_cases hj : j = k
  · subst hj
    rw [List.getElem?_set_self (lt_length_pad j _), List.getElem?_set_ne hi, getElem?_pad,
      List.length_set, if_pos (lt_length_pad j l), List.getElem?_set_self (lt_length_pad j l)]
  rw [List.getElem?_set_ne hj, List.getElem?_set_ne hi]
  simp only [getElem?_pad, List.length_set, List.getElem?_set_ne hi, List.getElem?_set_ne hj,
    length_pad]
  split_ifs <;> first | rfl | omega

/-- At segments that are apart values may be put in either order. -/
theorem put_comm (h : s.Apart t) (x y v : Value) : (v.put s x).put t y = (v.put t y).put s x := by
  cases s with
  | index i =>
    cases t with
    | key b => exact h.elim
    | index j =>
      exact congrArg array (pad_set_comm h x y v.items)
  | key a =>
    cases t with
    | index j => exact h.elim
    | key b =>
      obtain ⟨hne, ha, hb⟩ := h
      simp only [put, placeOf_key_of_index?_eq_none ha, placeOf_key_of_index?_eq_none hb]
      simp only [fields, object?, Option.getD_some]
      rw [Fields.insert_comm hne]

/-! ## Along a path -/

variable {x y : Value} {p q : List Segment} {v : Value}

/-- A write goes on inside the container that a segment fits. -/
theorem write_of_fits (h : v.Fits s) (x : Value) (p : List Segment) :
    write x (s :: p) v
      = ⟨v.put s (write x p (v.inner s)).tree, (write x p (v.inner s)).fault⟩ := by
  rw [write, put, inner_eq]
  rw [Fits] at h
  cases hplace : v.placeOf s with
  | item i =>
    rw [hplace] at h
    simp only [if_pos h]
  | field name => rfl

/-- A write that stops at its first segment has met an index that is too large, and it leaves the
array there, or an empty one where something else stood. -/
theorem write_of_not_fits (h : ¬ v.Fits s) : ∃ i, v.placeOf s = .item i ∧ v.items.length ≤ i ∧
    maxWriteIndex < i ∧
    ∀ (x : Value) (p : List Segment), write x (s :: p) v = ⟨array v.items, some (.indexTooLarge i)⟩ := by
  rw [Fits] at h
  cases hplace : v.placeOf s with
  | item i =>
    rw [hplace] at h
    obtain ⟨hlength, hlimit⟩ := not_or.1 h
    refine ⟨i, rfl, Nat.le_of_not_lt hlength, Nat.lt_of_not_le hlimit, fun x p => ?_⟩
    rw [write, hplace]
    simp only [if_neg h]
  | field name =>
    rw [hplace] at h
    exact absurd trivial h

/-- A write stops at a segment that does not fit. -/
theorem fault_write_of_not_fits (h : ¬ v.Fits s) (x : Value) (p : List Segment) :
    (write x (s :: p) v).fault ≠ none := by
  obtain ⟨i, -, -, -, hwrite⟩ := write_of_not_fits h
  rw [hwrite]
  exact Option.some_ne_none _

/-- A write stops at once at an array, which stays, or at an index where no array stands. -/
theorem array_items_or_of_not_fits (h : ¬ v.Fits s) : array v.items = v ∨ ∃ i, s = .index i := by
  obtain ⟨i, hplace, -⟩ := write_of_not_fits h
  cases s with
  | index j => exact .inr ⟨j, rfl⟩
  | key name =>
    cases v with
    | array items => exact .inl rfl
    | _ => cases hplace

/-- A write that stops at once is not seen one step away. -/
theorem inner_array_items (hs : ¬ v.Fits s) (h : s = t ∨ s.Apart t) :
    (array v.items).inner t = v.inner t := by
  rcases array_items_or_of_not_fits hs with heq | ⟨i, rfl⟩
  · rw [heq]
  · have hindex : ∃ j, t = .index j := by
      rcases h with rfl | h
      · exact ⟨i, rfl⟩
      · cases t with
        | index j => exact ⟨j, rfl⟩
        | key name => exact h.elim
    obtain ⟨j, rfl⟩ := hindex
    rw [inner_eq, inner_eq]
    rfl

/-- A write passes if its first segment fits and the rest passes. -/
theorem fault_write_cons_iff :
    (write x (s :: p) v).fault = none ↔ v.Fits s ∧ (write x p (v.inner s)).fault = none := by
  by_cases h : v.Fits s
  · rw [write_of_fits h]
    exact ⟨fun hfault => ⟨h, hfault⟩, And.right⟩
  · exact ⟨fun hfault => absurd hfault (fault_write_of_not_fits h x p), fun hfits => absurd hfits.1 h⟩

/-- A segment within the limit fits everywhere. -/
theorem fits_of_bounded (h : s.Bounded) (v : Value) : v.Fits s := by
  rw [Fits]
  cases s with
  | index i => exact .inr h
  | key name =>
    cases v with
    | array items =>
      rw [placeOf]
      cases hindex : Text.index? name.toList with
      | none => exact trivial
      | some i => exact .inr (h i hindex)
    | _ => exact trivial

/-- A path within the limit can be written everywhere. -/
theorem fault_write_of_bounded (h : ∀ t ∈ p, t.Bounded) : (write x p v).fault = none := by
  induction p generalizing v with
  | nil => rfl
  | cons s p ih =>
    rw [List.forall_mem_cons] at h
    exact fault_write_cons_iff.2 ⟨fits_of_bounded h.1 v, ih h.2⟩

/-- Whether a write stops does not depend on the value. -/
theorem fault_write_congr (x y : Value) (h : (write x p v).fault = none) :
    (write y p v).fault = none := by
  induction p generalizing v with
  | nil => rfl
  | cons s p ih =>
    obtain ⟨hfits, hrest⟩ := fault_write_cons_iff.1 h
    exact fault_write_cons_iff.2 ⟨hfits, ih hrest⟩

/-- What was written at a path is there. -/
theorem at?_write_self (h : (write x p v).fault = none) : at? p (write x p v).tree = some x := by
  induction p generalizing v with
  | nil => rfl
  | cons s p ih =>
    obtain ⟨hfits, hrest⟩ := fault_write_cons_iff.1 h
    rw [write_of_fits hfits, at?, child?_put_self, Option.bind_some, ih hrest]

/-- Null leads nowhere, so what is read is null. -/
theorem at?_null (p : List Segment) : (at? p null).getD null = null := by
  cases p with
  | nil => rfl
  | cons s p => cases s <;> rfl

/-- Reading along segments is reading one step further inside. -/
theorem getD_at?_cons (s : Segment) (p : List Segment) (v : Value) :
    (at? (s :: p) v).getD null = (at? p (v.inner s)).getD null := by
  rw [at?, inner]
  cases v.child? s with
  | none => exact (at?_null p).symm
  | some u => rfl

/-- A write is not seen where a path diverges from its own, even if it stops on its way. -/
theorem getD_at?_write_of_diverge (h : Path.Diverge p q) :
    (at? q (write x p v).tree).getD null = (at? q v).getD null := by
  induction p generalizing q v with
  | nil => exact h.elim
  | cons s p ih =>
    cases q with
    | nil => exact h.elim
    | cons t q =>
      rw [getD_at?_cons, getD_at?_cons]
      by_cases hfits : v.Fits s
      · rw [write_of_fits hfits]
        rcases h with ⟨rfl, h⟩ | h
        · rw [inner_put_self, ih h]
        · rw [inner_put_of_apart h]
      · obtain ⟨_, -, -, -, hwrite⟩ := write_of_not_fits hfits
        rw [hwrite, inner_array_items hfits (h.imp And.left id)]

/-- A write does not stop another one on a path that diverges from its own, nor let it pass. -/
theorem fault_write_of_diverge (h : Path.Diverge p q) (hx : (write x p v).fault = none) :
    (write y q (write x p v).tree).fault = none ↔ (write y q v).fault = none := by
  induction p generalizing q v with
  | nil => exact h.elim
  | cons s p ih =>
    cases q with
    | nil => exact h.elim
    | cons t q =>
      obtain ⟨hfits, hrest⟩ := fault_write_cons_iff.1 hx
      rw [write_of_fits hfits, fault_write_cons_iff, fault_write_cons_iff]
      rcases h with ⟨rfl, h⟩ | h
      · rw [inner_put_self, ih h hrest]
        exact and_congr_left fun _ => ⟨fun _ => hfits, fun _ => fits_put_self _ _ _⟩
      · rw [inner_put_of_apart h, fits_put_of_apart h _ hfits]

/-- On paths that diverge, values may be written in either order. -/
theorem write_comm (h : Path.Diverge p q) (hx : (write x p v).fault = none)
    (hy : (write y q v).fault = none) :
    (write y q (write x p v).tree).tree = (write x p (write y q v).tree).tree := by
  induction p generalizing q v with
  | nil => exact h.elim
  | cons s p ih =>
    cases q with
    | nil => exact h.elim
    | cons t q =>
      obtain ⟨hs, hxrest⟩ := fault_write_cons_iff.1 hx
      obtain ⟨ht, hyrest⟩ := fault_write_cons_iff.1 hy
      rw [write_of_fits hs, write_of_fits ht]
      rcases h with ⟨rfl, h⟩ | h
      · rw [write_of_fits (fits_put_self _ _ _), write_of_fits (fits_put_self _ _ _),
          inner_put_self, inner_put_self]
        simp only
        rw [put_put_self, put_put_self, ih h hxrest hyrest]
      · rw [write_of_fits ((fits_put_of_apart h _ hs).2 ht),
          write_of_fits ((fits_put_of_apart h.symm _ ht).2 hs), inner_put_of_apart h,
          inner_put_of_apart h.symm]
        exact put_comm h _ _ v

end Value

/-! ## By the texts of paths -/

/-- Where the paths of the texts first differ, their segments are apart. -/
def Path.Separate (a b : String) : Prop :=
  ∀ p q, Path.parse? a = some p → Path.parse? b = some q → Path.Diverge p q

/-- Paths that read as diverging segments are separate. -/
theorem Path.separate_of_parse {a b : String} {p q : List Segment} (hp : Path.parse? a = some p)
    (hq : Path.parse? b = some q) (h : Path.Diverge p q) : Path.Separate a b := by
  intro p' q' hp' hq'
  obtain rfl := Option.some.inj (hp.symm.trans hp')
  obtain rfl := Option.some.inj (hq.symm.trans hq')
  exact h

/-- The text is that of a path with segments, and no write stops at any of them. -/
def Path.Bounded (a : String) : Prop :=
  ∃ s p, Path.parse? a = some (s :: p) ∧ ∀ t ∈ s :: p, t.Bounded

theorem Path.Separate.symm {a b : String} (h : Path.Separate a b) : Path.Separate b a :=
  fun p q hp hq => (h q p hq hp).symm

namespace Value

variable {a b : String} {c x y : Value}

/-- A write that does not stop is one on a path with segments. -/
theorem exists_write_of_fault_set (h : (c.set a x).fault = none) :
    ∃ p, Path.parse? a = some p ∧ ∀ (c x : Value), c.set a x = write x p c := by
  cases hp : Path.parse? a with
  | none =>
    rw [set, hp] at h
    cases h
  | some p =>
    cases p with
    | nil =>
      rw [set, hp] at h
      cases h
    | cons s p =>
      refine ⟨s :: p, rfl, fun c x => ?_⟩
      rw [set, hp]

/-- A path whose indices are within the limit can be written everywhere. -/
theorem fault_set_of_bounded (h : Path.Bounded a) (c x : Value) : (c.set a x).fault = none := by
  obtain ⟨s, p, hp, hbounded⟩ := h
  rw [set, hp]
  exact fault_write_of_bounded hbounded

/-- A path on which something can be written does not diverge from itself. -/
theorem ne_of_separate (h : (c.set a x).fault = none) (hsep : Path.Separate a b) : a ≠ b := by
  rintro rfl
  obtain ⟨p, hp, _⟩ := exists_write_of_fault_set h
  exact Path.not_diverge_self p (hsep p p hp hp)

/-- Whether a write passes does not depend on the value. -/
theorem fault_set_congr (x y : Value) (h : (c.set a x).fault = none) : (c.set a y).fault = none := by
  obtain ⟨p, _, hset⟩ := exists_write_of_fault_set h
  rw [hset] at h ⊢
  exact fault_write_congr x y h

/-- What was written at a path is read there. -/
theorem resolve_set_self (h : (c.set a x).fault = none) : (c.set a x).tree.resolve a = some x := by
  obtain ⟨p, hp, hset⟩ := exists_write_of_fault_set h
  rw [hset] at h ⊢
  rw [resolve, hp, Option.bind_some, at?_write_self h]

/-- A write is not read on a path that diverges from its own. -/
theorem getD_resolve_set (hsep : Path.Separate a b) (h : (c.set a x).fault = none) :
    ((c.set a x).tree.resolve b).getD null = (c.resolve b).getD null := by
  obtain ⟨p, hp, hset⟩ := exists_write_of_fault_set h
  rw [hset]
  cases hq : Path.parse? b with
  | none => rw [resolve, resolve, hq, Option.bind_none, Option.bind_none]
  | some q =>
    rw [resolve, resolve, hq, Option.bind_some, Option.bind_some,
      getD_at?_write_of_diverge (hsep p q hp hq)]

/-- A write that passes decides nothing about one on a separate path. -/
theorem fault_set_iff (hsep : Path.Separate a b) (hx : (c.set a x).fault = none) :
    ((c.set a x).tree.set b y).fault = none ↔ (c.set b y).fault = none := by
  obtain ⟨p, hp, hset⟩ := exists_write_of_fault_set hx
  rw [hset] at hx ⊢
  cases hq : Path.parse? b with
  | none =>
    rw [set, set, hq]
  | some q =>
    have hdiverge := hsep p q hp hq
    cases q with
    | nil =>
      cases p with
      | nil => exact hdiverge.elim
      | cons s p => exact hdiverge.elim
    | cons t q =>
      rw [set, set, hq]
      exact fault_write_of_diverge hdiverge hx

/-- On paths that diverge, values may be written in either order. -/
theorem set_comm (hsep : Path.Separate a b) (hx : (c.set a x).fault = none)
    (hy : (c.set b y).fault = none) :
    ((c.set a x).tree.set b y).tree = ((c.set b y).tree.set a x).tree := by
  obtain ⟨p, hp, hset⟩ := exists_write_of_fault_set hx
  obtain ⟨q, hq, hset'⟩ := exists_write_of_fault_set hy
  rw [hset] at hx
  rw [hset'] at hy
  rw [hset, hset', hset', hset, write_comm (hsep p q hp hq) hx hy]

/-! ## Several writes -/

/-- Writes values at paths, one after the other. -/
def setAll (c : Value) (writes : List (String × Value)) : Value :=
  writes.foldl (fun c p => (c.set p.1 p.2).tree) c

/-- Each of the values can be written at its path, and the paths diverge from each other. -/
structure Settable (c : Value) (writes : List (String × Value)) : Prop where
  nodup : writes.Nodup
  fault : ∀ p ∈ writes, (c.set p.1 p.2).fault = none
  apart : ∀ p ∈ writes, ∀ q ∈ writes, p ≠ q → Path.Separate p.1 q.1

theorem setAll_append (c : Value) (l m : List (String × Value)) :
    c.setAll (l ++ m) = (c.setAll l).setAll m := List.foldl_append ..

namespace Settable

variable {l m : List (String × Value)} {p : String × Value}

/-- Some of the writes that can be made can be made by themselves. -/
theorem subset (h : Settable c l) (hnodup : m.Nodup) (hsub : m ⊆ l) : Settable c m where
  nodup := hnodup
  fault q hq := h.fault q (hsub hq)
  apart q hq r hr := h.apart q (hsub hq) r (hsub hr)

/-- After the first write the others can still be made. -/
theorem tail (h : Settable c (p :: l)) : Settable (c.set p.1 p.2).tree l := by
  obtain ⟨hnew, hnodup⟩ := List.nodup_cons.1 h.nodup
  refine ⟨hnodup, fun q hq => ?_, fun q hq r hr => ?_⟩
  · have hne : p ≠ q := fun heq => hnew (heq ▸ hq)
    have hsep := h.apart p List.mem_cons_self q (List.mem_cons_of_mem _ hq) hne
    rw [fault_set_iff hsep (h.fault p List.mem_cons_self)]
    exact h.fault q (List.mem_cons_of_mem _ hq)
  · exact h.apart q (List.mem_cons_of_mem _ hq) r (List.mem_cons_of_mem _ hr)

/-- A write that can be made first, on a path that diverges from those of the others. -/
theorem cons (h : Settable (c.set p.1 p.2).tree l) (hfault : (c.set p.1 p.2).fault = none)
    (hsep : ∀ q ∈ l, Path.Separate p.1 q.1) : Settable c (p :: l) := by
  refine ⟨List.nodup_cons.2 ⟨fun hp => ?_, h.nodup⟩, fun q hq => ?_, fun q hq r hr hne => ?_⟩
  · exact ne_of_separate hfault (hsep p hp) rfl
  · rcases List.mem_cons.1 hq with rfl | hq
    · exact hfault
    · exact (fault_set_iff (hsep q hq) hfault).1 (h.fault q hq)
  · rcases List.mem_cons.1 hq with rfl | hq'
    · exact hsep r ((List.mem_cons.1 hr).resolve_left hne.symm)
    · rcases List.mem_cons.1 hr with rfl | hr'
      · exact (hsep q hq').symm
      · exact h.apart q hq' r hr' hne

/-- What holds of the tree, and still holds after each of the writes, holds after all of them. -/
theorem setAll_induction {P : Value → Prop} (h : Settable c l) (hc : P c)
    (hstep : ∀ q ∈ l, ∀ d : Value, (d.set q.1 q.2).fault = none → P d → P (d.set q.1 q.2).tree) :
    P (c.setAll l) := by
  induction l generalizing c with
  | nil => exact hc
  | cons q l ih =>
    refine ih h.tail (hstep q List.mem_cons_self c (h.fault q List.mem_cons_self) hc) ?_
    exact fun r hr => hstep r (List.mem_cons_of_mem _ hr)

/-- Each write can still be made after any of the others. -/
theorem fault_setAll (h : Settable c l) (hp : p ∈ l) (hm : m.Nodup) (hsub : m ⊆ l) (hnew : p ∉ m) :
    ((c.setAll m).set p.1 p.2).fault = none := by
  refine (h.subset hm hsub).setAll_induction (P := fun d => (d.set p.1 p.2).fault = none)
    (h.fault p hp) fun q hq d hd hfault => ?_
  have hne : q ≠ p := fun heq => hnew (heq ▸ hq)
  rwa [fault_set_iff (h.apart q (hsub hq) p hp hne) hd]

/-- The order of the writes does not matter. -/
theorem setAll_perm (h : Settable c l) (hperm : l.Perm m) : c.setAll l = c.setAll m := by
  induction hperm generalizing c with
  | nil => rfl
  | cons q _ ih => exact ih h.tail
  | swap q r l =>
    have hnew : r ∉ q :: l := (List.nodup_cons.1 h.nodup).1
    have hne : r ≠ q := fun heq => hnew (heq ▸ List.mem_cons_self)
    have hq : q ∈ r :: q :: l := List.mem_cons_of_mem _ List.mem_cons_self
    have hcomm := set_comm (h.apart r List.mem_cons_self q hq hne) (h.fault r List.mem_cons_self)
      (h.fault q hq)
    rw [setAll, List.foldl_cons, List.foldl_cons, hcomm]
    rfl
  | trans hperm _ ih ih' =>
    rw [ih h, ih' (h.subset (hperm.nodup_iff.1 h.nodup) hperm.symm.subset)]

/-- What was written at one of the paths is read there when all has been written. -/
theorem resolve_setAll (h : Settable c l) (hp : p ∈ l) : (c.setAll l).resolve p.1 = some p.2 := by
  obtain ⟨first, rest, rfl⟩ := List.append_of_mem hp
  -- the write may as well be the last one
  have hperm : (first ++ p :: rest).Perm (first ++ rest ++ [p]) :=
    List.perm_middle.trans (List.perm_append_singleton p (first ++ rest)).symm
  obtain ⟨hnew, hnodup⟩ := List.nodup_cons.1 (List.perm_middle.nodup_iff.1 h.nodup)
  have hsub : first ++ rest ⊆ first ++ p :: rest := fun q hq =>
    List.perm_middle.symm.subset (List.mem_cons_of_mem p hq)
  rw [h.setAll_perm hperm, setAll_append]
  exact resolve_set_self (h.fault_setAll hp hnodup hsub hnew)

end Settable

end Value

end Wavefront
