/-
Writing makes no array longer than an index may ask for.

A value is within a bound if no array in it, however deep, has more items than the bound allows. A
write puts together what was there and what it writes; the one thing that it makes itself is the
padding in front of an index, and that is at most `maxWriteIndex`. So a bound above this limit is
kept by every write, and also by a write that stops half-way, since what it has made until then has
been made in the same way.

The length that an array is brought to is one more than an index, and an index is any word. On words
the sum is refused before it is used (`lengthFor?`): it is exact wherever a write goes on, and where
there is no such word, or it is beyond the limit, the write stops.
-/
import Wavefront.Proofs.Path.Text
import Wavefront.Proofs.Value.Frame

set_option autoImplicit false

namespace Wavefront.Value

/-- No array in the value has more items than the bound. -/
inductive Within (bound : Nat) : Value → Prop where
  | null : Within bound null
  | bool (b : Bool) : Within bound (bool b)
  | number (n : Number) : Within bound (number n)
  | string (s : String) : Within bound (string s)
  | array {items : List Value} (hlength : items.length ≤ bound)
      (hitems : ∀ x ∈ items, Within bound x) : Within bound (array items)
  | object {fields : List (String × Value)} (hfields : ∀ field ∈ fields, Within bound field.2) :
      Within bound (object fields)

variable {bound : Nat} {v x : Value} {s : Segment} {p : List Segment}

/-! ## What is in a value -/

/-- An array within a bound has no more items than the bound. -/
theorem Within.length_items_le (h : v.Within bound) : v.items.length ≤ bound := by
  cases h with
  | array hlength _ => exact hlength
  | _ => exact Nat.zero_le bound

/-- The items of an array within a bound are within it. -/
theorem Within.of_mem_items (h : v.Within bound) (hx : x ∈ v.items) : x.Within bound := by
  cases h with
  | array _ hitems => exact hitems x hx
  | _ => cases hx

/-- The fields of an object within a bound are within it. -/
theorem Within.of_mem_fields (h : v.Within bound) {field : String × Value} (hf : field ∈ v.fields) :
    field.2.Within bound := by
  cases h with
  | object hfields => exact hfields field hf
  | _ => cases hf

/-- The items of a value, as an array of their own. -/
theorem Within.array_items (h : v.Within bound) : (Value.array v.items).Within bound :=
  .array h.length_items_le fun _ hx => h.of_mem_items hx

/-- What stands one step inside is within the bound, or null. -/
theorem Within.inner (h : v.Within bound) (s : Segment) : (v.inner s).Within bound := by
  rw [Value.inner]
  cases hchild : v.child? s with
  | none => exact .null
  | some x =>
    rcases child?_eq_some hchild with ⟨i, items, rfl, -, hx⟩ | ⟨name, fields, rfl, -, hx⟩
    · exact h.of_mem_items (List.mem_of_getElem? hx)
    · exact h.of_mem_fields (Fields.mem_of_get? hx)

/-! ## Writing -/

/-- Putting a value where it fits pads an array up to the limit at most. -/
theorem Within.put (hbound : maxWriteIndex + 1 ≤ bound) (h : v.Within bound) (hfits : v.Fits s)
    (hx : x.Within bound) : (v.put s x).Within bound := by
  rw [Value.put]
  rw [Fits] at hfits
  cases hplace : v.placeOf s with
  -- the array is as long as it was, or just long enough for an index that passes
  | item i =>
    rw [hplace] at hfits
    have hlength := h.length_items_le
    refine .array ?_ fun y hy => ?_
    · rw [List.length_set, length_pad]
      omega
    · rcases List.mem_or_eq_of_mem_set hy with hy | rfl
      · rcases List.mem_append.1 hy with hold | hpadded
        · exact h.of_mem_items hold
        · exact List.eq_of_mem_replicate hpadded ▸ .null
      · exact hx
  | field name =>
    refine .object fun field hfield => ?_
    rcases Fields.mem_insert hfield with rfl | hold
    · exact hx
    · exact h.of_mem_fields hold

/-- A write keeps the bound, whether it stops or not. -/
theorem Within.write (hbound : maxWriteIndex + 1 ≤ bound) (h : v.Within bound) (hx : x.Within bound) :
    (Value.write x p v).tree.Within bound := by
  induction p generalizing v with
  | nil => exact hx
  | cons s p ih =>
    by_cases hfits : v.Fits s
    · rw [write_of_fits hfits]
      exact h.put hbound hfits (ih (h.inner s))
    · obtain ⟨i, -, -, -, hwrite⟩ := write_of_not_fits hfits
      rw [hwrite]
      exact h.array_items

/-- A write at any path keeps a bound above the limit, whether it passes or not. -/
theorem Within.set (hbound : maxWriteIndex + 1 ≤ bound) (h : v.Within bound) (hx : x.Within bound)
    (a : String) : (v.set a x).tree.Within bound := by
  rw [Value.set]
  split
  · exact h
  · exact h
  · exact h.write hbound hx

/-- Writes keep the bound, one after the other. -/
theorem Within.setAll (hbound : maxWriteIndex + 1 ≤ bound) (h : v.Within bound)
    {writes : List (String × Value)} (hwrites : ∀ w ∈ writes, w.2.Within bound) :
    (v.setAll writes).Within bound := by
  induction writes generalizing v with
  | nil => exact h
  | cons w writes ih =>
    obtain ⟨hw, hrest⟩ := List.forall_mem_cons.1 hwrites
    exact ih (h.set hbound hw w.1) hrest

/-! ## Lengths on words -/

/-- The length that an index asks for, computed on words: one more than the index, unless the sum is
no word or beyond the limit. -/
def lengthFor? (i : UInt64) : Option UInt64 :=
  if i < i + 1 ∧ i + 1 ≤ UInt64.ofNat (maxWriteIndex + 1) then some (i + 1) else none

/-- On words the sum is refused where it wraps to zero, and where it is beyond the limit. -/
theorem lengthFor?_ofNat {i : Nat} (hi : i < Text.indexLimit) :
    lengthFor? (.ofNat i) = if i ≤ maxWriteIndex then some (.ofNat (i + 1)) else none := by
  have hsize : i < 2 ^ 64 := hi
  have hword : (UInt64.ofNat i).toNat = i := UInt64.toNat_ofNat_of_lt' hi
  have hsum : (UInt64.ofNat i + 1).toNat = (i + 1) % 2 ^ 64 := by
    rw [UInt64.toNat_add, hword]
    rfl
  have hlimit : (UInt64.ofNat (maxWriteIndex + 1)).toNat = maxWriteIndex + 1 := by decide
  -- the sum wraps around only at the last word, which is far beyond the limit
  have hchecked : UInt64.ofNat i < UInt64.ofNat i + 1 ∧
      UInt64.ofNat i + 1 ≤ UInt64.ofNat (maxWriteIndex + 1) ↔ i ≤ maxWriteIndex := by
    rw [UInt64.lt_iff_toNat_lt, UInt64.le_iff_toNat_le, hword, hsum, hlimit, maxWriteIndex]
    omega
  rw [lengthFor?]
  by_cases hle : i ≤ maxWriteIndex
  · rw [if_pos (hchecked.2 hle), if_pos hle, UInt64.ofNat_add]
    rfl
  · rw [if_neg (mt hchecked.1 hle), if_neg hle]

/-- An index in the text of a path is a word, whether it stands in brackets or is a key that is a
numeral. -/
theorem lt_indexLimit_of_placeOf {a : String} (ha : Path.parse? a = some p) (hs : s ∈ p) {i : Nat}
    (hplace : v.placeOf s = .item i) : i < Text.indexLimit := by
  cases s with
  | index j =>
    obtain rfl := Place.item.inj hplace
    exact (Path.writable_of_parse? ha).indices j hs
  | key name =>
    cases v with
    | array items =>
      rw [placeOf] at hplace
      split at hplace
      · next j hj =>
        obtain rfl := Place.item.inj hplace
        exact Text.lt_of_index? hj
      · cases hplace
    | _ => cases hplace

/-- How a write goes on at an index behind all items that there are: it brings the array to the
length that is computed on words, which is exact, or there is no such length and it stops. -/
def GrowsOrStops (x : Value) (s : Segment) (p : List Segment) (v : Value) (i : Nat) : Prop :=
  (∃ length, lengthFor? (.ofNat i) = some length ∧ length.toNat = i + 1 ∧
    ∃ items, (write x (s :: p) v).tree = array items ∧ items.length = length.toNat) ∨
  (lengthFor? (.ofNat i) = none ∧ write x (s :: p) v = ⟨array v.items, some (.indexTooLarge i)⟩)

/-- At an index beyond its end an array grows to that index, or the write stops: the two sides of
one test. -/
theorem growsOrStops {i : Nat} (hi : i < Text.indexLimit) (hplace : v.placeOf s = .item i)
    (hle : v.items.length ≤ i) (x : Value) (p : List Segment) : GrowsOrStops x s p v i := by
  rw [GrowsOrStops, lengthFor?_ofNat hi]
  by_cases hlimit : i ≤ maxWriteIndex
  · have hfits : v.Fits s := by
      rw [Fits, hplace]
      exact .inr hlimit
    have hword : (UInt64.ofNat (i + 1)).toNat = i + 1 := by
      rw [maxWriteIndex] at hlimit
      exact UInt64.toNat_ofNat_of_lt' (Nat.lt_of_le_of_lt (Nat.succ_le_succ hlimit) (by decide))
    refine .inl ⟨.ofNat (i + 1), if_pos hlimit, hword, ?_⟩
    rw [write_of_fits hfits, put, hplace, hword]
    refine ⟨_, rfl, ?_⟩
    rw [List.length_set, length_pad, Nat.max_eq_right (Nat.le_succ_of_le hle)]
  -- beyond the limit and beyond the items, so the write stops where it is
  · have hfits : ¬ v.Fits s := by
      rw [Fits, hplace]
      exact not_or.2 ⟨Nat.not_lt.2 hle, hlimit⟩
    obtain ⟨j, hplace', -, -, hwrite⟩ := write_of_not_fits hfits
    obtain rfl := Place.item.inj (hplace.symm.trans hplace')
    exact .inr ⟨if_neg hlimit, hwrite x p⟩

/-! ## Why a write stops -/

/-- At a segment of a path some item is asked for that no write makes: by an index, or by a numeral
where an array stands. -/
def AsksTooFar (c : Value) (p : List Segment) : Prop :=
  ∃ before s after i, p = before ++ s :: after ∧ maxWriteIndex < i ∧
    (s = .index i ∨ ∃ name items, s = .key name ∧ Text.index? name.toList = some i ∧
      c.at? before = some (array items))

/-- Only an item too far out stops a write along a path. -/
theorem asksTooFar_of_fault {c : Value} {fault : WriteFault}
    (h : (write x p c).fault = some fault) : c.AsksTooFar p := by
  obtain ⟨before, s, after, i, rfl, -, hlimit, hplace, -⟩ := write_of_fault h
  refine ⟨before, s, after, i, rfl, hlimit, ?_⟩
  cases hread : c.at? before with
  -- where nothing stands yet only an index segment makes an array
  | none =>
    rw [hread] at hplace
    exact .inl (eq_index_of_placeOf hplace (by simp))
  | some v =>
    rw [hread, Option.getD_some] at hplace
    cases s with
    | index j => exact .inl (congrArg Segment.index (Place.item.inj hplace))
    | key name =>
      cases v with
      | array items =>
        rw [placeOf] at hplace
        split at hplace
        · next j hj =>
          obtain rfl := Place.item.inj hplace
          exact .inr ⟨name, items, rfl, hj, rfl⟩
        · cases hplace
      | _ => cases hplace

/-- **Writing makes no array longer than the limit on indices allows.** A bound on the arrays of a
tree and of the values written, above this limit, is kept by all writes one after the other, with
those that stop. No length is ever computed that is no word, and a write along a path stops only at
an item that is asked for beyond the limit. -/
theorem setAll_arrays_bounded {bound : Nat} (hbound : maxWriteIndex + 1 ≤ bound) {c : Value}
    (hc : c.Within bound) {writes : List (String × Value)}
    (hwrites : ∀ w ∈ writes, w.2.Within bound) :
    (∀ done, done <+: writes → (c.setAll done).Within bound) ∧
    (∀ a p, Path.parse? a = some p → ∀ s ∈ p, ∀ (v : Value) i, v.placeOf s = .item i →
      v.items.length ≤ i → ∀ x rest, GrowsOrStops x s rest v i) ∧
    (∀ a p, Path.parse? a = some p → p ≠ [] → ∀ (d x : Value) fault,
      (d.set a x).fault = some fault → d.AsksTooFar p) := by
  refine ⟨fun done hdone => ?_, fun a p ha s hs v i hplace hle x rest => ?_,
    fun a p ha hne d x fault hfault => ?_⟩
  · exact hc.setAll hbound fun w hw => hwrites w (hdone.subset hw)
  · exact growsOrStops (lt_indexLimit_of_placeOf ha hs hplace) hplace hle x rest
  · rw [set_of_parse ha hne] at hfault
    exact asksTooFar_of_fault hfault

/-- Writes at the limit, beyond it by a numeral where an array stands, and at the last word. -/
def farWrites : List (String × Value) :=
  [("xs[100000]", bool true), ("xs.100001", bool true), ("xs.1.ys[18446744073709551615]", null)]

/-- Writes up to the last index, and one beyond every array. -/
theorem setAll_arrays_bounded_farWrites :
    ((object []).setAll farWrites).Within 100001 ∧
    ((object []).set "xs[18446744073709551615]" null).fault
      = some (.indexTooLarge 18446744073709551615) ∧
    (object []).AsksTooFar [.key "xs", .index 18446744073709551615] := by
  have hwrites : ∀ w ∈ farWrites, w.2.Within 100001 :=
    List.forall_mem_cons.2 ⟨.bool true, List.forall_mem_cons.2 ⟨.bool true,
      List.forall_mem_cons.2 ⟨.null, fun _ hw => absurd hw List.not_mem_nil⟩⟩⟩
  have hempty : (object []).Within 100001 := .object fun _ hf => absurd hf List.not_mem_nil
  have hpath : Path.parse? "xs[18446744073709551615]"
      = some [.key "xs", .index 18446744073709551615] := by decide
  have hfault : ((object []).set "xs[18446744073709551615]" null).fault
      = some (.indexTooLarge 18446744073709551615) := by
    rw [set_of_parse hpath (List.cons_ne_nil _ _)]
    decide
  obtain ⟨hwithin, -, hstops⟩ := setAll_arrays_bounded (by decide) hempty hwrites
  exact ⟨hwithin farWrites (List.prefix_refl farWrites), hfault,
    hstops _ _ hpath (List.cons_ne_nil _ _) (object []) null _ hfault⟩

end Wavefront.Value
