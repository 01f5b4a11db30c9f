/-
Reading and writing at one path are a lens.

What was written is read, the later of two writes counts, and writing what is read changes nothing.
The last law asks for nothing of the path but that it has segments: what can be read stands inside
the containers that are there, so a write of it makes none, pads nothing and meets no limit.
-/
import Wavefront.Proofs.Value.Write

set_option autoImplicit false

namespace Wavefront

/-- Binding a key to the value that it has changes nothing. -/
theorem Fields.insert_of_get? {α : Type} {key : String} {v : α} {fields : List (String × α)}
    (h : get? key fields = some v) : insert key v fields = fields := by
  induction fields with
  | nil => cases h
  | cons pair rest ih =>
    obtain ⟨k, w⟩ := pair
    rw [get?_cons] at h
    by_cases hlt : k < key
    · rw [if_pos hlt] at h
      rw [insert_cons_of_lt hlt, ih h]
    · rw [if_neg hlt] at h
      by_cases heq : k = key
      · subst heq
        rw [if_pos rfl] at h
        rw [insert_cons_self, Option.some.inj h]
      -- the keys are in order, so a key that was passed by is not there
      · rw [if_neg heq] at h
        cases h

namespace Value

variable {v x y : Value} {s : Segment} {p : List Segment}

/-! ## One step -/

/-- What can be read at a segment is the item or the field that the segment names. -/
theorem child?_eq_some (h : v.child? s = some x) :
    (∃ i items, v = array items ∧ v.placeOf s = .item i ∧ items[i]? = some x) ∨
    (∃ name fields, v = object fields ∧ v.placeOf s = .field name ∧
      Fields.get? name fields = some x) := by
  cases v with
  | array items =>
    cases s with
    | index i => exact .inl ⟨i, items, rfl, rfl, h⟩
    | key name =>
      rw [child?] at h
      -- the length of an array can be asked for, but it is no child
      by_cases hlength : name = lengthKey
      · rw [if_pos hlength] at h
        cases h
      · rw [if_neg hlength] at h
        obtain ⟨i, hi, hx⟩ := Option.bind_eq_some_iff.1 h
        exact .inl ⟨i, items, rfl, by rw [placeOf, hi], hx⟩
  | object fields =>
    cases s with
    | index i => cases h
    | key name => exact .inr ⟨name, fields, rfl, rfl, h⟩
  | _ => cases h

/-- Something may be put wherever something can be read. -/
theorem fits_of_child? (h : v.child? s = some x) : v.Fits s := by
  rw [Fits]
  rcases child?_eq_some h with ⟨i, items, rfl, hplace, hx⟩ | ⟨name, fields, rfl, hplace, _⟩
  · rw [hplace]
    exact .inl (List.getElem?_eq_some_iff.1 hx).1
  · rw [hplace]
    trivial

/-- Putting back what is there changes nothing. -/
theorem put_child (h : v.child? s = some x) : v.put s x = v := by
  rw [put]
  rcases child?_eq_some h with ⟨i, items, rfl, hplace, hx⟩ | ⟨name, fields, rfl, hplace, hx⟩
  · obtain ⟨hlt, rfl⟩ := List.getElem?_eq_some_iff.1 hx
    rw [hplace]
    simp only [Value.items, array?, Option.getD_some]
    rw [pad_of_lt hlt, List.set_getElem_self]
  · rw [hplace]
    simp only [Value.fields, object?, Option.getD_some]
    rw [Fields.insert_of_get? hx]

theorem inner_of_child? (h : v.child? s = some x) : v.inner s = x := by
  rw [inner, h, Option.getD_some]

/-! ## Along a path -/

/-- Of two writes at one path the later counts. -/
theorem write_write_self (h : (write x p v).fault = none) :
    write y p (write x p v).tree = write y p v := by
  induction p generalizing v with
  | nil => rfl
  | cons s p ih =>
    obtain ⟨hfits, hrest⟩ := fault_write_cons_iff.1 h
    rw [write_of_fits hfits x, write_of_fits (fits_put_self _ _ _), write_of_fits hfits y,
      inner_put_self, put_put_self, ih hrest]

/-- A write of what can be read at its path passes and changes nothing. -/
theorem write_at? (h : at? p v = some x) : write x p v = ⟨v, none⟩ := by
  induction p generalizing v with
  | nil => rw [write, Option.some.inj h]
  | cons s p ih =>
    obtain ⟨u, hu, hx⟩ := Option.bind_eq_some_iff.1 h
    rw [write_of_fits (fits_of_child? hu), inner_of_child? hu, ih hx, put_child hu]

/-! ## By the text of a path -/

variable {a : String} {c : Value}

/-- Of two writes at one path the later counts. -/
theorem set_set_self (h : (c.set a x).fault = none) : (c.set a x).tree.set a y = c.set a y := by
  obtain ⟨p, _, hset⟩ := exists_write_of_fault_set h
  rw [hset] at h
  rw [hset, hset, hset, write_write_self h]

/-- A write of what can be read at its path passes and changes nothing. -/
theorem set_resolve (ha : Path.parse? a ≠ some []) (h : c.resolve a = some x) :
    c.set a x = ⟨c, none⟩ := by
  obtain ⟨p, hp, hx⟩ := Option.bind_eq_some_iff.1 h
  cases p with
  | nil => exact absurd hp ha
  | cons s p =>
    rw [set, hp]
    exact write_at? hx

/-- Only what can be read at a path is written there without a change. -/
theorem resolve_of_set (h : c.set a x = ⟨c, none⟩) : c.resolve a = some x := by
  have hfault : (c.set a x).fault = none := by rw [h]
  have hread := resolve_set_self hfault
  rwa [h] at hread

/-- Reading and writing at a path are a lens: what was written is read, the later of two writes
counts, and the writes that pass and change nothing are those of what is read already. -/
theorem set_lawful_lens (c : Value) (a : String) (x y : Value) :
    ((c.set a x).fault = none →
      (c.set a x).tree.resolve a = some x ∧
      (c.set a y).fault = none ∧ (c.set a x).tree.set a y = c.set a y) ∧
    (Path.parse? a ≠ some [] → (c.resolve a = some x ↔ c.set a x = ⟨c, none⟩)) :=
  ⟨fun h => ⟨resolve_set_self h, fault_set_congr x y h, set_set_self h⟩,
    fun ha => ⟨set_resolve ha, resolve_of_set⟩⟩

/-- An array with items beyond the index up to which a write makes items. -/
def longList : Value := object [("xs", array (List.replicate 100002 null))]

/-- An index beyond the limit may be written where an item stands. -/
theorem set_lawful_lens_longList :
    (longList.set "xs[100001]" (bool true)).tree.resolve "xs[100001]" = some (bool true) ∧
    (longList.set "xs[100001]" (bool true)).tree.set "xs[100001]" null = ⟨longList, none⟩ := by
  have hpath : Path.parse? "xs[100001]" = some [.key "xs", .index 100001] := by decide
  -- the item is read without counting to it
  have hread : longList.resolve "xs[100001]" = some null := by
    have hitem : (List.replicate 100002 null)[100001]? = some null :=
      List.getElem?_replicate_of_lt (by omega)
    rw [resolve, hpath, Option.bind_some, at?, longList, child?, Fields.get?_cons,
      if_neg (lt_irrefl "xs"), if_pos rfl, Option.bind_some, at?, child?, hitem]
    rfl
  have hne : Path.parse? "xs[100001]" ≠ some [] := by
    rw [hpath]
    decide
  have hsame := ((set_lawful_lens longList "xs[100001]" null (bool true)).2 hne).1 hread
  have hfault : (longList.set "xs[100001]" null).fault = none := by rw [hsame]
  obtain ⟨hread, _, hlast⟩ := (set_lawful_lens longList "xs[100001]" (bool true) null).1
    (fault_set_congr null (bool true) hfault)
  exact ⟨hread, hlast.trans hsame⟩

end Value

end Wavefront
