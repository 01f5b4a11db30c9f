/-
What a write leaves alone, and what it leaves behind when it stops.

A write goes in place: it makes and replaces containers on its way, pads arrays with nulls, and may
still stop, at an index beyond the limit. Where two paths part at two indices, or at two keys that
are no numerals, a write along the one is not seen along the other, wherever it stops. What stood
there stands there still, since something is replaced only where a container of another kind is
wanted, and through such a thing the other path leads nowhere. Nothing can come to stand there but
the nulls that pad an array.

Two writes that pass on such paths may therefore change places. A write that stops leaves the tree
as it was, or an empty array where no array stood in front of the index.
-/
import Wavefront.Proofs.Value.Lens

set_option autoImplicit false

namespace Wavefront

variable {common p q : List Segment} {s t : Segment}

/-- Paths that part after a common front diverge. -/
theorem Path.diverge_append (h : s.Apart t) : Path.Diverge (common ++ s :: p) (common ++ t :: q) := by
  induction common with
  | nil => exact .inr h
  | cons r common ih => exact .inl ⟨rfl, ih⟩

namespace Value

variable {v w x : Value}

/-! ## What is there stays -/

/-- What can be read at a segment can still be read there when a value was put at another one. -/
theorem child?_put_of_apart (h : s.Apart t) (hw : v.child? t = some w) (x : Value) :
    (v.put s x).child? t = some w := by
  cases s with
  | index i =>
    cases t with
    | key b => exact h.elim
    | index j =>
      rcases child?_eq_some hw with ⟨k, items, rfl, -, -⟩ | ⟨name, fields, -, hplace, -⟩
      · have hne : i ≠ j := h
        have hitem : items[j]? = some w := hw
        have hlt : j < items.length := (List.getElem?_eq_some_iff.1 hitem).1
        simp only [put, placeOf, child?]
        rw [List.getElem?_set_ne hne, getElem?_pad]
        exact (if_pos hlt).trans hitem
      · cases hplace
  | key a =>
    cases t with
    | index j => exact h.elim
    | key b =>
      obtain ⟨hne, ha, hb⟩ := h
      rw [child?_key_of_index?_eq_none hb] at hw ⊢
      rw [put, placeOf_key_of_index?_eq_none ha]
      exact (Fields.get?_insert_of_ne hne x v.fields).trans hw

/-- A write that stops at once leaves what can be read one step away. -/
theorem child?_array_items (hs : ¬ v.Fits s) (h : s = t ∨ s.Apart t) (hw : v.child? t = some w) :
    (array v.items).child? t = some w := by
  rcases array_items_or_of_not_fits hs with heq | ⟨i, rfl⟩
  · rw [heq]
    exact hw
  · -- only in an array does an index name something that is there
    rcases child?_eq_some hw with ⟨_, items, rfl, -, -⟩ | ⟨_, _, rfl, hplace, -⟩
    · exact hw
    · rcases h with rfl | h
      · cases hplace
      · cases t with
        | index j => exact h.elim (by cases hplace)
        | key b => exact h.elim

/-- What can be read on a path can still be read there after a write along a path that diverges from
it, also if the write stops. -/
theorem at?_write_of_diverge (h : Path.Diverge p q) (hw : at? q v = some w) :
    at? q (write x p v).tree = some w := by
  induction p generalizing q v with
  | nil => exact h.elim
  | cons s p ih =>
    cases q with
    | nil => exact h.elim
    | cons t q =>
      obtain ⟨u, hu, hrest⟩ := Option.bind_eq_some_iff.1 hw
      by_cases hfits : v.Fits s
      · rw [write_of_fits hfits]
        rcases h with ⟨rfl, h⟩ | h
        · rw [at?, child?_put_self, Option.bind_some, inner_of_child? hu]
          exact ih h hrest
        · rw [at?, child?_put_of_apart h hu, Option.bind_some, hrest]
      · -- the write stops here, whether the paths part now or only later
        obtain ⟨_, -, -, -, hwrite⟩ := write_of_not_fits hfits
        rw [hwrite, at?, child?_array_items hfits (h.imp And.left id) hu, Option.bind_some, hrest]

/-! ## By the texts of paths -/

variable {a b : String} {c y : Value}

/-- A write at a path that reads as segments is the write along them. -/
theorem set_of_parse (ha : Path.parse? a = some p) (hne : p ≠ []) (c x : Value) :
    c.set a x = write x p c := by
  cases p with
  | nil => exact absurd rfl hne
  | cons s p => rw [set, ha]

theorem resolve_of_parse (ha : Path.parse? a = some p) (c : Value) : c.resolve a = c.at? p := by
  rw [resolve, ha, Option.bind_some]

/-- The frame of a write. Of two paths that part at two indices, or at two keys that are no
numerals, the second reads the same after a write along the first, whether the write passes or stops
half-way; and where it read nothing, it reads nothing or a null. -/
theorem resolve_set_of_apart (ha : Path.parse? a = some (common ++ s :: p))
    (hb : Path.parse? b = some (common ++ t :: q)) (h : s.Apart t) (c x : Value) :
    (∀ w, c.resolve b = some w → (c.set a x).tree.resolve b = some w) ∧
    (c.resolve b = none →
      (c.set a x).tree.resolve b = none ∨ (c.set a x).tree.resolve b = some null) := by
  have hdiverge : Path.Diverge (common ++ s :: p) (common ++ t :: q) := Path.diverge_append h
  rw [set_of_parse ha (List.append_ne_nil_of_right_ne_nil _ (List.cons_ne_nil _ _)),
    resolve_of_parse hb, resolve_of_parse hb]
  refine ⟨fun w hw => at?_write_of_diverge hdiverge hw, fun hnone => ?_⟩
  -- reading does not tell nothing from null, and so the two read alike
  have hsame := getD_at?_write_of_diverge (x := x) (v := c) hdiverge
  rw [hnone, Option.getD_none] at hsame
  cases hread : at? (common ++ t :: q) (write x (common ++ s :: p) c).tree with
  | none => exact .inl rfl
  | some w =>
    rw [hread, Option.getD_some] at hsame
    exact .inr (congrArg some hsame)

/-- A write that stops behind one key, and one that pads an array. -/
theorem resolve_set_of_apart_fields_items :
    ((object [("a", object [("y", bool true)])]).set "a.x[200000]" null).tree.resolve "a.y"
      = some (bool true) ∧
    ((object [("a", array [])]).set "a[2]" null).tree.resolve "a[0]" = some null := by
  have hx : Path.parse? "a.x[200000]" = some ([.key "a"] ++ .key "x" :: [.index 200000]) := by decide
  have hy : Path.parse? "a.y" = some ([.key "a"] ++ .key "y" :: []) := by decide
  have hkeys : (Segment.key "x").Apart (.key "y") := ⟨by decide, by decide, by decide⟩
  have htwo : Path.parse? "a[2]" = some ([.key "a"] ++ .index 2 :: []) := by decide
  have hzero : Path.parse? "a[0]" = some ([.key "a"] ++ .index 0 :: []) := by decide
  have hitems : (Segment.index 2).Apart (.index 0) := by
    change 2 ≠ 0
    decide
  refine ⟨(resolve_set_of_apart hx hy hkeys _ null).1 _ (by rfl), ?_⟩
  rcases (resolve_set_of_apart htwo hzero hitems (object [("a", array [])]) null).2 (by rfl) with h | h
  · cases h
  · exact h

/-- Writes along two paths that part at two indices, or at two keys that are no numerals, commute:
if they pass in one order, they pass in the other, and come to the same tree. -/
theorem set_set_of_apart (ha : Path.parse? a = some (common ++ s :: p))
    (hb : Path.parse? b = some (common ++ t :: q)) (h : s.Apart t)
    (hx : (c.set a x).fault = none) (hy : ((c.set a x).tree.set b y).fault = none) :
    (c.set b y).fault = none ∧ (c.set b y).tree.set a x = (c.set a x).tree.set b y := by
  have hsep : Path.Separate a b := Path.separate_of_parse ha hb (Path.diverge_append h)
  -- the first write neither stops the second nor lets it pass, and the other way round
  have hy' : (c.set b y).fault = none := (fault_set_iff hsep hx).1 hy
  have hx' : ((c.set b y).tree.set a x).fault = none := (fault_set_iff hsep.symm hy').2 hx
  refine ⟨hy', ?_⟩
  have htree := set_comm hsep hx hy'
  have hfault := hx'.trans hy.symm
  calc (c.set b y).tree.set a x
      = ⟨((c.set b y).tree.set a x).tree, ((c.set b y).tree.set a x).fault⟩ := rfl
    _ = ⟨((c.set a x).tree.set b y).tree, ((c.set a x).tree.set b y).fault⟩ := by rw [htree, hfault]

/-- Each write has to make an array of what stands there, and pads it. -/
theorem set_set_of_apart_items :
    ((bool true).set "a[1]" (bool true)).fault = none ∧
    (((bool true).set "a[1]" (bool true)).tree.set "a[0].b" null).fault = none ∧
    ((bool true).set "a[0].b" null).tree.set "a[1]" (bool true)
      = ((bool true).set "a[1]" (bool true)).tree.set "a[0].b" null := by
  have hone : Path.parse? "a[1]" = some ([.key "a"] ++ .index 1 :: []) := by decide
  have hzero : Path.parse? "a[0].b" = some ([.key "a"] ++ .index 0 :: [.key "b"]) := by decide
  have hitems : (Segment.index 1).Apart (.index 0) := by
    change 1 ≠ 0
    decide
  have hx : ((bool true).set "a[1]" (bool true)).fault = none := by rfl
  have hy : (((bool true).set "a[1]" (bool true)).tree.set "a[0].b" null).fault = none := by rfl
  exact ⟨hx, hy, (set_set_of_apart hone hzero hitems hx hy).2⟩

/-! ## Where a write stops -/

/-- A write that stops has met an index beyond the limit. It leaves the tree as one that puts the
items in front of the index back where they stood, or no items if no array stood there. -/
theorem write_of_fault {fault : WriteFault} (h : (write x p v).fault = some fault) :
    ∃ before s after i, p = before ++ s :: after ∧ fault = .indexTooLarge i ∧ maxWriteIndex < i ∧
      ((at? before v).getD null).placeOf s = .item i ∧
      write (array ((at? before v).getD null).items) before v = ⟨(write x p v).tree, none⟩ := by
  induction p generalizing v with
  | nil => cases h
  | cons s p ih =>
    by_cases hfits : v.Fits s
    · rw [write_of_fits hfits] at h ⊢
      obtain ⟨before, t, after, i, rfl, hfault, hlimit, hplace, hwrite⟩ := ih h
      -- what stands there is reached from here by one more segment
      refine ⟨s :: before, t, after, i, rfl, hfault, hlimit, ?_, ?_⟩
      · rw [getD_at?_cons, hplace]
      · rw [getD_at?_cons, write_of_fits hfits, hwrite]
    · obtain ⟨i, hplace, -, hlimit, hwrite⟩ := write_of_not_fits hfits
      rw [hwrite] at h ⊢
      exact ⟨[], s, p, i, rfl, (Option.some.inj h).symm, hlimit, hplace, rfl⟩

/-- The tree is what an empty array makes of `c` that is written where no array stands, in front of
an index of the path that no write makes. -/
def Clears (c : Value) (a : String) (i : Nat) (tree : Value) : Prop :=
  ∃ before after, Path.parse? a = some (before ++ .index i :: after) ∧ maxWriteIndex < i ∧
    (∀ items, c.at? before ≠ some (array items)) ∧ write (array []) before c = ⟨tree, none⟩

/-- Outside of arrays only an index names an item. -/
theorem eq_index_of_placeOf {i : Nat} (h : v.placeOf s = .item i) (hv : ∀ items, v ≠ array items) :
    s = .index i := by
  cases s with
  | index j => exact congrArg Segment.index (Place.item.inj h)
  | key name =>
    cases v with
    | array items => exact absurd rfl (hv items)
    | _ => cases h

/-- What is no array has no items. -/
theorem items_of_ne_array (hv : ∀ items, v ≠ array items) : v.items = [] := by
  cases v with
  | array items => exact absurd rfl (hv items)
  | _ => rfl

/-- A write that stops changes nothing, or it leaves an empty array in front of an index that is too
large. -/
theorem tree_set_of_fault {fault : WriteFault} (h : (c.set a x).fault = some fault) :
    (c.set a x).tree = c ∨ ∃ i, fault = .indexTooLarge i ∧ c.Clears a i (c.set a x).tree := by
  cases ha : Path.parse? a with
  | none =>
    rw [set, ha]
    exact .inl rfl
  | some p =>
    cases p with
    | nil =>
      rw [set, ha]
      exact .inl rfl
    | cons s p =>
      rw [set_of_parse ha (List.cons_ne_nil s p)] at h ⊢
      -- the way is cut where the index is refused; what has been made before is put back in
      obtain ⟨before, t, after, i, heq, hfault, hlimit, hplace, hwrite⟩ := write_of_fault h
      by_cases hitems : ∃ items, at? before c = some (array items)
      · -- the array is put back as it was
        obtain ⟨items, hread⟩ := hitems
        have hsame := write_at? hread
        rw [hread] at hwrite
        exact .inl (congrArg Written.tree (hwrite.symm.trans hsame))
      · have hnone : ∀ items, (at? before c).getD null ≠ array items := by
          intro items heq
          cases hread : at? before c with
          | none =>
            rw [hread] at heq
            cases heq
          | some u =>
            rw [hread] at heq
            exact hitems ⟨items, hread.trans (congrArg some heq)⟩
        rw [eq_index_of_placeOf hplace hnone] at heq
        rw [items_of_ne_array hnone] at hwrite
        exact .inr ⟨i, hfault, before, after, ha.trans (congrArg some heq), hlimit,
          fun items hread => hitems ⟨items, hread⟩, hwrite⟩

end Value

end Wavefront
