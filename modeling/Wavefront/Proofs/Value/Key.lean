/-
Plain keys: texts that are paths of one key each, and what writes there leave alone.

A write at a plain key of an object changes one field. So whatever is written at some keys, two
contexts that differed at most there still do; and what begins with another key is read in both
alike and may be written in both alike. That is the relation `Value.SameBut`.
-/
import Mathlib.Data.List.TakeWhile
import Wavefront.Proofs.Value.Template

set_option autoImplicit false

namespace Wavefront

/-! ## Reading plain keys -/

namespace Path

/-- The text has no point and no opening bracket in it and no blanks around it. -/
structure IsPlain (name : String) : Prop where
  point : '.' ∉ name.toList
  bracket : '[' ∉ name.toList
  trimmed : Text.trim name.toList = name.toList

/-- If the text is a path at all, it begins with a key that is none of these. -/
def StartsOutside (keys : List String) (path : String) : Prop :=
  ∀ p, parse? path = some p → ∃ key rest, p = .key key :: rest ∧ key ∉ keys

/-- If the text is a path at all, it begins with one of these keys. -/
def StartsInside (keys : List String) (path : String) : Prop :=
  ∀ p, parse? path = some p → ∃ key rest, p = .key key :: rest ∧ key ∈ keys

/-- A path starts inside the keys if its first segment is one of them. -/
theorem startsInside_of_parse {keys : List String} {path : String} (key : String)
    (rest : List Segment) (hparse : parse? path = some (.key key :: rest)) (hkey : key ∈ keys) :
    StartsInside keys path := by
  intro p hp
  obtain rfl := Option.some.inj (hparse.symm.trans hp)
  exact ⟨key, rest, rfl, hkey⟩

/-- A path starts outside the keys if its first segment is another one. -/
theorem startsOutside_of_parse {keys : List String} {path : String} (key : String)
    (rest : List Segment) (hparse : parse? path = some (.key key :: rest)) (hkey : key ∉ keys) :
    StartsOutside keys path := by
  intro p hp
  obtain rfl := Option.some.inj (hparse.symm.trans hp)
  exact ⟨key, rest, rfl, hkey⟩

/-- A text without a point is one part. -/
theorem parts_of_not_mem {cs : List Char} (h : '.' ∉ cs) : parts cs = [cs] := by
  induction cs with
  | nil => rfl
  | cons c cs ih =>
    obtain ⟨hc, hcs⟩ := not_or.1 (mt List.mem_cons.2 h)
    rw [parts, ih hcs]
    exact fun hpoint => hc hpoint.symm

/-- A part without brackets is a key. -/
theorem part?_of_not_mem {cs : List Char} (hne : cs ≠ []) (h : '[' ∉ cs) :
    part? cs = some [.key (String.ofList cs)] := by
  have hall : ∀ c ∈ cs, (c ≠ '[' : Bool) = true := fun c hc =>
    decide_eq_true fun heq => h (heq ▸ hc)
  have htake : cs.takeWhile (· ≠ '[') = cs := List.takeWhile_eq_self_iff.2 hall
  have hdrop : cs.dropWhile (· ≠ '[') = [] := List.dropWhile_eq_nil_iff.2 hall
  rw [part?, if_neg hne]
  simp only [htake, hdrop, brackets, if_neg hne]
  rfl

/-- A plain text is the path of one key. -/
theorem IsPlain.parse? {name : String} (h : IsPlain name) (hne : name ≠ "") :
    parse? name = some [.key name] := by
  have hchars : name.toList ≠ [] := fun hnil => hne (String.toList_eq_nil_iff.1 hnil)
  rw [Path.parse?, h.trimmed, segments?, if_neg hchars, parts_of_not_mem h.point]
  simp only [List.mapM_cons, List.mapM_nil, part?_of_not_mem hchars h.bracket, String.ofList_toList]
  rfl

/-- Two keys that differ are separate paths, unless one of them is a numeral. -/
theorem separate_of_key {a b : String} (ha : Path.parse? a = some [.key a])
    (hb : Path.parse? b = some [.key b]) (hne : a ≠ b) (hindex : Text.index? a.toList = none)
    (hindex' : Text.index? b.toList = none) : Separate a b :=
  separate_of_parse ha hb (.inr ⟨hne, hindex, hindex'⟩)

end Path

/-! ## Contexts that differ at some keys -/

namespace Value

/-- The values are objects, and they differ at most at these keys. -/
inductive SameBut (keys : List String) : Value → Value → Prop
  | intro {fields others : List (String × Value)}
      (h : ∀ key, key ∉ keys → Fields.get? key fields = Fields.get? key others) :
      SameBut keys (.object fields) (.object others)

/-- In an object, a write on a path that begins with a key changes the field of that key. -/
theorem write_key_object (x : Value) (key : String) (rest : List Segment)
    (fields : List (String × Value)) :
    write x (.key key :: rest) (.object fields)
      = ⟨.object (Fields.insert key (write x rest ((Fields.get? key fields).getD null)).tree fields),
          (write x rest ((Fields.get? key fields).getD null)).fault⟩ := rfl

namespace SameBut

variable {keys : List String} {c d : Value} {path : String}

theorem refl (keys : List String) (fields : List (String × Value)) :
    SameBut keys (.object fields) (.object fields) := .intro fun _ _ => rfl

/-- A write at one of the keys makes no difference. -/
theorem set_key {a : String} (ha : Path.parse? a = some [.key a]) (hmem : a ∈ keys)
    (h : SameBut keys c d) (x : Value) : SameBut keys c (d.set a x).tree := by
  cases h with
  | @intro fields others h =>
    have hset : (object others).set a x = ⟨.object (Fields.insert a x others), none⟩ := by
      rw [set, ha]
      rfl
    rw [hset]
    refine .intro fun key hkey => ?_
    have hne : a ≠ key := fun heq => hkey (heq ▸ hmem)
    rw [Fields.get?_insert_of_ne hne, h key hkey]

/-- A write that begins with one of the keys makes no difference. -/
theorem set_inside (hpath : Path.StartsInside keys path) (h : SameBut keys c d) {x : Value}
    (hfault : (d.set path x).fault = none) : SameBut keys c (d.set path x).tree := by
  obtain ⟨p, hp, hset⟩ := exists_write_of_fault_set hfault
  obtain ⟨key, rest, rfl, hkey⟩ := hpath p hp
  cases h with
  | @intro fields others h =>
    rw [hset, write_key_object]
    refine .intro fun k hk => ?_
    have hne : key ≠ k := fun heq => hk (heq ▸ hkey)
    rw [Fields.get?_insert_of_ne hne, h k hk]

/-- What begins with another key may be written in both alike. -/
theorem set (hpath : Path.StartsOutside keys path) (h : SameBut keys c d) {x : Value}
    (hfault : (c.set path x).fault = none) :
    (d.set path x).fault = none ∧ SameBut keys (c.set path x).tree (d.set path x).tree := by
  obtain ⟨p, hp, hset⟩ := exists_write_of_fault_set hfault
  obtain ⟨key, rest, rfl, hkey⟩ := hpath p hp
  rw [hset] at hfault
  rw [hset, hset]
  cases h with
  | @intro fields others h =>
    -- both have the same value at the first key, or none, and the rest of the path is written there
    have hsame := h key hkey
    rw [write_key_object] at hfault
    rw [write_key_object, write_key_object, ← hsame]
    refine ⟨hfault, .intro fun k hk => ?_⟩
    rw [Fields.get?_insert, Fields.get?_insert, h k hk]

/-- What begins with another key is read in both alike, also in a scope. -/
theorem resolve_bind (hpath : Path.StartsOutside keys path) (h : SameBut keys c d) (name : String)
    (x : Value) : (c.bind name x).resolve path = (d.bind name x).resolve path := by
  cases hp : Path.parse? path with
  | none => rw [resolve, resolve, hp, Option.bind_none, Option.bind_none]
  | some p =>
    obtain ⟨key, rest, rfl, hkey⟩ := hpath p hp
    cases h with
    | @intro fields others h =>
      -- the name that is bound may be the first key itself, and then both read the same value
      have hchild : ((object fields).bind name x).child? (.key key)
          = ((object others).bind name x).child? (.key key) := by
        show Fields.get? key (Fields.insert name x fields)
          = Fields.get? key (Fields.insert name x others)
        rw [Fields.get?_insert, Fields.get?_insert, h key hkey]
      rw [resolve, resolve, hp, Option.bind_some, Option.bind_some, at?, at?, hchild]

/-- A template that mentions nothing at the keys comes to the same in both. -/
theorem substitute_bind {input : Value} (hinput : ∀ path ∈ input.mentions, Path.StartsOutside keys path)
    (h : SameBut keys c d) (name : String) (x : Value) :
    (c.bind name x).substitute input = (d.bind name x).substitute input :=
  substitute_congr fun path hpath => by rw [h.resolve_bind (hinput path hpath)]

end SameBut

end Value

end Wavefront
