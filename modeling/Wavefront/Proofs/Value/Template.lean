/-
Templates and writes: what a substitution depends on.

A substitution reads the paths that its template mentions and nothing else, and it tells a value
that is not there from null nowhere. So a write on a path that diverges from all of them does not
change what comes out, also in a scope that has a name bound.
-/
import Wavefront.Proofs.Value.Write
import Wavefront.Template

set_option autoImplicit false

namespace Wavefront

namespace Template

/-- The path of a marker. -/
def Piece.path? : Piece → Option String
  | .literal _ => none
  | .marker path => some (String.ofList path)

/-- The paths that a text mentions: that of a whole template, or those of its markers. -/
def paths (text : String) : List String :=
  match path? text with
  | some path => [path]
  | none => (pieces text.toList).filterMap Piece.path?

end Template

namespace Value

mutual

/-- The paths that the templates of a value mention. -/
def mentions : Value → List String
  | string text => Template.paths text
  | array items => mentionsItems items
  | object fields => mentionsFields fields
  | null | bool _ | number _ => []

/-- The paths that the items mention. -/
def mentionsItems : List Value → List String
  | [] => []
  | item :: items => item.mentions ++ mentionsItems items

/-- The paths that the values of the fields mention; keys mention none. -/
def mentionsFields : List (String × Value) → List String
  | [] => []
  | (_, v) :: fields => v.mentions ++ mentionsFields fields

end

/-- At each of the paths the same is read, if what is not there is read as null. -/
def ReadsSame (paths : List String) (c d : Value) : Prop :=
  ∀ path ∈ paths, (c.resolve path).getD null = (d.resolve path).getD null

theorem ReadsSame.mono {paths others : List String} {c d : Value} (h : ReadsSame paths c d)
    (hsub : others ⊆ paths) : ReadsSame others c d := fun path hpath => h path (hsub hpath)

/-- No value is shown as null is. -/
theorem display_getD (v : Option Value) : display (some (v.getD null)) = display v := by
  cases v with
  | none => rfl
  | some v => rfl

end Value

open Value in
/-- A string expands the same where its paths are read the same. -/
theorem Template.expand_congr {c d : Value} {text : String} (h : ReadsSame (paths text) c d) :
    expand c text = expand d text := by
  rw [expand, expand]
  rw [paths] at h
  cases hpath : path? text with
  | some path =>
    rw [hpath] at h
    exact h path (List.mem_singleton_self _)
  | none =>
    rw [hpath] at h
    have hpieces : (pieces text.toList).flatMap (Piece.expand c)
        = (pieces text.toList).flatMap (Piece.expand d) := by
      refine List.flatMap_congr fun piece hpiece => ?_
      cases piece with
      | literal _ => rfl
      | marker path =>
        have hread := h (String.ofList path) (List.mem_filterMap.2 ⟨_, hpiece, rfl⟩)
        rw [Piece.expand, Piece.expand, ← display_getD, hread, display_getD]
    simp only [interpolate, hpieces]

namespace Value

section Congr

variable {c d : Value}

mutual

/-- A substitution depends on what is read at the paths that are mentioned. -/
theorem substitute_congr : ∀ {v : Value}, ReadsSame v.mentions c d → substitute c v = substitute d v
  | .string text, h => by
    rw [mentions] at h
    rw [substitute, substitute, Template.expand_congr h]
  | .array items, h => by
    rw [mentions] at h
    rw [substitute, substitute, substituteItems_congr h]
  | .object fields, h => by
    rw [mentions] at h
    rw [substitute, substitute, substituteFields_congr h]
  | .null, _ => rfl
  | .bool _, _ => rfl
  | .number _, _ => rfl

/-- Items are substituted the same where their paths are read the same. -/
theorem substituteItems_congr : ∀ {items : List Value}, ReadsSame (mentionsItems items) c d →
    substituteItems c items = substituteItems d items
  | [], _ => rfl
  | item :: items, h => by
    rw [mentionsItems] at h
    rw [substituteItems, substituteItems, substitute_congr (h.mono (List.subset_append_left _ _)),
      substituteItems_congr (h.mono (List.subset_append_right _ _))]

/-- Fields are substituted the same where their paths are read the same. -/
theorem substituteFields_congr : ∀ {fields : List (String × Value)},
    ReadsSame (mentionsFields fields) c d → substituteFields c fields = substituteFields d fields
  | [], _ => rfl
  | (key, v) :: fields, h => by
    rw [mentionsFields] at h
    rw [substituteFields, substituteFields, substitute_congr (h.mono (List.subset_append_left _ _)),
      substituteFields_congr (h.mono (List.subset_append_right _ _))]

end

end Congr

/-! ## Scopes -/

/-- In a scope a name stands for what it was bound to, and any other key for the field of the
context. -/
theorem inner_bind (c : Value) (name : String) (value : Value) (key : String) :
    (c.bind name value).inner (.key key)
      = if name = key then value else (Fields.get? key c.fields).getD null := by
  rw [bind, inner, child?, Fields.get?_insert]
  split <;> rfl

/-- A key that names a field names its own. -/
theorem eq_of_placeOf_key {v : Value} {key field : String}
    (h : v.placeOf (.key key) = .field field) : field = key := by
  cases v with
  | array items =>
    simp only [placeOf] at h
    split at h
    · cases h
    · exact (Place.field.inj h).symm
  | _ => exact (Place.field.inj h).symm

/-- A write is not read in a scope either, on a path that diverges from its own. -/
theorem getD_at?_bind_write {p q : List Segment} {c x : Value} (h : Path.Diverge p q)
    (hx : (write x p c).fault = none) (name : String) (value : Value) :
    (at? q ((write x p c).tree.bind name value)).getD null
      = (at? q (c.bind name value)).getD null := by
  cases p with
  | nil => exact h.elim
  | cons s p =>
    cases q with
    | nil => exact h.elim
    | cons t q =>
      rw [getD_at?_cons, getD_at?_cons]
      cases t with
      | index j => rfl
      | key key =>
        rw [inner_bind, inner_bind]
        split
        · rfl
        obtain ⟨hfits, -⟩ := fault_write_cons_iff.1 hx
        rw [write_of_fits hfits]
        simp only
        rcases h with ⟨rfl, h⟩ | h
        · have hinner := inner_eq (.key key) c
          cases hplace : c.placeOf (.key key) with
          | item i =>
            -- an array stands there before and after, and an array has no fields
            cases c with
            | array items =>
              rw [put, hplace]
              rfl
            | _ => cases hplace
          | field field =>
            obtain rfl := eq_of_placeOf_key hplace
            rw [hplace] at hinner
            rw [put, hplace]
            simp only [fields, object?, Option.getD_some] at hinner ⊢
            rw [Fields.get?_insert_self, Option.getD_some, getD_at?_write_of_diverge h, hinner]
        · cases s with
          | index i => exact h.elim
          | key other =>
            obtain ⟨hne, hother, _⟩ := h
            rw [put, placeOf_key_of_index?_eq_none hother]
            simp only [fields, object?, Option.getD_some]
            rw [Fields.get?_insert_of_ne hne]

/-- A write is not read in a scope either, on a path that diverges from its own. -/
theorem getD_resolve_bind_set {a b : String} {c x : Value} (hsep : Path.Separate a b)
    (h : (c.set a x).fault = none) (name : String) (value : Value) :
    (((c.set a x).tree.bind name value).resolve b).getD null
      = ((c.bind name value).resolve b).getD null := by
  obtain ⟨p, hp, hset⟩ := exists_write_of_fault_set h
  rw [hset] at h ⊢
  cases hq : Path.parse? b with
  | none => rw [resolve, resolve, hq, Option.bind_none, Option.bind_none]
  | some q =>
    rw [resolve, resolve, hq, Option.bind_some, Option.bind_some,
      getD_at?_bind_write (hsep p q hp hq) h]

end Value

end Wavefront
