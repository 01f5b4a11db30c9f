/-
Markers: what interpolation makes of a text.

A text is cut into its pieces from left to right, and the cut never goes back. So a text that is put
together from literal texts and references comes apart at just these places, as long as no literal
text holds the two characters that open a marker. A literal text may well end with the first of them
or begin with the second: in front of a marker and behind one neither opens anything. What stands
for a reference is put in as it is. It is not cut again, whatever it looks like.
-/
import Wavefront.Proofs.Text.Blank
import Wavefront.Template

set_option autoImplicit false

namespace Wavefront

namespace Template

/-! ## References -/

/-- What can stand between the braces of a reference: something, but no brace. -/
structure IsReference (path : String) : Prop where
  nonempty : path ≠ ""
  braces : ∀ c ∈ path.toList, notBrace c = true

instance (path : String) : Decidable (IsReference path) :=
  decidable_of_iff (path ≠ "" ∧ path.toList.all notBrace = true)
    ⟨fun h => ⟨h.1, List.all_eq_true.1 h.2⟩, fun h => ⟨h.nonempty, List.all_eq_true.2 h.braces⟩⟩

/-- A class of characters without the two braces has no brace. -/
theorem notBrace_of_class {p : Char → Bool} {c : Char} (hopen : p '{' = false)
    (hclose : p '}' = false) (h : p c = true) : notBrace c = true := by
  rw [notBrace, Bool.and_eq_true, decide_eq_true_eq, decide_eq_true_eq]
  constructor
  · rintro rfl
    exact absurd h (by simp [hopen])
  · rintro rfl
    exact absurd h (by simp [hclose])

/-- Without braces inside, the next brace is the one that closes. -/
theorem takeWhile_notBrace {inside : List Char} (h : ∀ c ∈ inside, notBrace c = true)
    (rest : List Char) : (inside ++ '}' :: rest).takeWhile notBrace = inside := by
  rw [List.takeWhile_append_of_pos h, List.takeWhile_cons_of_neg (by decide), List.append_nil]

theorem dropWhile_notBrace {inside : List Char} (h : ∀ c ∈ inside, notBrace c = true)
    (rest : List Char) : (inside ++ '}' :: rest).dropWhile notBrace = '}' :: rest := by
  rw [List.dropWhile_append_of_pos h, List.dropWhile_cons_of_neg (by decide)]

/-- Only blanks are dropped from what is captured. -/
theorem trim_captured (inside : List Char) : Text.trim (captured inside) = Text.trim inside := by
  rw [captured]
  split
  · next c hnil hlast =>
    -- there are only blanks, of which the last one is kept
    have hc : Text.isBlank c = true := Text.trim_eq_nil_iff.1 hnil c (List.mem_of_getLast? hlast)
    rw [hnil, Text.trim_eq_nil_iff]
    simpa using hc
  · exact Text.trim_trim inside

/-- What a reference holds is resolved like what stands between its braces. -/
theorem resolve_captured (ctx : Value) (path : String) :
    ctx.resolve (String.ofList (captured path.toList)) = ctx.resolve path := by
  rw [Value.resolve, Value.resolve, Path.parse?, Path.parse?, String.toList_ofList, trim_captured]

/-! ## Pieces -/

/-- Any character but an opening dollar sign is a piece by itself. -/
theorem pieces_cons {c : Char} {rest : List Char} (h : c = '$' → rest.head? ≠ some '{') :
    pieces (c :: rest) = .literal c :: pieces rest := by
  rw [pieces]
  rintro tail rfl rfl
  exact h rfl rfl

/-- A reference behind a dollar sign is a marker, and what follows is cut by itself. -/
theorem pieces_marker {inside : List Char} (hne : inside ≠ [])
    (h : ∀ c ∈ inside, notBrace c = true) (rest : List Char) :
    pieces ('$' :: '{' :: (inside ++ '}' :: rest)) = .marker (captured inside) :: pieces rest := by
  rw [pieces]
  split
  · next rest' heq =>
    rw [dropWhile_notBrace h] at heq
    obtain rfl : rest = rest' := List.tail_eq_of_cons_eq heq
    rw [takeWhile_notBrace h, if_neg hne]
  · next hnone => exact absurd (dropWhile_notBrace h rest) (hnone rest)

/-- The text has no opening of a marker in it. -/
def IsLiteral (text : String) : Prop := ¬['$', '{'] <:+: text.toList

instance (text : String) : Decidable (IsLiteral text) :=
  inferInstanceAs (Decidable (¬['$', '{'] <:+: text.toList))

/-- A text without an opening brace is literal. -/
theorem isLiteral_of_not_mem {text : String} (h : '{' ∉ text.toList) : IsLiteral text := by
  intro hopening
  apply h
  apply hopening.subset
  simp

/-- A literal text comes apart into its characters, unless what follows completes an opening. -/
theorem pieces_append {literal rest : List Char} (h : ¬['$', '{'] <:+: literal)
    (hrest : rest.head? ≠ some '{') :
    pieces (literal ++ rest) = literal.map .literal ++ pieces rest := by
  induction literal with
  | nil => rfl
  | cons c literal ih =>
    have hliteral : ¬['$', '{'] <:+: literal := fun hopening =>
      h (hopening.trans (List.suffix_cons c literal).isInfix)
    have hopen : c = '$' → (literal ++ rest).head? ≠ some '{' := by
      rintro rfl hhead
      cases literal with
      | nil => exact hrest hhead
      | cons d literal =>
        obtain rfl := Option.some.inj hhead
        exact h ⟨[], literal, rfl⟩
    rw [List.cons_append, pieces_cons hopen, ih hliteral]
    rfl

/-! ## Texts with markers -/

/-- Literal pieces stand for themselves. -/
theorem flatMap_expand_literal (ctx : Value) (cs : List Char) :
    (cs.map Piece.literal).flatMap (Piece.expand ctx) = cs := by
  rw [List.flatMap_map]
  exact List.flatMap_singleton' cs

/-- A text without markers is left as it is. -/
theorem interpolate_of_isLiteral {text : String} (h : IsLiteral text) (ctx : Value) :
    interpolate ctx text = text := by
  have hpieces : pieces (text.toList ++ []) = text.toList.map .literal ++ pieces [] :=
    pieces_append h (by simp)
  rw [List.append_nil, pieces, List.append_nil] at hpieces
  rw [interpolate, hpieces, flatMap_expand_literal, String.ofList_toList]

/-- A literal text stands for itself and a marker behind it for the text of its value, whatever
follows. -/
theorem interpolate_marker {first path : String} (hfirst : IsLiteral first)
    (hpath : IsReference path) (ctx : Value) (rest : String) :
    interpolate ctx (first ++ "$\x7b" ++ path ++ "\x7d" ++ rest)
      = first ++ Value.display (ctx.resolve path) ++ interpolate ctx rest := by
  have htext : (first ++ "$\x7b" ++ path ++ "\x7d" ++ rest).toList
      = first.toList ++ '$' :: '{' :: (path.toList ++ '}' :: rest.toList) := by
    simp only [String.toList_append, List.append_assoc]
    rfl
  have hne : path.toList ≠ [] := by simpa using hpath.nonempty
  rw [interpolate, htext, pieces_append hfirst (by simp), pieces_marker hne hpath.braces,
    List.flatMap_append, List.flatMap_cons, flatMap_expand_literal, Piece.expand, resolve_captured]
  apply String.toList_injective
  simp [interpolate]

/-- A literal text, and behind it references in markers, each with the literal text that follows. -/
def withMarkers : String → List (String × String) → String
  | first, [] => first
  | first, (path, literal) :: rest => first ++ "$\x7b" ++ path ++ "\x7d" ++ withMarkers literal rest

/-- The same with the values in place of the references. -/
def withValues (ctx : Value) : String → List (String × String) → String
  | first, [] => first
  | first, (path, literal) :: rest =>
      first ++ Value.display (ctx.resolve path) ++ withValues ctx literal rest

/-- **Interpolation is one pass over the text.** A text that is put together from literal texts and
references comes to the same literal texts with the values between them. The values are put in as
they are, also where they look like references. -/
theorem interpolate_withMarkers (ctx : Value) {first : String} {marks : List (String × String)}
    (hfirst : IsLiteral first) (hmarks : ∀ mark ∈ marks, IsReference mark.1 ∧ IsLiteral mark.2) :
    interpolate ctx (withMarkers first marks) = withValues ctx first marks := by
  induction marks generalizing first with
  | nil => exact interpolate_of_isLiteral hfirst ctx
  | cons mark marks ih =>
    obtain ⟨path, literal⟩ := mark
    obtain ⟨⟨hpath, hliteral⟩, hrest⟩ := List.forall_mem_cons.1 hmarks
    rw [withMarkers, withValues, interpolate_marker hfirst hpath, ih hliteral hrest]

/-- A dollar sign in front of a marker, braces behind one, blanks inside and a value that looks like
a reference. -/
theorem interpolate_withMarkers_nested :
    IsLiteral "\x7b$" ∧ (∀ mark ∈ [(" a ", "\x7d\x7b"), ("b\u3000", "$")],
        IsReference mark.1 ∧ IsLiteral mark.2) ∧
      interpolate (.object [("a", .string "$\x7bb\x7d"), ("b", .bool true)])
        (withMarkers "\x7b$" [(" a ", "\x7d\x7b"), ("b\u3000", "$")])
          = "\x7b$$\x7bb\x7d\x7d\x7btrue$" := by
  have hfirst : IsLiteral "\x7b$" := by decide
  have hmarks : ∀ mark ∈ [(" a ", "\x7d\x7b"), ("b\u3000", "$")],
      IsReference mark.1 ∧ IsLiteral mark.2 := by decide
  refine ⟨hfirst, hmarks, ?_⟩
  rw [interpolate_withMarkers _ hfirst hmarks]
  decide

end Template

end Wavefront
