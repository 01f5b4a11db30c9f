/-
Testing a value: the condition that is a template, and the condition that is a name.

A template asks for the value at its path and for nothing else, and what leads nowhere does not
count as true. A name asks for the same value, but where there is none it may still ask for a
length. That is the only difference between the two, and it can only be seen where the length is not
zero: neither null nor zero counts as true.
-/
import Mathlib
import Wavefront.Proofs.Binary64.Nearest
import Wavefront.Proofs.Condition.Grammar
import Wavefront.Proofs.Condition.Scan
import Wavefront.Proofs.Template.Marker

set_option autoImplicit false

namespace Wavefront

/-! ## The numbers that do not count as true -/

namespace Binary64

/-- A natural number above zero is rounded to a word above zero, at most that of infinity. -/
theorem roundRatio_one_bounds {n : Nat} (h : n ≠ 0) :
    0 < roundRatio n 1 ∧ roundRatio n 1 ≤ infinityWord := by
  have hlog : -1 ≤ floorLog2 n 1 := by
    have hone : Nat.log2 1 = 0 := by decide
    simp only [floorLog2, hone]
    split <;> omega
  rw [roundRatio, if_neg h]
  refine ⟨?_, Nat.min_le_left _ _⟩
  -- the exponent is far above the least one, so the word is not that of zero
  have hexponent : 0 < (max (floorLog2 n 1 - 52) leastExponent - leastExponent).toNat := by
    simp only [leastExponent]
    omega
  have hweight : 0 < exponentWeight := by decide
  have hinfinity : 0 < infinityWord := by decide
  have hword := Nat.mul_pos hexponent hweight
  rw [Nat.lt_min]
  exact ⟨hinfinity, Nat.lt_of_lt_of_le hword (Nat.le_add_right _ _)⟩

/-- Only zero is rounded to zero. -/
theorem isZero_ofInt_iff (n : Int) : (ofInt n).isZero = true ↔ n = 0 := by
  rw [isZero, decide_eq_true_eq, ofInt]
  constructor
  · intro hzero
    by_contra hn
    obtain ⟨hpos, hle⟩ := roundRatio_one_bounds (n := n.natAbs) (by omega)
    rw [magnitude_ofMagnitude hle] at hzero
    omega
  · rintro rfl
    decide

end Binary64

/-- A length counts as true unless it is zero. -/
theorem Value.truthy_ofNat {n : Nat} (h : n < UInt64.size) :
    (Value.ofNat n).truthy = true ↔ n ≠ 0 := by
  have hword : (UInt64.ofNat n).toNat = n := UInt64.toNat_ofNat_of_lt' h
  rw [Value.ofNat, Value.ofWord, Value.truthy, Number.ofWord, Number.toBinary64, hword,
    Bool.not_eq_true', ← Bool.not_eq_true, Binary64.isZero_ofInt_iff]
  omega

namespace Condition

/-! ## Templates -/

open Template in
/-- A template as a condition asks whether the value at its path counts as true. -/
theorem evaluate_template {path : String} (h : IsReference path) (ctx : Value) :
    evaluate ctx ("\x7b\x7b" ++ path ++ "\x7d\x7d") = .ok ((ctx.resolve path).any Value.truthy) := by
  have htext : ("\x7b\x7b" ++ path ++ "\x7d\x7d").toList
      = '{' :: '{' :: (path.toList ++ ['}', '}']) := by
    simp only [String.toList_append, List.append_assoc]
    rfl
  have htrim : Text.trim ('{' :: '{' :: (path.toList ++ ['}', '}']))
      = '{' :: '{' :: (path.toList ++ ['}', '}']) := by
    apply Text.IsTrimmed.trim_eq
    have hbetween := Text.isTrimmed_between (c := '{') (d := '}') (by decide) (by decide)
      ('{' :: (path.toList ++ ['}']))
    simpa using hbetween
  have hne : path.toList ≠ [] := by simpa using h.nonempty
  -- the first closing brace behind the path is one of the two at the end
  have hwhole : wholePath? ('{' :: '{' :: (path.toList ++ ['}', '}']))
      = some (captured path.toList) := by
    rw [wholePath?, takeWhile_notBrace h.braces,
      if_pos ⟨dropWhile_notBrace h.braces ['}'], hne⟩]
  simp only [evaluate, htext, htrim, hwhole, resolve_captured]
  rfl

/-! ## Names -/

section Name

variable {ctx : Value} {text name : String}

/-- No brace goes on with a name. -/
theorem notBrace_of_inName {c : Char} (h : inName c = true) : Template.notBrace c = true :=
  Template.notBrace_of_class (by decide) (by decide) h

/-- No brace is a blank. -/
theorem notBrace_of_isBlank {c : Char} (h : Text.isBlank c = true) : Template.notBrace c = true :=
  Template.notBrace_of_class (by decide) (by decide) h

/-- A name goes on with names from its first character. -/
theorem inName_of_mem_scan (h : scan text = .ok [.name name]) {c : Char} (hc : c ∈ name.toList) :
    inName c = true := by
  obtain ⟨-, -, -, -, -, first, rest, hname, hfirst, hrest⟩ := exists_of_scan_name h
  rw [hname] at hc
  rcases List.mem_cons.1 hc with rfl | hc
  · exact inName_of_beginsName hfirst
  · exact hrest c hc

/-- A text that is one name can stand in a template. -/
theorem isReference_of_scan_name (h : scan text = .ok [.name name]) : Template.IsReference text := by
  obtain ⟨front, behind, htext, hfront, hbehind, c, rest, hname, -, -⟩ := exists_of_scan_name h
  constructor
  · rintro rfl
    simp [hname] at htext
  · intro d hd
    rw [htext, List.mem_append, List.mem_append] at hd
    rcases hd with (hd | hd) | hd
    · exact notBrace_of_isBlank (hfront d hd)
    · exact notBrace_of_inName (inName_of_mem_scan h hd)
    · exact notBrace_of_isBlank (hbehind d hd)

/-- Trimming leaves the name. -/
theorem trim_of_scan_name (h : scan text = .ok [.name name]) : Text.trim text.toList = name.toList := by
  obtain ⟨front, behind, htext, hfront, hbehind, c, rest, hname, -, -⟩ := exists_of_scan_name h
  have htrimmed : Text.IsTrimmed name.toList := by
    apply Text.isTrimmed_of_forall
    intro d hd
    exact isBlank_of_inName (inName_of_mem_scan h hd)
  rw [htext, Text.trim_append_append hfront htrimmed (by simp [hname]) hbehind]

/-- The name leads where the whole text leads. -/
theorem resolve_of_scan_name (h : scan text = .ok [.name name]) :
    ctx.resolve name = ctx.resolve text := by
  have htrim := trim_of_scan_name h
  rw [Value.resolve, Value.resolve, Path.parse?, Path.parse?, htrim, ← htrim, Text.trim_trim]

/-- A name as a condition asks whether what it stands for counts as true. -/
theorem evaluate_name (h : scan text = .ok [.name name]) :
    evaluate ctx text = .ok (lookup ctx name).truthy := by
  obtain ⟨-, -, -, -, -, c, rest, hname, hc, hrest⟩ := exists_of_scan_name h
  have hbrace : ∀ d ∈ name.toList, d ≠ '{' := by
    rintro d hd rfl
    exact absurd (notBrace_of_inName (inName_of_mem_scan h hd)) (by decide)
  -- no name has a brace in it, so the condition is neither a template nor holds a marker
  have hwhole : Template.wholePath? (Text.trim text.toList) = none := by
    rw [trim_of_scan_name h, hname]
    unfold Template.wholePath?
    split
    · next rest' heq =>
      exact absurd rfl (hbrace '{' (by simp [hname, heq]))
    · rfl
  have hliteral : Template.IsLiteral name :=
    Template.isLiteral_of_not_mem fun hmem => hbrace '{' hmem rfl
  have hexpanded : expanded ctx text = name := by
    rw [expanded, trim_of_scan_name h, String.ofList_toList,
      Template.interpolate_of_isLiteral hliteral]
  have hscan : scan (expanded ctx text) = .ok [.name name] := by
    rw [hexpanded, scan_name hname hc hrest]
  exact (evaluate_ok_iff hwhole).2 ⟨_, ⟨_, hscan,
    .ofConjunction (.ofUnary (.ofComparison (.ofOperand (.name name))))⟩, rfl⟩

end Name

/-! ## Lengths -/

/-- The path leads to something of a length: items of an array, or characters of a string. -/
inductive HasLength (ctx : Value) (path : String) : Nat → Prop where
  | array {items : List Value} (h : ctx.resolve path = some (.array items)) :
      HasLength ctx path items.length
  | string {s : String} (h : ctx.resolve path = some (.string s)) : HasLength ctx path s.length

/-- The name leads to no value of its own, and it asks for a length that there is. -/
def AsksLength (ctx : Value) (name : String) (n : Nat) : Prop :=
  ctx.resolve name = none ∧ ∃ path, name = path ++ lengthSuffix ∧ HasLength ctx path n

section Length

variable {ctx : Value} {path name : String} {n : Nat}

/-- What has a length is given it. -/
theorem HasLength.lengthAt_eq (h : HasLength ctx path n) : lengthAt ctx path = some (.ofNat n) := by
  cases h with
  | array h => rw [lengthAt, h]
  | string h => rw [lengthAt, h]

/-- Only what has a length is given one. -/
theorem exists_hasLength {v : Value} (h : lengthAt ctx path = some v) :
    ∃ n, HasLength ctx path n ∧ v = .ofNat n := by
  unfold lengthAt at h
  split at h
  · next items hitems => exact ⟨items.length, .array hitems, (Option.some.inj h).symm⟩
  · next s hs => exact ⟨s.length, .string hs, (Option.some.inj h).symm⟩
  · contradiction

theorem endsWith_iff {s ending : String} :
    s.endsWith ending = true ↔ ending.toList <:+ s.toList := by
  rw [← String.endsWith_toSlice, String.Slice.endsWith_string_iff, String.copy_toSlice]

/-- A name with the ending asks for the length of what stands in front of the ending. -/
theorem lengthOrNull_append (ctx : Value) (path : String) :
    lengthOrNull ctx (path ++ lengthSuffix) = (lengthAt ctx path).getD .null := by
  have hends : (path ++ lengthSuffix).endsWith lengthSuffix = true := by
    rw [endsWith_iff, String.toList_append]
    exact List.suffix_append _ _
  have hfront : (path ++ lengthSuffix).toList.take
      ((path ++ lengthSuffix).length - lengthSuffix.length) = path.toList := by
    rw [String.length_append, Nat.add_sub_cancel, String.toList_append]
    exact List.take_left' String.length_toList
  rw [lengthOrNull, if_pos hends, hfront, String.ofList_toList]

/-- What stands for a name without a value counts as true only where a length is asked for. -/
theorem exists_asksLength (hnone : ctx.resolve name = none)
    (h : (lengthOrNull ctx name).truthy = true) :
    ∃ n, AsksLength ctx name n ∧ (Value.ofNat n).truthy = true := by
  by_cases hends : name.endsWith lengthSuffix = true
  · obtain ⟨front, hfront⟩ := endsWith_iff.1 hends
    obtain rfl : name = String.ofList front ++ lengthSuffix := by
      apply String.toList_injective
      rw [String.toList_append, String.toList_ofList, hfront]
    rw [lengthOrNull_append] at h
    cases hlength : lengthAt ctx (String.ofList front) with
    | none => simp [hlength, Value.truthy] at h
    | some v =>
      obtain ⟨n, hn, rfl⟩ := exists_hasLength hlength
      rw [hlength, Option.getD_some] at h
      exact ⟨n, ⟨hnone, _, rfl, hn⟩, h⟩
  · rw [lengthOrNull, if_neg hends] at h
    simp [Value.truthy] at h

/-- Outside of the words for constants, a name stands for the value that it leads to. -/
theorem lookup_eq (h : name ∉ ["true", "false", "null", "undefined"]) (ctx : Value) :
    lookup ctx name = (ctx.resolve name).getD (lengthOrNull ctx name) := by
  simp only [List.mem_cons, List.mem_nil_iff, or_false, not_or] at h
  obtain ⟨htrue, hfalse, hnull, hundefined⟩ := h
  rw [lookup, if_neg htrue, if_neg hfalse, if_neg (not_or.2 ⟨hnull, hundefined⟩)]

end Length

/-- **A template and a name test the same value, lengths aside.** If the name does not ask for the
length of a non-empty array or string, the two conditions come to the same. If it does, the bare
name holds and the template does not. -/
theorem template_tests_like_name {text name : String} (h : scan text = .ok [.name name])
    (hname : name ∉ ["true", "false", "null", "undefined"]) (ctx : Value) :
    ((∀ n, AsksLength ctx name n → n = 0) →
      evaluate ctx ("\x7b\x7b" ++ text ++ "\x7d\x7d") = evaluate ctx text) ∧
    ∀ n, AsksLength ctx name n → n ≠ 0 → n < UInt64.size →
      evaluate ctx ("\x7b\x7b" ++ text ++ "\x7d\x7d") = .ok false ∧ evaluate ctx text = .ok true := by
  rw [evaluate_template (isReference_of_scan_name h), evaluate_name h, lookup_eq hname,
    ← resolve_of_scan_name h]
  -- a value at the path settles both conditions; only where there is none can they differ
  refine ⟨fun hlengths => ?_, ?_⟩
  · cases hvalue : ctx.resolve name with
    | some v => rfl
    | none =>
      have hfalse : (lengthOrNull ctx name).truthy = false := by
        by_contra htruthy
        rw [Bool.not_eq_false] at htruthy
        -- what counts as true without a value is a length, and all lengths here are zero
        obtain ⟨n, hn, htrue⟩ := exists_asksLength hvalue htruthy
        rw [hlengths n hn] at htrue
        exact absurd htrue (by decide)
      rw [Option.getD_none, hfalse, Option.any_none]
  · rintro n ⟨hnone, path, rfl, hlength⟩ hn hlt
    have htrue : (Value.ofNat n).truthy = true := (Value.truthy_ofNat hlt).2 hn
    rw [hnone, Option.getD_none, lengthOrNull_append, hlength.lengthAt_eq, Option.getD_some, htrue]
    exact ⟨rfl, rfl⟩

/-- The length of an array with one item, asked for with blanks around the name. -/
theorem template_tests_like_name_items :
    scan " xs.length " = .ok [.name "xs.length"] ∧
      "xs.length" ∉ ["true", "false", "null", "undefined"] ∧
      AsksLength (.object [("xs", .array [.null])]) "xs.length" 1 ∧
      evaluate (.object [("xs", .array [.null])]) "\x7b\x7b xs.length \x7d\x7d" = .ok false ∧
      evaluate (.object [("xs", .array [.null])]) " xs.length " = .ok true := by
  have hscan : scan " xs.length " = .ok [.name "xs.length"] := by cbv
  have hname : "xs.length" ∉ ["true", "false", "null", "undefined"] := by decide
  have hitems : Value.resolve (.object [("xs", .array [.null])]) "xs" = some (.array [.null]) := rfl
  have hlength : AsksLength (.object [("xs", .array [.null])]) "xs.length" 1 :=
    ⟨by rfl, "xs", by decide, .array hitems⟩
  have htests := (template_tests_like_name hscan hname (.object [("xs", .array [.null])])).2 1
    hlength (by decide) (by decide)
  exact ⟨hscan, hname, hlength, htests⟩

/-- A template does not ask for the length of an array. -/
theorem template_misses_length :
    scan "xs.length" = .ok [.name "xs.length"] ∧
      "xs.length" ∉ ["true", "false", "null", "undefined"] ∧
      evaluate (.object [("xs", .array [.null])]) "\x7b\x7bxs.length\x7d\x7d"
        ≠ evaluate (.object [("xs", .array [.null])]) "xs.length" := by
  have hscan : scan "xs.length" = .ok [.name "xs.length"] := by cbv
  have htemplate : evaluate (.object [("xs", .array [.null])]) "\x7b\x7bxs.length\x7d\x7d"
      = .ok false := by cbv
  have hname : evaluate (.object [("xs", .array [.null])]) "xs.length" = .ok true := by cbv
  refine ⟨hscan, by decide, ?_⟩
  rw [htemplate, hname]
  decide

end Condition

end Wavefront
