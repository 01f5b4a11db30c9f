/-
Spliced texts: conditions with data between their quotes.

A marker is replaced before the condition is scanned, so what was put in is read like the rest of
the condition. Between quotes it is the inside of a quoted text as long as it spells one, and then
the condition still has the tokens that it seems to have. Data that does not spell a text ends the
quotes by itself, and what stands behind becomes part of the condition. Both directions are shown by
comparing the text at its last quotes, since the literal text on the right has none.
-/
import Mathlib
import Wavefront.Proofs.Condition.Grammar
import Wavefront.Proofs.Condition.Scan
import Wavefront.Proofs.Template.Marker

set_option autoImplicit false

namespace Wavefront

namespace Condition

/-- The test whether the text at a path is `t`, with a marker between quotes. -/
def quotedTest (path t : String) : String := "'$\x7b" ++ path ++ "\x7d' == '" ++ t ++ "'"

/-- Two texts between quotes, compared. -/
def quotedTexts (s t : String) : String := "'" ++ s ++ "' == '" ++ t ++ "'"

/-- Nothing in the text means anything to the scanner or to interpolation. -/
def IsPlainText (t : String) : Prop := ∀ c ∈ t.toList, c ∉ ['\'', '"', '\\', '$', '{', '}']

instance (t : String) : Decidable (IsPlainText t) := List.decidableBAll _ _

section Splice

variable {ctx : Value} {path s t u : String}

/-- The characters of two quoted texts with an equality between them. -/
theorem toList_quotedTexts (s t : String) :
    (quotedTexts s t).toList
      = '\'' :: (s.toList ++ '\'' :: ' ' :: ("==".toList ++ ' ' :: '\'' :: (t.toList ++ ['\'']))) := by
  simp only [quotedTexts, String.toList_append, List.append_assoc]
  rfl

/-! ## What is scanned -/

/-- A condition in quotes has no blanks around it. -/
theorem trim_quotedTest (path t : String) :
    Text.trim (quotedTest path t).toList = (quotedTest path t).toList := by
  have htext : (quotedTest path t).toList
      = '\'' :: ("$\x7b".toList ++ path.toList ++ "\x7d' == '".toList ++ t.toList ++ ['\'']) := by
    simp only [quotedTest, String.toList_append, List.append_assoc]
    rfl
  rw [htext]
  apply Text.IsTrimmed.trim_eq
  exact Text.isTrimmed_between (by decide) (by decide) _

/-- The text at the path is put in between the quotes as it is. -/
theorem expanded_quotedTest (hpath : Template.IsReference path)
    (hs : ctx.resolve path = some (.string s)) (ht : IsPlainText t) :
    expanded ctx (quotedTest path t) = quotedTexts s t := by
  have hfirst : Template.IsLiteral "'" := by decide
  have hrest : Template.IsLiteral ("' == '" ++ t ++ "'") := by
    apply Template.isLiteral_of_not_mem
    intro hmem
    rw [String.toList_append, String.toList_append, List.mem_append, List.mem_append] at hmem
    rcases hmem with (hmem | hmem) | hmem
    · exact absurd hmem (by decide)
    · exact ht _ hmem (by decide)
    · exact absurd hmem (by decide)
  -- the condition as literal text, one marker and literal text
  have hmarker : quotedTest path t
      = "'" ++ "$\x7b" ++ path ++ "\x7d" ++ ("' == '" ++ t ++ "'") := by
    apply String.toList_injective
    simp only [quotedTest, String.toList_append, List.append_assoc]
    rfl
  rw [expanded, trim_quotedTest, String.ofList_toList, hmarker,
    Template.interpolate_marker hfirst hpath, Template.interpolate_of_isLiteral hrest, hs]
  apply String.toList_injective
  simp [quotedTexts, Value.display]

/-- Between quotes, spelled texts are the texts that they spell. -/
theorem scan_quotedTexts (hs : Spells '\'' s.toList u.toList) (ht : IsPlainText t) :
    scan (quotedTexts s t) = .ok [.text u, .compare .equal, .text t] := by
  have hplain : Spells '\'' t.toList t.toList := by
    apply spells_self
    intro c hc
    have hnot := ht c hc
    simp only [List.mem_cons, not_or] at hnot
    exact ⟨hnot.1, hnot.2.2.1⟩
  have hblank : Text.isBlank '\'' = false := by decide
  have hequal : Token.operator? (.compare .equal) = some "==" := rfl
  rw [scan, toList_quotedTexts,
    scanFrom_token hblank (scanToken_text hs (.inl rfl) _ _ _), scanFrom_blank (by decide),
    scanFrom_operator hequal, scanFrom_token hblank (scanToken_text hplain (.inl rfl) _ _ _), scanFrom,
    String.ofList_toList, String.ofList_toList]
  rfl

/-- No quote is a blank. -/
theorem quote_ne_of_isBlank {c : Char} (h : Text.isBlank c = true) : c ≠ '\'' := by
  rintro rfl
  exact absurd h (by decide)

/-- If a quote with blanks behind it ends like `'`, then it is one and there are no blanks. -/
theorem eq_nil_of_getLast? {quote : Char} {behind : List Char}
    (hbehind : ∀ c ∈ behind, Text.isBlank c = true)
    (h : (quote :: behind).getLast? = some '\'') : quote = '\'' ∧ behind = [] := by
  obtain rfl | ⟨front, c, rfl⟩ := List.eq_nil_or_concat' behind
  · exact ⟨Option.some.inj h, rfl⟩
  · rw [← List.cons_append, List.getLast?_concat] at h
    exact absurd (Option.some.inj h) (quote_ne_of_isBlank (hbehind c (by simp)))

/-- The text in front of the comparison is told by where the last quotes stand. -/
theorem eq_of_last_quotes {s t a b front front' : List Char} (ht : '\'' ∉ t) (hb : '\'' ∉ b)
    (hfront : ∀ c ∈ front, Text.isBlank c = true) (hfront' : ∀ c ∈ front', Text.isBlank c = true)
    (h : (s ++ '\'' :: " == ".toList) ++ '\'' :: t
      = (a ++ '\'' :: (front ++ "==".toList ++ front')) ++ '\'' :: b) : s = a := by
  have hbetween : '\'' ∉ front ++ "==".toList ++ front' := by
    intro hmem
    rw [List.mem_append, List.mem_append] at hmem
    rcases hmem with (hmem | hmem) | hmem
    · exact quote_ne_of_isBlank (hfront _ hmem) rfl
    · exact absurd hmem (by decide)
    · exact quote_ne_of_isBlank (hfront' _ hmem) rfl
  have hfronts := (Text.eq_of_append_cons_eq ht hb h).1
  exact (Text.eq_of_append_cons_eq (by decide) hbetween hfronts).1

/-- If the tokens are two texts and the comparison between them, and the right one is `t`, then what
stands for the left one spells it. -/
theorem spells_of_scan_quotedTexts (ht : IsPlainText t)
    (h : scan (quotedTexts s t) = .ok [.text u, .compare .equal, .text t]) :
    Spells '\'' s.toList u.toList := by
  have hquote : '\'' ∉ t.toList := fun hmem => ht _ hmem (by decide)
  rw [scan, toList_quotedTexts] at h
  -- the tokens one by one, each with the blanks in front of it
  obtain ⟨token, rest, tokens, hleft, hmiddle, heq⟩ := exists_of_scanFrom (by decide) h
  obtain ⟨rfl, rfl⟩ := List.cons.inj heq
  obtain ⟨-, a, htext, hspells⟩ := exists_of_scanToken_text hleft
  obtain ⟨front, c, _, rest', rfl, hfront, -, hequal, hlast⟩ := exists_of_scanFrom_cons hmiddle
  obtain ⟨front', quote, _, behind, rfl, hfront', -, hright, hnothing⟩ :=
    exists_of_scanFrom_cons hlast
  obtain ⟨-, b, rfl, hspells'⟩ := exists_of_scanToken_text hright
  rw [eq_of_scanToken_equal hequal] at htext
  have hlast : (quote :: behind).getLast? = some '\'' := by
    have hends := congrArg List.getLast? htext
    simpa [List.getLast?_cons] using hends.symm
  obtain ⟨rfl, rfl⟩ := eq_nil_of_getLast? (scanFrom_eq_ok_nil_iff.1 hnothing) hlast
  -- the quotes at the end go, and the texts are cut at the ones that are the last then
  have hcuts : ((s.toList ++ '\'' :: " == ".toList) ++ '\'' :: t.toList) ++ ['\'']
      = ((a ++ '\'' :: (front ++ "==".toList ++ front')) ++ '\'' :: b) ++ ['\''] := by
    simpa using htext
  have hb : '\'' ∉ b := by
    intro hmem
    exact (hspells'.mem hmem).elim (by decide) hquote
  rw [eq_of_last_quotes hquote hb hfront hfront' (List.append_cancel_right hcuts)]
  exact hspells

/-! ## What it comes to -/

/-- A text that spells another one compares as the one that it spells. -/
theorem evaluate_quotedTest (hpath : Template.IsReference path)
    (hs : ctx.resolve path = some (.string s)) (ht : IsPlainText t)
    (hspells : Spells '\'' s.toList u.toList) :
    evaluate ctx (quotedTest path t) = .ok (decide (u = t)) := by
  have hwhole : Template.wholePath? (Text.trim (quotedTest path t).toList) = none := by
    rw [trim_quotedTest, quotedTest]
    simp only [String.toList_append, List.append_assoc]
    rfl
  have hscan : scan (expanded ctx (quotedTest path t)) = .ok [.text u, .compare .equal, .text t] := by
    rw [expanded_quotedTest hpath hs ht, scan_quotedTexts hspells ht]
  have hequal : Comparison.equal.holds (.string u) (.string t) = decide (u = t) := by
    simp [Comparison.holds, Value.looselyEqual]
  rw [evaluate_ok_iff hwhole]
  refine ⟨_, ⟨_, hscan, .ofConjunction (.ofUnary (.ofComparison
    (.compare .equal (.text u) (.text t))))⟩, ?_⟩
  rw [Value.truthy, hequal]

/-- **What is put in between quotes is read as a quoted text.** The condition keeps its three
tokens, two texts and the comparison, exactly if what was put in spells a text, and then that text
is compared. A text without quotes and backslashes spells itself. -/
theorem quotedTest_keeps_structure (hpath : Template.IsReference path)
    (hs : ctx.resolve path = some (.string s)) (ht : IsPlainText t) :
    (∀ u : String, scan (expanded ctx (quotedTest path t))
        = .ok [.text u, .compare .equal, .text t] ↔ Spells '\'' s.toList u.toList) ∧
      (∀ u : String, Spells '\'' s.toList u.toList →
        evaluate ctx (quotedTest path t) = .ok (decide (u = t))) ∧
      ('\'' ∉ s.toList → '\\' ∉ s.toList →
        evaluate ctx (quotedTest path t) = .ok (decide (s = t))) := by
  refine ⟨fun u => ?_, fun u hspells => evaluate_quotedTest hpath hs ht hspells, fun hquote hescape => ?_⟩
  · rw [expanded_quotedTest hpath hs ht]
    exact ⟨spells_of_scan_quotedTexts ht, fun hspells => scan_quotedTexts hspells ht⟩
  · apply evaluate_quotedTest hpath hs ht
    apply spells_self
    intro c hc
    constructor
    · rintro rfl
      exact hquote hc
    · rintro rfl
      exact hescape hc

end Splice

/-- A backslash that was put in is read like one in the condition. -/
theorem quotedTest_keeps_structure_escaped :
    Template.IsReference "p" ∧
      Value.resolve (.object [("p", .string "A\\da")]) "p" = some (.string "A\\da") ∧
      IsPlainText "Ada" ∧ Spells '\'' "A\\da".toList "Ada".toList ∧
      evaluate (.object [("p", .string "A\\da")]) (quotedTest "p" "Ada") = .ok true := by
  have hpath : Template.IsReference "p" := by decide
  have hvalue : Value.resolve (.object [("p", .string "A\\da")]) "p" = some (.string "A\\da") := by
    rfl
  have htext : IsPlainText "Ada" := by decide
  have hspells : Spells '\'' "A\\da".toList "Ada".toList :=
    .plain (by decide) (by decide) (.escaped (.plain (by decide) (by decide) .nil))
  have hkeeps := (quotedTest_keeps_structure hpath hvalue htext).2.1 "Ada" hspells
  exact ⟨hpath, hvalue, htext, hspells, hkeeps⟩

/-- A text with quotes of its own makes another condition of it, one that holds. -/
theorem quotedTest_broken_out :
    Template.IsReference "p" ∧
      Value.resolve (.object [("p", .string "a' || 'a")]) "p" = some (.string "a' || 'a") ∧
      IsPlainText "t" ∧
      evaluate (.object [("p", .string "a' || 'a")]) (quotedTest "p" "t")
        ≠ .ok (decide ("a' || 'a" = "t")) := by
  have hholds : evaluate (.object [("p", .string "a' || 'a")]) (quotedTest "p" "t") = .ok true := by
    cbv
  refine ⟨by decide, by rfl, by decide, ?_⟩
  rw [hholds]
  decide

end Condition

end Wavefront
