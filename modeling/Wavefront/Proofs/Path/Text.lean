/-
The text of a path: every path has one spelling without liberties, and that one reads back.

Reading splits the text at its points first and looks for brackets in each part then. So the text is
taken apart in the same order here. `Part` is what a part of a text can be, a key with the indices
behind it; `readParts` reads one part after the other. Writing goes by segments instead and finds
out about the end of a part only at the next key. That is why the induction on the segments carries
the part that is still open in front of them.
-/
import Wavefront.Path
import Wavefront.Proofs.Text.Numeral

set_option autoImplicit false

namespace Wavefront

namespace Path

/-! ## Brackets -/

/-- The text of some indices. -/
def indicesText (is : List Nat) : List Char := is.flatMap fun i => (indexText i).toList

theorem toList_indexText (i : Nat) : (indexText i).toList = '[' :: ((toString i).toList ++ [']']) := by
  rw [indexText, String.toList_append, String.toList_append]
  rfl

/-- What is inside a bracket is trimmed and read as an index. -/
theorem brackets_inside {inside : List Char} (h : ']' ∉ inside) (opened cs : List Char) :
    brackets (inside ++ ']' :: cs) (some opened)
      = (Text.index? (Text.trim (opened.reverse ++ inside))).bind fun i =>
          (brackets cs none).map fun rest => .index i :: rest := by
  induction inside generalizing opened with
  | nil =>
    rw [List.nil_append, brackets, if_pos rfl, List.append_nil]
    simp only [Option.bind_eq_bind, Option.pure_def, Option.map_eq_bind, Function.comp_def]
  | cons c inside ih =>
    obtain ⟨hc, hinside⟩ := not_or.1 (mt List.mem_cons.2 h)
    rw [List.cons_append, brackets, if_neg (Ne.symm hc), ih hinside, List.reverse_cons,
      List.append_assoc, List.singleton_append]

/-- The text of an index is read as that index. -/
theorem brackets_indexText {i : Nat} (hi : i < Text.indexLimit) (cs : List Char) :
    brackets ((indexText i).toList ++ cs) none
      = (brackets cs none).map fun rest => .index i :: rest := by
  have hclosed : ']' ∉ (toString i).toList := by
    intro hmem
    exact absurd (isDigit_of_mem_toString hmem) (by decide)
  have htrim : Text.trim (toString i).toList = (toString i).toList := by
    apply Text.IsTrimmed.trim_eq
    apply Text.isTrimmed_of_forall
    intro c hc
    exact Text.isBlank_of_mem_toString hc
  rw [toList_indexText, List.cons_append, brackets, List.append_assoc, List.singleton_append,
    brackets_inside hclosed, List.reverse_nil, List.nil_append, htrim, Text.index?_toString hi,
    Option.bind_some]

/-- Indices that fit a word are read back from their brackets. -/
theorem brackets_indicesText {is : List Nat} (h : ∀ i ∈ is, i < Text.indexLimit) :
    brackets (indicesText is) none = some (is.map .index) := by
  induction is with
  | nil => rfl
  | cons i is ih =>
    obtain ⟨hi, his⟩ := List.forall_mem_cons.1 h
    rw [indicesText, List.flatMap_cons, brackets_indexText hi, ← indicesText, ih his]
    rfl

/-- Brackets hold indices, each below the limit, and only the empty text holds none. -/
theorem exists_of_brackets {cs : List Char} {opened : Option (List Char)} {segments : List Segment}
    (h : brackets cs opened = some segments) :
    ∃ is : List Nat, segments = is.map .index ∧ (∀ i ∈ is, i < Text.indexLimit) ∧
      (is = [] → cs = [] ∧ opened = none) := by
  -- a bracket that is open reads one character at a time, so the first index is known only when it
  -- closes
  fun_induction brackets cs opened generalizing segments with
  | case1 =>
    obtain rfl := Option.some.inj h
    exact ⟨[], rfl, by simp, fun _ => ⟨rfl, rfl⟩⟩
  | case2 => contradiction
  | case3 cs ih =>
    obtain ⟨is, rfl, hbound, hnil⟩ := ih h
    exact ⟨is, rfl, hbound, fun his => absurd (hnil his).2 (Option.some_ne_none _)⟩
  | case4 => contradiction
  | case5 cs inside ih =>
    obtain ⟨i, hi, h⟩ := Option.bind_eq_some_iff.1 h
    obtain ⟨rest, hrest, h⟩ := Option.bind_eq_some_iff.1 h
    obtain rfl := Option.some.inj h
    obtain ⟨is, rfl, hbound, -⟩ := ih hrest
    refine ⟨i :: is, rfl, ?_, by simp⟩
    intro j hj
    rcases List.mem_cons.1 hj with rfl | hj
    · exact Text.lt_of_index? hi
    · exact hbound j hj
  | case6 c cs inside hc ih =>
    obtain ⟨is, rfl, hbound, hnil⟩ := ih h
    exact ⟨is, rfl, hbound, fun his => absurd (hnil his).2 (Option.some_ne_none _)⟩

/-! ## Parts -/

/-- The segments of a part: the key in front, if there is one, and the indices behind it. -/
def partSegments (head : List Char) (is : List Nat) : List Segment :=
  (if head = [] then [] else [.key (String.ofList head)]) ++ is.map .index

/-- A key with the texts of indices behind it is read as that key and those indices. -/
theorem part?_append_indicesText {head : List Char} {is : List Nat} (hhead : '[' ∉ head)
    (his : ∀ i ∈ is, i < Text.indexLimit) (hne : head ≠ [] ∨ is ≠ []) :
    part? (head ++ indicesText is) = some (partSegments head is) := by
  have hpos : ∀ c ∈ head, (c ≠ '[' : Bool) = true := by
    intro c hc
    exact decide_eq_true fun heq => hhead (heq ▸ hc)
  have htake : (indicesText is).takeWhile (· ≠ '[') = [] := by
    cases is with
    | nil => rfl
    | cons i is => rw [indicesText, List.flatMap_cons, toList_indexText]; rfl
  have hdrop : (indicesText is).dropWhile (· ≠ '[') = indicesText is := by
    cases is with
    | nil => rfl
    | cons i is => rw [indicesText, List.flatMap_cons, toList_indexText]; rfl
  -- an empty part is none, which is what having a head or an index rules out
  have hpart : head ++ indicesText is ≠ [] := by
    intro hnil
    obtain ⟨hnil, htext⟩ := List.append_eq_nil_iff.1 hnil
    apply hne.resolve_left (not_not.2 hnil)
    cases is with
    | nil => rfl
    | cons i is => simp [indicesText, toList_indexText] at htext
  rw [part?, if_neg hpart]
  simp only [List.takeWhile_append_of_pos hpos, List.dropWhile_append_of_pos hpos, htake, hdrop,
    List.append_nil, brackets_indicesText his, Option.bind_eq_bind, Option.bind_some,
    Option.pure_def, partSegments]

/-- What a part is read as: its key is all of it in front of the first bracket. -/
theorem exists_of_part? {part : List Char} {segments : List Segment}
    (h : part? part = some segments) :
    ∃ (head : List Char) (is : List Nat), segments = partSegments head is ∧ head <+: part ∧
      (is = [] → head = part) ∧ '[' ∉ head ∧ (∀ i ∈ is, i < Text.indexLimit) ∧
      (head ≠ [] ∨ is ≠ []) := by
  unfold part? at h
  by_cases hpart : part = []
  · rw [if_pos hpart] at h
    contradiction
  rw [if_neg hpart] at h
  obtain ⟨indices, hindices, h⟩ := Option.bind_eq_some_iff.1 h
  obtain rfl := Option.some.inj h
  obtain ⟨is, rfl, hbound, hnil⟩ := exists_of_brackets hindices
  have hsplit := List.takeWhile_append_dropWhile (p := (· ≠ '[')) (l := part)
  -- without indices the whole part is its key
  have hwhole : is = [] → part.takeWhile (· ≠ '[') = part := by
    intro his
    rw [(hnil his).1, List.append_nil] at hsplit
    exact hsplit
  refine ⟨part.takeWhile (· ≠ '['), is, rfl, List.takeWhile_prefix _, hwhole, ?_, hbound, ?_⟩
  · intro hmem
    exact absurd (List.mem_takeWhile_imp hmem) (by decide)
  · by_cases his : is = []
    · left
      rw [hwhole his]
      exact hpart
    · exact .inr his

/-- The segments of parts, one part after the other. -/
def readParts (parts : List (List Char)) : Option (List Segment) :=
  (parts.mapM part?).map List.flatten

/-- The parts are read one by one, and each has to be one. -/
theorem readParts_cons (part : List Char) (rest : List (List Char)) :
    readParts (part :: rest)
      = (part? part).bind fun segments => (readParts rest).map fun behind => segments ++ behind := by
  simp only [readParts, List.mapM_cons, Option.bind_eq_bind, Option.pure_def]
  cases part? part with
  | none => rfl
  | some segments => cases rest.mapM part? <;> rfl

theorem segments?_eq {cs : List Char} (h : cs ≠ []) : segments? cs = readParts (parts cs) := by
  rw [segments?, if_neg h]
  rfl

/-- The parts of a text are its pieces between points. -/
theorem parts_eq_splitOn (cs : List Char) : parts cs = cs.splitOn '.' := by
  induction cs with
  | nil => rfl
  | cons c cs ih =>
    rw [List.splitOn_cons_eq_if_modifyHead, ← ih]
    by_cases hc : c = '.'
    · subst hc
      rfl
    · rw [if_neg (by simpa using hc), parts]
      · cases hparts : parts cs with
        | nil => exact absurd (ih.symm.trans hparts) (List.splitOn_ne_nil _ _)
        | cons part rest => rfl
      · exact fun heq => hc heq

/-- No part has a point in it. -/
theorem not_mem_of_mem_parts {cs part : List Char} (h : part ∈ parts cs) : '.' ∉ part := by
  fun_induction parts cs generalizing part with
  | case1 => simp_all
  | case2 cs ih =>
    rcases List.mem_cons.1 h with rfl | h
    · simp
    · exact ih h
  | case3 c cs hc hparts ih =>
    rw [List.mem_singleton.1 h, List.mem_singleton]
    exact fun heq => hc heq.symm
  | case4 c cs hc first rest hparts ih =>
    rw [hparts] at ih
    rcases List.mem_cons.1 h with rfl | h
    · intro hmem
      rcases List.mem_cons.1 hmem with heq | hmem
      · exact hc heq.symm
      · exact ih List.mem_cons_self hmem
    · exact ih (List.mem_cons_of_mem _ h)

/-- The first part begins the text. -/
theorem prefix_of_parts {cs part : List Char} {rest : List (List Char)}
    (h : parts cs = part :: rest) : part <+: cs := by
  rw [parts_eq_splitOn] at h
  have hcs : ['.'].intercalate (part :: rest) = cs := h ▸ List.intercalate_splitOn '.'
  rw [← hcs]
  cases rest with
  | nil => simp only [List.intercalate_singleton, List.prefix_rfl]
  | cons second rest =>
    rw [List.intercalate_cons_cons, List.append_assoc]
    exact List.prefix_append _ _

/-- The last part stands at the end of the text. -/
theorem suffix_intercalate {sep part : List Char} {front : List (List Char)} :
    part <:+ sep.intercalate (front ++ [part]) := by
  induction front with
  | nil => simp only [List.nil_append, List.intercalate_singleton, List.suffix_rfl]
  | cons first front ih =>
    cases front with
    | nil =>
      rw [List.singleton_append, List.intercalate_cons_cons, List.intercalate_singleton]
      exact List.suffix_append _ _
    | cons second front =>
      rw [List.cons_append, List.cons_append, List.intercalate_cons_cons]
      exact ih.trans (List.suffix_append _ _)

/-- The last part ends the text. -/
theorem suffix_of_parts {cs part : List Char} {front : List (List Char)}
    (h : parts cs = front ++ [part]) : part <:+ cs := by
  rw [parts_eq_splitOn] at h
  have hcs : ['.'].intercalate (front ++ [part]) = cs := h ▸ List.intercalate_splitOn '.'
  rw [← hcs]
  exact suffix_intercalate

/-! ## What can be written -/

/-- A text that can stand as a key in a path. -/
structure IsKey (name : String) : Prop where
  nonempty : name ≠ ""
  point : '.' ∉ name.toList
  bracket : '[' ∉ name.toList

/-- Segments that have a text: their keys can stand in a path and their indices are words. At its
ends a path is trimmed, so a key that stands first does not begin with a blank and a key that stands
last does not end with one. -/
structure Writable (segments : List Segment) : Prop where
  keys : ∀ name, .key name ∈ segments → IsKey name
  indices : ∀ i, .index i ∈ segments → i < Text.indexLimit
  first : ∀ name, segments.head? = some (.key name) →
    ∀ c, name.toList.head? = some c → Text.isBlank c = false
  last : ∀ name, segments.getLast? = some (.key name) →
    ∀ c, name.toList.getLast? = some c → Text.isBlank c = false

/-! ## What is written reads back -/

theorem indicesText_append_singleton (is : List Nat) (i : Nat) :
    indicesText (is ++ [i]) = indicesText is ++ (indexText i).toList := by
  simp [indicesText]

/-- There is no point in a part. -/
theorem not_mem_append_indicesText {head : List Char} (h : '.' ∉ head) (is : List Nat) :
    '.' ∉ head ++ indicesText is := by
  intro hmem
  have hindices := (List.mem_append.1 hmem).resolve_left h
  obtain ⟨i, -, hi⟩ := List.mem_flatMap.1 hindices
  rw [toList_indexText] at hi
  simp only [List.mem_cons, List.mem_append, List.mem_nil_iff, or_false] at hi
  rcases hi with heq | hdigit | heq
  · exact absurd heq (by decide)
  · exact absurd (isDigit_of_mem_toString hdigit) (by decide)
  · exact absurd heq (by decide)

/-- Segments behind an open part. The induction is on the segments: an index goes on with the part,
a key closes it and is the next one. -/
theorem readParts_append_textBehind {segments : List Segment}
    (hkeys : ∀ name, .key name ∈ segments → IsKey name)
    (hindices : ∀ i, .index i ∈ segments → i < Text.indexLimit) {head : List Char} {is : List Nat}
    (hpoint : '.' ∉ head) (hhead : '[' ∉ head) (his : ∀ i ∈ is, i < Text.indexLimit)
    (hne : head ≠ [] ∨ is ≠ []) :
    readParts (parts (head ++ indicesText is ++ (textBehind segments).toList))
      = some (partSegments head is ++ segments) := by
  -- what has been read of the open part is general: an index goes on with it, and a key ends it
  induction segments generalizing head is with
  | nil =>
    rw [textBehind, String.toList_empty, List.append_nil, List.append_nil, parts_eq_splitOn,
      List.splitOn_eq_singleton (not_mem_append_indicesText hpoint is), readParts_cons,
      part?_append_indicesText hhead his hne]
    exact congrArg some (List.append_nil _)
  | cons segment segments ih =>
    have hkeys' : ∀ name, .key name ∈ segments → IsKey name := fun name hmem =>
      hkeys name (List.mem_cons_of_mem _ hmem)
    have hindices' : ∀ i, .index i ∈ segments → i < Text.indexLimit := fun i hmem =>
      hindices i (List.mem_cons_of_mem _ hmem)
    cases segment with
    | index i =>
      have hbound : ∀ j ∈ is ++ [i], j < Text.indexLimit := by
        intro j hj
        rcases List.mem_append.1 hj with hj | hj
        · exact his j hj
        · rw [List.mem_singleton.1 hj]
          exact hindices i List.mem_cons_self
      have hne' : head ≠ [] ∨ is ++ [i] ≠ [] := .inr (by simp)
      rw [textBehind, String.toList_append, ← List.append_assoc, List.append_assoc head,
        ← indicesText_append_singleton, ih hkeys' hindices' hpoint hhead hbound hne']
      simp [partSegments]
    | key name =>
      have hkey := hkeys name List.mem_cons_self
      have hname : name.toList ≠ [] ∨ ([] : List Nat) ≠ [] := by
        left
        simpa using hkey.nonempty
      have hempty : ∀ j ∈ ([] : List Nat), j < Text.indexLimit := by simp
      have hrest := ih hkeys' hindices' hkey.point hkey.bracket hempty hname
      have htext : (textBehind (.key name :: segments)).toList
          = '.' :: (name.toList ++ indicesText [] ++ (textBehind segments).toList) := by
        simp [textBehind, indicesText]
      rw [htext, parts_eq_splitOn,
        List.splitOn_append_cons_self_of_not_mem (not_mem_append_indicesText hpoint is),
        ← parts_eq_splitOn, readParts_cons, part?_append_indicesText hhead his hne, hrest]
      simp [partSegments, hkey.nonempty]

/-- The text of a segment by itself. -/
def segmentText : Segment → String
  | .key name => name
  | .index i => indexText i

theorem text_cons (segment : Segment) (rest : List Segment) :
    text (segment :: rest) = segmentText segment ++ textBehind rest := by
  cases segment <;> rfl

/-- What is written behind is written segment by segment. -/
theorem textBehind_append (front behind : List Segment) :
    textBehind (front ++ behind) = textBehind front ++ textBehind behind := by
  induction front with
  | nil => rw [List.nil_append, textBehind, String.empty_append]
  | cons segment front ih =>
    cases segment <;> simp only [List.cons_append, textBehind, ih, String.append_assoc]

/-- The text of a path ends with its last segment. -/
theorem exists_text_append_singleton (front : List Segment) (segment : Segment) :
    ∃ cs, (text (front ++ [segment])).toList = cs ++ (segmentText segment).toList := by
  cases front with
  | nil => exact ⟨[], by simp [text_cons, textBehind]⟩
  | cons first front =>
    rw [List.cons_append, text_cons, textBehind_append]
    cases segment with
    | key name =>
      exact ⟨(segmentText first ++ textBehind front ++ ".").toList,
        by simp [textBehind, segmentText]⟩
    | index i =>
      exact ⟨(segmentText first ++ textBehind front).toList, by simp [textBehind, segmentText]⟩

/-- A segment whose key is not empty has a text. -/
theorem segmentText_ne_empty {segment : Segment} (h : ∀ name, segment = .key name → name ≠ "") :
    (segmentText segment).toList ≠ [] := by
  cases segment with
  | key name => simpa [segmentText] using h name rfl
  | index i => simp [segmentText, toList_indexText]

/-- Nothing of the text is trimmed. -/
theorem Writable.isTrimmed {segments : List Segment} (h : Writable segments) :
    Text.IsTrimmed (text segments).toList := by
  have hne : ∀ segment ∈ segments, (segmentText segment).toList ≠ [] := fun segment hmem =>
    segmentText_ne_empty fun name heq => (h.keys name (heq ▸ hmem)).nonempty
  -- the two ends of the text: blanks there could only be those of a first or a last key, as a
  -- bracket is none
  constructor
  · intro c hc
    cases segments with
    | nil => simp [text] at hc
    | cons segment rest =>
      rw [text_cons, String.toList_append,
        List.head?_append_of_ne_nil _ (hne segment List.mem_cons_self)] at hc
      cases segment with
      | key name => exact h.first name rfl c hc
      | index i =>
        rw [segmentText, toList_indexText] at hc
        obtain rfl := Option.some.inj hc
        decide
  · intro c hc
    obtain rfl | ⟨front, segment, rfl⟩ := List.eq_nil_or_concat' segments
    · simp [text] at hc
    · obtain ⟨cs, hcs⟩ := exists_text_append_singleton front segment
      rw [hcs, List.getLast?_append_of_ne_nil _ (hne segment (by simp))] at hc
      cases segment with
      | key name => exact h.last name (by simp) c hc
      | index i =>
        rw [segmentText, toList_indexText, ← List.cons_append, List.getLast?_concat] at hc
        obtain rfl := Option.some.inj hc
        decide

/-- Segments that can be written read back from their text. -/
theorem Writable.parse?_text {segments : List Segment} (h : Writable segments) :
    parse? (text segments) = some segments := by
  rw [parse?, h.isTrimmed.trim_eq]
  cases segments with
  | nil => rfl
  | cons segment rest =>
    have hkeys : ∀ name, .key name ∈ rest → IsKey name := fun name hmem =>
      h.keys name (List.mem_cons_of_mem _ hmem)
    have hindices : ∀ i, .index i ∈ rest → i < Text.indexLimit := fun i hmem =>
      h.indices i (List.mem_cons_of_mem _ hmem)
    cases segment with
    | key name =>
      have hkey := h.keys name List.mem_cons_self
      have hname : name.toList ≠ [] := by simpa using hkey.nonempty
      have hread : readParts (parts (name.toList ++ indicesText [] ++ (textBehind rest).toList))
          = some (partSegments name.toList [] ++ rest) :=
        readParts_append_textBehind hkeys hindices hkey.point hkey.bracket (by simp) (.inl hname)
      have htext : (text (.key name :: rest)).toList
          = name.toList ++ indicesText [] ++ (textBehind rest).toList := by
        simp [text, indicesText]
      rw [htext, segments?_eq (by simp [hkey.nonempty]), hread]
      simp [partSegments, hkey.nonempty]
    | index i =>
      have hbound : ∀ j ∈ [i], j < Text.indexLimit := by
        simpa using h.indices i List.mem_cons_self
      -- an index at the front is a part without a key
      have hread : readParts (parts ([] ++ indicesText [i] ++ (textBehind rest).toList))
          = some (partSegments [] [i] ++ rest) :=
        readParts_append_textBehind hkeys hindices (by simp) (by simp) hbound
          (.inr (List.cons_ne_nil i []))
      have htext : (text (.index i :: rest)).toList
          = [] ++ indicesText [i] ++ (textBehind rest).toList := by
        simp [text, indicesText]
      rw [htext, segments?_eq (by simp [indicesText, toList_indexText]), hread]
      simp [partSegments]

/-! ## What is read can be written -/

section Read

variable {cs part : List Char} {parts : List (List Char)} {segments : List Segment}

/-- The key of a part is its head. -/
theorem key_mem_partSegments {name : String} {head : List Char} {is : List Nat}
    (h : .key name ∈ partSegments head is) : head ≠ [] ∧ name.toList = head := by
  by_cases hhead : head = []
  · simp [partSegments, hhead] at h
  · simp only [partSegments, hhead, if_false, List.mem_append, List.mem_singleton, List.mem_map,
      Segment.key.injEq, reduceCtorEq, and_false, exists_false, or_false] at h
    rw [h, String.toList_ofList]
    exact ⟨hhead, rfl⟩

theorem index_mem_partSegments {i : Nat} {head : List Char} {is : List Nat}
    (h : .index i ∈ partSegments head is) : i ∈ is := by
  by_cases hhead : head = [] <;> simpa [partSegments, hhead] using h

/-- A part has a segment. -/
theorem partSegments_ne_nil {head : List Char} {is : List Nat} (h : head ≠ [] ∨ is ≠ []) :
    partSegments head is ≠ [] := by
  intro hnil
  obtain ⟨hkey, hindices⟩ := List.append_eq_nil_iff.1 hnil
  rcases h with hhead | his
  · simp [hhead] at hkey
  · exact his (List.map_eq_nil_iff.1 hindices)

/-- A key is the last segment only of a part without indices. -/
theorem eq_nil_of_getLast?_partSegments {name : String} {head : List Char} {is : List Nat}
    (h : (partSegments head is).getLast? = some (.key name)) : is = [] := by
  by_contra his
  have hmap : is.map Segment.index ≠ [] := by simpa using his
  rw [partSegments, List.getLast?_append_of_ne_nil _ hmap] at h
  have hmem := List.mem_of_getLast? h
  simp at hmem

/-- The segments of the first part stand first. -/
theorem exists_of_readParts_cons (h : readParts (part :: parts) = some segments) :
    ∃ inner behind, part? part = some inner ∧ readParts parts = some behind ∧
      segments = inner ++ behind := by
  rw [readParts_cons] at h
  obtain ⟨inner, hinner, h⟩ := Option.bind_eq_some_iff.1 h
  obtain ⟨behind, hbehind, rfl⟩ := Option.map_eq_some_iff.1 h
  exact ⟨inner, behind, hinner, hbehind, rfl⟩

/-- The segments of the last part stand last. -/
theorem exists_of_readParts_append_singleton (h : readParts (parts ++ [part]) = some segments) :
    ∃ before inner, part? part = some inner ∧ segments = before ++ inner := by
  induction parts generalizing segments with
  | nil =>
    obtain ⟨inner, behind, hinner, hbehind, rfl⟩ := exists_of_readParts_cons h
    obtain rfl := Option.some.inj hbehind
    exact ⟨[], inner, hinner, by simp⟩
  | cons first parts ih =>
    obtain ⟨inner, behind, -, hbehind, rfl⟩ := exists_of_readParts_cons h
    obtain ⟨before, last, hlast, rfl⟩ := ih hbehind
    exact ⟨inner ++ before, last, hlast, by rw [List.append_assoc]⟩

/-- Each segment comes from a part. -/
theorem exists_mem_of_readParts (h : readParts parts = some segments) {segment : Segment}
    (hmem : segment ∈ segments) :
    ∃ part ∈ parts, ∃ inner, part? part = some inner ∧ segment ∈ inner := by
  induction parts generalizing segments with
  | nil =>
    obtain rfl := Option.some.inj h
    simp at hmem
  | cons first parts ih =>
    obtain ⟨inner, behind, hinner, hbehind, rfl⟩ := exists_of_readParts_cons h
    rcases List.mem_append.1 hmem with hmem | hmem
    · exact ⟨first, List.mem_cons_self, inner, hinner, hmem⟩
    · obtain ⟨part, hpart, hread⟩ := ih hbehind hmem
      exact ⟨part, List.mem_cons_of_mem _ hpart, hread⟩

/-- A key that is read is one that can be written: it is not empty, and has no point and no opening
bracket. -/
theorem isKey_of_mem_readParts (h : readParts (Path.parts cs) = some segments) {name : String}
    (hmem : .key name ∈ segments) : IsKey name := by
  obtain ⟨part, hpart, inner, hread, hmem⟩ := exists_mem_of_readParts h hmem
  obtain ⟨head, is, rfl, hbegins, -, hbracket, -, -⟩ := exists_of_part? hread
  obtain ⟨hhead, hname⟩ := key_mem_partSegments hmem
  refine ⟨fun hempty => hhead ?_, ?_, ?_⟩
  · rw [← hname, hempty, String.toList_empty]
  · rw [hname]
    exact fun hpoint => not_mem_of_mem_parts hpart (hbegins.subset hpoint)
  · rw [hname]
    exact hbracket

/-- An index that is read fits a word. -/
theorem lt_of_mem_readParts (h : readParts parts = some segments) {i : Nat}
    (hmem : .index i ∈ segments) : i < Text.indexLimit := by
  obtain ⟨part, hpart, inner, hread, hmem⟩ := exists_mem_of_readParts h hmem
  obtain ⟨head, is, rfl, -, -, -, hbound, -⟩ := exists_of_part? hread
  exact hbound i (index_mem_partSegments hmem)

/-- A key that is read first begins the text. -/
theorem prefix_of_readParts (h : readParts (Path.parts cs) = some segments) {name : String}
    (hfirst : segments.head? = some (.key name)) : name.toList <+: cs := by
  cases hparts : Path.parts cs with
  | nil =>
    rw [hparts] at h
    obtain rfl := Option.some.inj h
    simp at hfirst
  | cons part rest =>
    rw [hparts] at h
    obtain ⟨inner, behind, hread, -, rfl⟩ := exists_of_readParts_cons h
    obtain ⟨head, is, rfl, hbegins, -, -, -, hne⟩ := exists_of_part? hread
    rw [List.head?_append_of_ne_nil _ (partSegments_ne_nil hne)] at hfirst
    rw [(key_mem_partSegments (List.mem_of_mem_head? hfirst)).2]
    exact hbegins.trans (prefix_of_parts hparts)

/-- A key that is read last ends the text. -/
theorem suffix_of_readParts (h : readParts (Path.parts cs) = some segments) {name : String}
    (hlast : segments.getLast? = some (.key name)) : name.toList <:+ cs := by
  obtain hparts | ⟨front, part, hparts⟩ := List.eq_nil_or_concat' (Path.parts cs)
  · rw [hparts] at h
    obtain rfl := Option.some.inj h
    simp at hlast
  · rw [hparts] at h
    obtain ⟨before, inner, hread, rfl⟩ := exists_of_readParts_append_singleton h
    obtain ⟨head, is, rfl, -, hwhole, -, -, hne⟩ := exists_of_part? hread
    rw [List.getLast?_append_of_ne_nil _ (partSegments_ne_nil hne)] at hlast
    -- a part that ends with its key has no indices, so the key is all of it
    obtain rfl := hwhole (eq_nil_of_getLast?_partSegments hlast)
    rw [(key_mem_partSegments (List.mem_of_getLast? hlast)).2]
    exact suffix_of_parts hparts

/-- What is read from a trimmed text can be written. -/
theorem writable_of_readParts (htrimmed : Text.IsTrimmed cs)
    (h : readParts (Path.parts cs) = some segments) : Writable segments := by
  constructor
  · intro name hmem
    exact isKey_of_mem_readParts h hmem
  · intro i hmem
    exact lt_of_mem_readParts h hmem
  · intro name hfirst c hc
    obtain ⟨behind, rfl⟩ := prefix_of_readParts h hfirst
    apply htrimmed.head
    rw [List.head?_append, hc, Option.some_or]
  · intro name hlast c hc
    obtain ⟨front, rfl⟩ := suffix_of_readParts h hlast
    apply htrimmed.last
    rw [List.getLast?_append, hc, Option.some_or]

/-- What a path is read as can be written. -/
theorem writable_of_parse? {path : String} (h : parse? path = some segments) :
    Writable segments := by
  rw [parse?] at h
  by_cases hcs : Text.trim path.toList = []
  · rw [hcs, segments?, if_pos rfl] at h
    obtain rfl := Option.some.inj h
    constructor <;> simp
  · rw [segments?_eq hcs] at h
    exact writable_of_readParts (Text.isTrimmed_trim _) h

end Read

/-- **The text of segments is the normal form of their path.** Whatever a path is read as reads back
from its text, and the segments that read back from their text are exactly those that can be
written. -/
theorem text_isNormalForm :
    (∀ path segments, parse? path = some segments → parse? (text segments) = some segments) ∧
      ∀ segments, Writable segments ↔ parse? (text segments) = some segments := by
  refine ⟨fun path segments h => ?_, fun segments => ⟨fun h => ?_, fun h => ?_⟩⟩
  · exact (writable_of_parse? h).parse?_text
  · exact h.parse?_text
  · exact writable_of_parse? h

/-- Blanks, a plus sign and zeros around an index and a point in front of a bracket are liberties; a
stray bracket and a blank at the end of a key are not. -/
theorem text_isNormalForm_liberties :
    parse? " m] .[ +07 ][18446744073709551615]. n " = some
        [.key "m] ", .index 7, .index 18446744073709551615, .key " n"] ∧
      parse? (text [.key "m] ", .index 7, .index 18446744073709551615, .key " n"]) = some
        [.key "m] ", .index 7, .index 18446744073709551615, .key " n"] := by
  have hread : parse? " m] .[ +07 ][18446744073709551615]. n " = some
      [.key "m] ", .index 7, .index 18446744073709551615, .key " n"] := by decide
  exact ⟨hread, text_isNormalForm.1 _ _ hread⟩

end Path

end Wavefront
