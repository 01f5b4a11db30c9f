/-
The grammar of conditions, and that the parser reads exactly its phrases.

The grammar stands by itself: `Derives` says which tokens are which kind of phrase, what they are
worth in a context, and how deep negations and parentheses may nest in them. Its rules for `||` and
`&&` have the operator's own kind on the left and the tighter one on the right, which is what makes
both group to the left. The parser loops instead, so the two directions are proved differently.
Soundness follows the recursion of the parser: a loop that goes on from a phrase ends with a phrase.
Completeness follows the derivation. There the parser has more tokens before it than the phrase, and
what it does with the phrase alone is to get it into its loop; whether it stops there depends on the
next token (`Phrase.goesOn`). Together they make the value of a condition that of its phrase.
-/
import Mathlib
import Wavefront.Condition.Parser
import Wavefront.Proofs.Result

set_option autoImplicit false

namespace Wavefront

namespace Condition

/-! ## The grammar -/

/-- The kinds of phrases, from the loosest to the tightest. -/
inductive Phrase where
  | disjunction
  | conjunction
  | unary
  | comparison
  | operand

/-- The tokens are a phrase of a kind, worth a value in the context, and at most so many negations
and parentheses are around any token of it. -/
inductive Derives (ctx : Value) : Phrase → Nat → List Token → Value → Prop where
  | ofConjunction {d : Nat} {ts : List Token} {v : Value}
      (h : Derives ctx .conjunction d ts v) : Derives ctx .disjunction d ts v
  | or {d : Nat} {ts us : List Token} {v w : Value}
      (left : Derives ctx .disjunction d ts v) (right : Derives ctx .conjunction d us w) :
      Derives ctx .disjunction d (ts ++ .or :: us) (if v.truthy then v else w)
  | ofUnary {d : Nat} {ts : List Token} {v : Value}
      (h : Derives ctx .unary d ts v) : Derives ctx .conjunction d ts v
  | and {d : Nat} {ts us : List Token} {v w : Value}
      (left : Derives ctx .conjunction d ts v) (right : Derives ctx .unary d us w) :
      Derives ctx .conjunction d (ts ++ .and :: us) (if v.truthy then w else v)
  | not {d : Nat} {ts : List Token} {v : Value}
      (h : Derives ctx .unary d ts v) :
      Derives ctx .unary (d + 1) (.not :: ts) (.bool (!v.truthy))
  | ofComparison {d : Nat} {ts : List Token} {v : Value}
      (h : Derives ctx .comparison d ts v) : Derives ctx .unary d ts v
  | compare {d : Nat} {ts us : List Token} {v w : Value} (c : Comparison)
      (left : Derives ctx .operand d ts v) (right : Derives ctx .operand d us w) :
      Derives ctx .comparison d (ts ++ .compare c :: us) (.bool (c.holds v w))
  | ofOperand {d : Nat} {ts : List Token} {v : Value}
      (h : Derives ctx .operand d ts v) : Derives ctx .comparison d ts v
  | number {d : Nat} (x : Binary64) : Derives ctx .operand d [.number x] (numberValue x)
  | text {d : Nat} (s : String) : Derives ctx .operand d [.text s] (.string s)
  | name {d : Nat} (s : String) : Derives ctx .operand d [.name s] (lookup ctx s)
  | parentheses {d : Nat} {ts : List Token} {v : Value}
      (h : Derives ctx .disjunction d ts v) :
      Derives ctx .operand (d + 1) (.openParen :: ts ++ [.closeParen]) v

/-! ## What is read is a phrase -/

section Sound

variable {ctx : Value} {depth : Nat} {tokens : List Token} {r : Read tokens}

/-- The reading is a phrase of the kind at the head of the tokens, with the value of what was read;
`depth` levels are around it already. -/
def Read.IsPhrase (ctx : Value) (p : Phrase) (depth : Nat) {tokens : List Token}
    (r : Read tokens) : Prop :=
  ∃ used, tokens = used ++ r.rest ∧ Derives ctx p (depthLimit - depth) used (r.expr.eval ctx)

/-- A reading of one kind that is a reading of another. -/
theorem Read.IsPhrase.imp {p q : Phrase} (h : r.IsPhrase ctx p depth)
    (hpq : ∀ {ts v}, Derives ctx p (depthLimit - depth) ts v →
      Derives ctx q (depthLimit - depth) ts v) : r.IsPhrase ctx q depth :=
  let ⟨used, hused, hd⟩ := h
  ⟨used, hused, hpq hd⟩

/-- An operator behind one phrase and another phrase behind it are one phrase. -/
theorem Read.IsPhrase.join {p q s : Phrase} {e f : Expr} {token : Token} {rest : List Token}
    {shorter : (token :: rest).length < tokens.length} {right : Read rest}
    (hleft : Read.IsPhrase ctx p depth ⟨e, token :: rest, shorter⟩)
    (hright : right.IsPhrase ctx q depth) (hle : rest.length ≤ tokens.length)
    (hjoin : ∀ {ts us}, Derives ctx p (depthLimit - depth) ts (e.eval ctx) →
      Derives ctx q (depthLimit - depth) us (right.expr.eval ctx) →
      Derives ctx s (depthLimit - depth) (ts ++ token :: us) (f.eval ctx)) :
    (right.widen f hle).IsPhrase ctx s depth := by
  obtain ⟨ts, hts, hd⟩ := hleft
  obtain ⟨us, hus, hd'⟩ := hright
  exact ⟨ts ++ token :: us, by simpa [Read.widen, ← hus] using hts, hjoin hd hd'⟩

/-- Below the limit one level more leaves one level less. -/
theorem levels_left (h : ¬depthLimit ≤ depth) :
    depthLimit - depth = depthLimit - (depth + 1) + 1 := by omega

mutual

/-- What the parser reads as a disjunction is one. This and the six lemmas below it are one
induction along the calls of the parser. -/
theorem isPhrase_disjunction {depth : Nat} {tokens : List Token} {r : Read tokens}
    (h : disjunction depth tokens = .ok r) : r.IsPhrase ctx .disjunction depth := by
  rw [disjunction] at h
  obtain ⟨first, hfirst, h⟩ := bind_eq_ok_iff.1 h
  exact isPhrase_disjunctionFrom ((isPhrase_conjunction hfirst).imp .ofConjunction) h
termination_by (tokens.length, 4)
decreasing_by
  · exact Prod.Lex.right _ (by decide)
  · exact Prod.Lex.left _ _ first.shorter

/-- The loop for `||` goes on from a disjunction to a longer one. -/
theorem isPhrase_disjunctionFrom {depth : Nat} {tokens : List Token} {left r : Read tokens}
    (hleft : left.IsPhrase ctx .disjunction depth) (h : disjunctionFrom depth left = .ok r) :
    r.IsPhrase ctx .disjunction depth := by
  unfold disjunctionFrom at h
  split at h
  · next e rest shorter =>
    obtain ⟨right, hright, h⟩ := bind_eq_ok_iff.1 h
    exact isPhrase_disjunctionFrom (hleft.join (isPhrase_conjunction hright) _ .or) h
  · obtain rfl := pure_eq_ok_iff.1 h
    exact hleft
termination_by (left.rest.length, 5)
decreasing_by
  · subst_vars; exact Prod.Lex.left _ _ (Nat.lt_succ_self _)
  · subst_vars; exact Prod.Lex.left _ _ (Nat.lt_succ_of_lt right.shorter)

/-- What the parser reads as a conjunction is one. -/
theorem isPhrase_conjunction {depth : Nat} {tokens : List Token} {r : Read tokens}
    (h : conjunction depth tokens = .ok r) : r.IsPhrase ctx .conjunction depth := by
  rw [conjunction] at h
  obtain ⟨first, hfirst, h⟩ := bind_eq_ok_iff.1 h
  exact isPhrase_conjunctionFrom ((isPhrase_unary hfirst).imp .ofUnary) h
termination_by (tokens.length, 3)
decreasing_by
  · exact Prod.Lex.right _ (by decide)
  · exact Prod.Lex.left _ _ first.shorter

/-- The loop for `&&` goes on from a conjunction to a longer one. -/
theorem isPhrase_conjunctionFrom {depth : Nat} {tokens : List Token} {left r : Read tokens}
    (hleft : left.IsPhrase ctx .conjunction depth) (h : conjunctionFrom depth left = .ok r) :
    r.IsPhrase ctx .conjunction depth := by
  unfold conjunctionFrom at h
  split at h
  · next e rest shorter =>
    obtain ⟨right, hright, h⟩ := bind_eq_ok_iff.1 h
    exact isPhrase_conjunctionFrom (hleft.join (isPhrase_unary hright) _ .and) h
  · obtain rfl := pure_eq_ok_iff.1 h
    exact hleft
termination_by (left.rest.length, 5)
decreasing_by
  · subst_vars; exact Prod.Lex.left _ _ (Nat.lt_succ_self _)
  · subst_vars; exact Prod.Lex.left _ _ (Nat.lt_succ_of_lt right.shorter)

/-- What the parser reads as a negation, or as what may stand in its place, is one. -/
theorem isPhrase_unary {depth : Nat} {tokens : List Token} {r : Read tokens}
    (h : unary depth tokens = .ok r) : r.IsPhrase ctx .unary depth := by
  unfold unary at h
  split at h
  · next rest =>
    split at h
    · contradiction
    · next hdepth =>
      obtain ⟨inner, hinner, h⟩ := bind_eq_ok_iff.1 h
      obtain rfl := pure_eq_ok_iff.1 h
      obtain ⟨used, hused, hd⟩ := isPhrase_unary hinner
      refine ⟨.not :: used, congrArg _ hused, ?_⟩
      rw [levels_left hdepth]
      exact hd.not
  · exact (isPhrase_comparison h).imp .ofComparison
termination_by (tokens.length, 2)

/-- What the parser reads as a comparison is one. -/
theorem isPhrase_comparison {depth : Nat} {tokens : List Token} {r : Read tokens}
    (h : comparison depth tokens = .ok r) : r.IsPhrase ctx .comparison depth := by
  rw [comparison] at h
  obtain ⟨left, hleft, h⟩ := bind_eq_ok_iff.1 h
  have hphrase : left.IsPhrase ctx .operand depth := isPhrase_operand hleft
  split at h
  · next e c rest shorter =>
    obtain ⟨right, hright, h⟩ := bind_eq_ok_iff.1 h
    obtain rfl := pure_eq_ok_iff.1 h
    exact hphrase.join (isPhrase_operand hright) _ (.compare c)
  · obtain rfl := pure_eq_ok_iff.1 h
    exact hphrase.imp .ofOperand
termination_by (tokens.length, 1)
decreasing_by
  · exact Prod.Lex.right _ (by decide)
  · exact Prod.Lex.left _ _ (Nat.lt_of_succ_lt ‹_›)

/-- What the parser reads as an operand is one; inside parentheses it is a level deeper. -/
theorem isPhrase_operand {depth : Nat} {tokens : List Token} {r : Read tokens}
    (h : operand depth tokens = .ok r) : r.IsPhrase ctx .operand depth := by
  unfold operand at h
  split at h
  · next x rest =>
    obtain rfl := pure_eq_ok_iff.1 h
    exact ⟨[.number x], rfl, .number x⟩
  · next s rest =>
    obtain rfl := pure_eq_ok_iff.1 h
    exact ⟨[.text s], rfl, .text s⟩
  · next s rest =>
    obtain rfl := pure_eq_ok_iff.1 h
    exact ⟨[.name s], rfl, .name s⟩
  · next rest =>
    split at h
    · contradiction
    · next hdepth =>
      obtain ⟨inner, hinner, h⟩ := bind_eq_ok_iff.1 h
      -- the parser goes back to the top of the grammar here, with fewer tokens
      have hphrase : inner.IsPhrase ctx .disjunction (depth + 1) := isPhrase_disjunction hinner
      split at h
      · next e behind shorter =>
        obtain rfl := pure_eq_ok_iff.1 h
        obtain ⟨used, hused, hd⟩ := hphrase
        refine ⟨.openParen :: used ++ [.closeParen], ?_, ?_⟩
        · simpa using hused
        · rw [levels_left hdepth]
          exact hd.parentheses
      · contradiction
  · contradiction
  · contradiction
termination_by (tokens.length, 0)

end

end Sound

/-! ## Every phrase is read -/

/-- Reading a phrase of a kind. -/
def Phrase.read (p : Phrase) (depth : Nat) (tokens : List Token) : Except Fault (Read tokens) :=
  match p with
  | disjunction => Condition.disjunction depth tokens
  | conjunction => Condition.conjunction depth tokens
  | unary => Condition.unary depth tokens
  | comparison => Condition.comparison depth tokens
  | operand => Condition.operand depth tokens

/-- What becomes of a phrase of a kind once it has been read: the kinds with an operator of their
own look whether that operator follows. -/
def Phrase.resume (p : Phrase) (depth : Nat) {tokens : List Token} (r : Read tokens) :
    Except Fault (Read tokens) :=
  match p with
  | disjunction => disjunctionFrom depth r
  | conjunction => conjunctionFrom depth r
  | _ => .ok r

/-- The operator that a kind looks for behind a phrase. -/
def Phrase.operator : Phrase → Option Token
  | disjunction => some .or
  | conjunction => some .and
  | _ => none

/-- Is the token an operator of a kind tighter than this one? In front of it the phrase is not at
its end. -/
def Phrase.goesOn : Phrase → Token → Bool
  | disjunction, .and | disjunction, .compare _ => true
  | conjunction, .compare _ => true
  | unary, .compare _ => true
  | comparison, .compare _ => true
  | _, _ => false

/-- Nothing behind a phrase of the kind belongs to a tighter one. -/
def Phrase.Stops (p : Phrase) (rest : List Token) : Prop :=
  ∀ token, rest.head? = some token → p.goesOn token = false

theorem Phrase.stops_nil (p : Phrase) : p.Stops [] := nofun

theorem Phrase.stops_cons {p : Phrase} {token : Token} {rest : List Token}
    (h : p.goesOn token = false) : p.Stops (token :: rest) :=
  fun _ ht => Option.some.inj ht ▸ h

/-- The next tighter kind. -/
def Phrase.tighter : Phrase → Phrase
  | disjunction => conjunction
  | conjunction => unary
  | unary => comparison
  | comparison | operand => operand

/-- Where a kind of phrase stops, the next tighter one stops and does not find its operator. -/
theorem Phrase.Stops.tighter {p : Phrase} {rest : List Token} (h : p.Stops rest) :
    p.tighter.Stops rest ∧
      ∀ token, rest.head? = some token → p.tighter.operator ≠ some token := by
  refine ⟨fun token ht => ?_, fun token ht => ?_⟩
  all_goals
    have hp := h token ht
    cases p <;> cases token <;> simp_all [Phrase.goesOn, Phrase.tighter, Phrase.operator]

section Complete

variable {ctx : Value} {depth : Nat} {tokens rest : List Token} {v : Value}

/-- A phrase with something else than its kind's operator behind it is all that is read. -/
theorem Phrase.resume_eq_ok {p : Phrase} {r : Read tokens}
    (h : ∀ token, r.rest.head? = some token → p.operator ≠ some token) :
    p.resume depth r = .ok r := by
  cases p with
  | disjunction =>
    show disjunctionFrom depth r = .ok r
    unfold disjunctionFrom
    split
    · exact absurd rfl (h _ rfl)
    · rfl
  | conjunction =>
    show conjunctionFrom depth r = .ok r
    unfold conjunctionFrom
    split
    · exact absurd rfl (h _ rfl)
    · rfl
  | unary | comparison | operand => rfl

/-- The tokens in front of `rest` are read as a phrase worth `v`. -/
def Phrase.Reads (ctx : Value) (p : Phrase) (depth : Nat) (tokens rest : List Token) (v : Value) :
    Prop :=
  ∃ r : Read tokens, p.read depth tokens = p.resume depth r ∧ r.rest = rest ∧ r.expr.eval ctx = v

/-- A phrase with nothing behind it that goes on with it is read to its end and no further. -/
theorem Phrase.Reads.ok {p : Phrase} (h : p.Reads ctx depth tokens rest v)
    (hrest : ∀ token, rest.head? = some token → p.operator ≠ some token) :
    ∃ r, p.read depth tokens = .ok r ∧ r.rest = rest ∧ r.expr.eval ctx = v :=
  let ⟨r, hr, hrest', hv⟩ := h
  ⟨r, hr.trans (resume_eq_ok (hrest' ▸ hrest)), hrest', hv⟩

/-! How the parser gets from one kind to the next, a lemma for each rule. -/

/-- A disjunction begins with a conjunction, and then its loop takes over. -/
theorem disjunction_of_conjunction {r : Read tokens} (h : conjunction depth tokens = .ok r) :
    disjunction depth tokens = disjunctionFrom depth r := by
  rw [disjunction, h]
  rfl

/-- The loop for `||` takes an operator and a conjunction at a time. -/
theorem disjunctionFrom_or {e : Expr} {shorter : (.or :: rest).length < tokens.length}
    {right : Read rest} (h : conjunction depth rest = .ok right) :
    disjunctionFrom depth ⟨e, .or :: rest, shorter⟩ = disjunctionFrom depth
      (right.widen (.or e right.expr) (Nat.le_of_lt (Nat.lt_of_succ_lt shorter))) := by
  rw [disjunctionFrom, h]
  rfl

/-- A conjunction begins with a negation or what stands for it, and then its loop takes over. -/
theorem conjunction_of_unary {r : Read tokens} (h : unary depth tokens = .ok r) :
    conjunction depth tokens = conjunctionFrom depth r := by
  rw [conjunction, h]
  rfl

/-- The loop for `&&` takes an operator and its right side at a time. -/
theorem conjunctionFrom_and {e : Expr} {shorter : (.and :: rest).length < tokens.length}
    {right : Read rest} (h : unary depth rest = .ok right) :
    conjunctionFrom depth ⟨e, .and :: rest, shorter⟩ = conjunctionFrom depth
      (right.widen (.and e right.expr) (Nat.le_of_lt (Nat.lt_of_succ_lt shorter))) := by
  rw [conjunctionFrom, h]
  rfl

/-- A negation is read as long as the limit of levels is not reached. -/
theorem unary_not {inner : Read rest} (hdepth : depth < depthLimit)
    (h : unary (depth + 1) rest = .ok inner) :
    unary depth (.not :: rest) = .ok (inner.widen (.not inner.expr) (Nat.le_succ _)) := by
  rw [unary, if_neg (Nat.not_le.2 hdepth), h]
  rfl

/-- Negations aside, what is unary is a comparison; a comparison never begins with one. -/
theorem unary_of_comparison {r : Read tokens} (h : comparison depth tokens = .ok r) :
    unary depth tokens = .ok r := by
  unfold unary
  split
  · rw [comparison, operand] at h
    · contradiction
    all_goals nofun
  · exact h

/-- A comparison reads two operands and the operator between them. -/
theorem comparison_compare {c : Comparison} {e : Expr}
    {shorter : (.compare c :: rest).length < tokens.length} {right : Read rest}
    (hleft : operand depth tokens = .ok ⟨e, .compare c :: rest, shorter⟩)
    (hright : operand depth rest = .ok right) :
    comparison depth tokens = .ok
      (right.widen (.compare c e right.expr) (Nat.le_of_lt (Nat.lt_of_succ_lt shorter))) := by
  rw [comparison, hleft]
  exact congrArg (· >>= fun right : Read rest => pure (right.widen (.compare c e right.expr) _))
    hright

/-- An operand that no comparison follows is read as it is. -/
theorem comparison_of_operand {r : Read tokens} (h : operand depth tokens = .ok r)
    (hrest : Phrase.comparison.Stops r.rest) : comparison depth tokens = .ok r := by
  rw [comparison, h]
  obtain ⟨e, _ | ⟨token, rest⟩, shorter⟩ := r
  · rfl
  · cases token with
    | compare c => exact absurd (hrest _ rfl) nofun
    | _ => rfl

/-- Parentheses are read as long as the limit of levels is not reached. -/
theorem operand_parentheses {e : Expr} {shorter : (.closeParen :: tokens).length < rest.length}
    (hdepth : depth < depthLimit)
    (h : disjunction (depth + 1) rest = .ok ⟨e, .closeParen :: tokens, shorter⟩) :
    operand depth (.openParen :: rest) =
      .ok ⟨e, tokens, Nat.lt_succ_of_lt (Nat.lt_of_succ_lt shorter)⟩ := by
  rw [operand, if_neg (Nat.not_le.2 hdepth), h]
  rfl

/-- A phrase is read, whatever is behind it, as long as that goes not on with the phrase. -/
theorem Derives.reads {p : Phrase} {d : Nat} {ts : List Token} (h : Derives ctx p d ts v) :
    ∀ {depth : Nat} {tokens rest : List Token}, depth + d ≤ depthLimit → ts ++ rest = tokens →
      p.Stops rest → p.Reads ctx depth tokens rest v := by
  -- the tokens behind the phrase and the depth around it vary along the derivation, so both are
  -- general in the induction
  induction h with
  | ofConjunction _ ih =>
    intro depth tokens rest hd ht hstop
    obtain ⟨r, hr, hrest, hv⟩ := (ih hd ht hstop.tighter.1).ok hstop.tighter.2
    exact ⟨r, disjunction_of_conjunction hr, hrest, hv⟩
  | @or d ts us v w _ _ ihl ihr =>
    intro depth tokens rest hd ht hstop
    rw [List.append_assoc, List.cons_append] at ht
    obtain ⟨⟨e, _, shorter⟩, hl, rfl, rfl⟩ := ihl hd ht (Phrase.stops_cons rfl)
    obtain ⟨r, hr, hrest, rfl⟩ := (ihr hd rfl hstop.tighter.1).ok hstop.tighter.2
    exact ⟨_, hl.trans (disjunctionFrom_or hr), hrest, rfl⟩
  | ofUnary _ ih =>
    intro depth tokens rest hd ht hstop
    obtain ⟨r, hr, hrest, hv⟩ := (ih hd ht hstop.tighter.1).ok hstop.tighter.2
    exact ⟨r, conjunction_of_unary hr, hrest, hv⟩
  | @and d ts us v w _ _ ihl ihr =>
    intro depth tokens rest hd ht hstop
    rw [List.append_assoc, List.cons_append] at ht
    obtain ⟨⟨e, _, shorter⟩, hl, rfl, rfl⟩ := ihl hd ht (Phrase.stops_cons rfl)
    obtain ⟨r, hr, hrest, rfl⟩ := (ihr hd rfl hstop.tighter.1).ok hstop.tighter.2
    exact ⟨_, hl.trans (conjunctionFrom_and hr), hrest, rfl⟩
  | @not d ts v _ ih =>
    rintro depth _ rest hd rfl hstop
    have hread : Phrase.Reads ctx .unary (depth + 1) (ts ++ rest) rest v :=
      ih (by omega) rfl hstop
    obtain ⟨r, hr, hrest, rfl⟩ := hread
    exact ⟨_, unary_not (by omega) hr, hrest, rfl⟩
  | ofComparison _ ih =>
    intro depth tokens rest hd ht hstop
    obtain ⟨r, hr, hrest, hv⟩ := ih hd ht hstop.tighter.1
    exact ⟨r, unary_of_comparison hr, hrest, hv⟩
  | @compare d ts us v w c _ _ ihl ihr =>
    intro depth tokens rest hd ht hstop
    rw [List.append_assoc, List.cons_append] at ht
    obtain ⟨⟨e, _, shorter⟩, hl, rfl, rfl⟩ := ihl hd ht (Phrase.stops_cons rfl)
    obtain ⟨r, hr, hrest, rfl⟩ := ihr hd rfl hstop.tighter.1
    exact ⟨_, comparison_compare hl hr, hrest, rfl⟩
  | ofOperand _ ih =>
    intro depth tokens rest hd ht hstop
    obtain ⟨r, hr, rfl, hv⟩ := ih hd ht hstop.tighter.1
    exact ⟨r, comparison_of_operand hr hstop, rfl, hv⟩
  | number x =>
    rintro depth _ rest hd rfl hstop
    exact ⟨⟨.constant (numberValue x), rest, Nat.lt_succ_self _⟩, operand.eq_1 .., rfl, rfl⟩
  | text s =>
    rintro depth _ rest hd rfl hstop
    exact ⟨⟨.constant (.string s), rest, Nat.lt_succ_self _⟩, operand.eq_2 .., rfl, rfl⟩
  | name s =>
    rintro depth _ rest hd rfl hstop
    exact ⟨⟨.name s, rest, Nat.lt_succ_self _⟩, operand.eq_3 .., rfl, rfl⟩
  | @parentheses d ts v _ ih =>
    intro depth tokens rest hd ht hstop
    rw [List.append_assoc, List.cons_append, List.singleton_append] at ht
    subst ht
    have hread : Phrase.Reads ctx .disjunction (depth + 1) (ts ++ .closeParen :: rest)
        (.closeParen :: rest) v := ih (by omega) rfl (Phrase.stops_cons rfl)
    -- the closing parenthesis ends the disjunction inside, since no operator is one
    obtain ⟨⟨e, _, shorter⟩, hr, rfl, rfl⟩ := hread.ok (by rintro _ ⟨⟩; nofun)
    exact ⟨_, operand_parentheses (by omega) hr, rfl, rfl⟩

end Complete

/-! ## The parser and the grammar -/

/-- All of the tokens are read, as an expression worth `v`, exactly if they are a disjunction worth
`v` within the limit. -/
theorem disjunction_reads_iff (ctx : Value) (tokens : List Token) (v : Value) :
    (∃ r, disjunction 0 tokens = .ok r ∧ r.rest = [] ∧ r.expr.eval ctx = v) ↔
      Derives ctx .disjunction depthLimit tokens v := by
  constructor
  · rintro ⟨r, hr, hrest, rfl⟩
    obtain ⟨used, hused, hd⟩ : r.IsPhrase ctx .disjunction 0 := isPhrase_disjunction hr
    rw [hrest, List.append_nil] at hused
    exact hused ▸ hd
  · intro h
    exact (h.reads (Nat.le_of_eq (Nat.zero_add _)) (List.append_nil _) (Phrase.stops_nil _)).ok nofun

/-- No phrase is empty. -/
theorem Derives.ne_nil {ctx : Value} {p : Phrase} {d : Nat} {tokens : List Token} {v : Value}
    (h : Derives ctx p d tokens v) : tokens ≠ [] := by
  induction h with
  | ofConjunction _ ih | ofUnary _ ih | ofComparison _ ih | ofOperand _ ih => exact ih
  | or | and | compare => exact List.append_ne_nil_of_right_ne_nil _ (List.cons_ne_nil _ _)
  | not | number | text | name => exact List.cons_ne_nil _ _
  | parentheses => exact List.append_ne_nil_of_right_ne_nil _ (List.cons_ne_nil _ _)

/-- The tokens are an expression that is worth `v`. -/
theorem parse_ok_iff (ctx : Value) (input : String) (tokens : List Token) (v : Value) :
    (∃ e, parse input tokens = .ok e ∧ e.eval ctx = v) ↔
      Derives ctx .disjunction depthLimit tokens v := by
  rw [← disjunction_reads_iff]
  constructor
  -- no tokens at all and tokens that are left over are refused by `parse` itself
  · rintro ⟨e, he, rfl⟩
    unfold parse at he
    split at he
    · contradiction
    obtain ⟨r, hr, he⟩ := bind_eq_ok_iff.1 he
    dsimp at he
    split at he
    · contradiction
    · next hrest =>
      obtain rfl := pure_eq_ok_iff.1 he
      exact ⟨r, hr, not_not.1 hrest, rfl⟩
  · rintro ⟨r, hr, hrest, rfl⟩
    refine ⟨r.expr, ?_, rfl⟩
    -- a derivation has tokens, so the first refusal does not come up
    have hne : tokens ≠ [] := ((disjunction_reads_iff ctx tokens _).1 ⟨r, hr, hrest, rfl⟩).ne_nil
    rw [parse, if_neg hne, hr]
    show (if r.rest ≠ [] then _ else _) = _
    rw [if_neg (not_not.2 hrest)]
    rfl

/-- The text that is parsed: the condition less the blanks around it, its markers replaced. -/
def expanded (ctx : Value) (text : String) : String :=
  Template.interpolate ctx (String.ofList (Text.trim text.toList))

/-- The text stands for tokens that are an expression worth `v`. -/
def IsWorth (ctx : Value) (text : String) (v : Value) : Prop :=
  ∃ tokens, scan (expanded ctx text) = .ok tokens ∧
    Derives ctx .disjunction depthLimit tokens v

/-- A condition that is no template evaluates to what its tokens derive, after the markers in it
have been replaced. -/
theorem evaluate_ok_iff {ctx : Value} {text : String} {b : Bool}
    (hpath : Template.wholePath? (Text.trim text.toList) = none) :
    evaluate ctx text = .ok b ↔ ∃ v, IsWorth ctx text v ∧ v.truthy = b := by
  unfold evaluate
  simp only [hpath]
  constructor
  · intro h
    obtain ⟨tokens, hscan, h⟩ := bind_eq_ok_iff.1 h
    obtain ⟨e, hparse, h⟩ := bind_eq_ok_iff.1 h
    exact ⟨e.eval ctx, ⟨tokens, hscan, (parse_ok_iff ..).1 ⟨e, hparse, rfl⟩⟩, pure_eq_ok_iff.1 h⟩
  · rintro ⟨v, ⟨tokens, hscan, hd⟩, hb⟩
    obtain ⟨e, hparse, rfl⟩ := (parse_ok_iff _ (expanded ctx text) ..).2 hd
    exact bind_eq_ok_iff.2 ⟨tokens, hscan, bind_eq_ok_iff.2 ⟨e, hparse, pure_eq_ok_iff.2 hb⟩⟩

/-- **Conditions mean what the grammar says.** The parser reads all of the tokens, as an expression
worth `v`, exactly if the grammar derives them with that value and no token is inside more negations
and parentheses than the limit allows. A condition that is no single template holds or not as the
value of its tokens counts as true or not; where its tokens have no value, or it has no tokens, it
is an error. -/
theorem evaluate_by_grammar (ctx : Value) :
    (∀ tokens v, (∃ r, disjunction 0 tokens = .ok r ∧ r.rest = [] ∧ r.expr.eval ctx = v) ↔
      Derives ctx .disjunction depthLimit tokens v) ∧
    ∀ text, Template.wholePath? (Text.trim text.toList) = none →
      (∀ v, IsWorth ctx text v → evaluate ctx text = .ok v.truthy) ∧
      ((∀ v, ¬IsWorth ctx text v) → ∃ fault, evaluate ctx text = .error fault) := by
  refine ⟨disjunction_reads_iff ctx, fun text hpath => ⟨fun v hv => ?_, fun hnone => ?_⟩⟩
  · exact (evaluate_ok_iff hpath).2 ⟨v, hv, rfl⟩
  · cases h : evaluate ctx text with
    | error fault => exact ⟨fault, rfl⟩
    | ok b =>
      obtain ⟨v, hv, -⟩ := (evaluate_ok_iff hpath).1 h
      exact absurd hv (hnone v)

/-- A negation takes the whole comparison behind it, and `&&` binds tighter than `||`. -/
theorem evaluate_negated_comparison :
    Template.wholePath? (Text.trim "!done == 'yes' || done && missing".toList) = none ∧
      IsWorth (.object [("done", .string "no")]) "!done == 'yes' || done && missing" (.bool true) ∧
      evaluate (.object [("done", .string "no")]) "!done == 'yes' || done && missing" =
        .ok true := by
  have hpath : Template.wholePath? (Text.trim "!done == 'yes' || done && missing".toList) = none := by
    cbv
  have hnot : Derives (.object [("done", .string "no")]) .disjunction depthLimit
      [.not, .name "done", .compare .equal, .text "yes"] (.bool true) :=
    .ofConjunction (.ofUnary (.not (.ofComparison (.compare .equal (.name "done") (.text "yes")))))
  have hand : Derives (.object [("done", .string "no")]) .conjunction depthLimit
      [.name "done", .and, .name "missing"] _ :=
    .and (.ofUnary (.ofComparison (.ofOperand (.name "done"))))
      (.ofComparison (.ofOperand (.name "missing")))
  have hworth : IsWorth (.object [("done", .string "no")]) "!done == 'yes' || done && missing"
      (.bool true) := ⟨_, by cbv, .or hnot hand⟩
  exact ⟨hpath, hworth, ((evaluate_by_grammar _).2 _ hpath).1 _ hworth⟩

end Condition

end Wavefront
