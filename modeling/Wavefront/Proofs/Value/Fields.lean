/-
What a look-up finds in fields that were put together from pairs.

The look-up stops at the first key that is not below the one wanted, and so does the insertion; that
is why reading after writing needs no invariant of the list. `Fields.last?` says the same without
the order: of the pairs with a key the last one counts. It is what the look-up is turned into when
the pairs are known one by one, as those of a written document are.
-/
import Mathlib.Data.String.Basic
import Wavefront.Value.Basic

set_option autoImplicit false

namespace Wavefront.Fields

variable {α : Type}

/-- A look-up goes past the keys below the one wanted. -/
theorem get?_cons (key k : String) (v : α) (rest : List (String × α)) :
    get? key ((k, v) :: rest)
      = if k < key then get? key rest else if k = key then some v else none := rfl

/-- An insertion is not seen at another key. -/
theorem get?_insert_of_ne {key k : String} (hne : k ≠ key) (v : α) (fields : List (String × α)) :
    get? key (insert k v fields) = get? key fields := by
  induction fields with
  | nil =>
    rw [insert, get?_cons, if_neg hne]
    split <;> rfl
  | cons pair rest ih =>
    obtain ⟨l, w⟩ := pair
    rw [insert]
    by_cases hlk : l < k
    · rw [if_pos hlk, get?_cons, get?_cons, ih]
    rw [if_neg hlk]
    by_cases heq : l = k
    · subst heq
      rw [if_pos rfl, get?_cons, get?_cons, if_neg hne, if_neg hne]
    rw [if_neg heq, get?_cons key k]
    by_cases hkey : k < key
    · rw [if_pos hkey]
    · -- the wanted key is below the one put in, and that one is below what follows
      have hkl : key < l := by
        have h₁ : key < k := lt_of_le_of_ne (not_lt.1 hkey) (Ne.symm hne)
        have h₂ : k < l := lt_of_le_of_ne (not_lt.1 hlk) (Ne.symm heq)
        exact h₁.trans h₂
      rw [if_neg hkey, if_neg hne, get?_cons, if_neg (lt_asymm hkl), if_neg (ne_of_gt hkl)]

/-- What was inserted is found, and nothing else has changed. -/
theorem get?_insert (key k : String) (v : α) (fields : List (String × α)) :
    get? key (insert k v fields) = if k = key then some v else get? key fields := by
  by_cases h : k = key
  · subst h
    rw [if_pos rfl, get?_insert_self]
  · rw [if_neg h, get?_insert_of_ne h]

/-- What is found stands in the fields. -/
theorem mem_of_get? {key : String} {v : α} {fields : List (String × α)}
    (h : get? key fields = some v) : (key, v) ∈ fields := by
  induction fields with
  | nil => cases h
  | cons pair rest ih =>
    obtain ⟨k, w⟩ := pair
    rw [get?_cons] at h
    split at h
    · exact List.mem_cons_of_mem _ (ih h)
    · split at h
      · next heq =>
        obtain rfl := Option.some.inj h
        rw [heq]
        exact List.mem_cons_self
      · cases h

/-- An insertion brings in the new pair and no other. -/
theorem mem_insert {key : String} {v : α} {fields : List (String × α)} {pair : String × α}
    (h : pair ∈ insert key v fields) : pair = (key, v) ∨ pair ∈ fields := by
  induction fields with
  | nil => exact .inl (List.mem_singleton.1 h)
  | cons first rest ih =>
    rw [insert] at h
    split at h
    · rcases List.mem_cons.1 h with rfl | h
      · exact .inr List.mem_cons_self
      · exact (ih h).imp_right (List.mem_cons_of_mem _)
    · split at h
      · exact (List.mem_cons.1 h).imp_right (List.mem_cons_of_mem _)
      · exact List.mem_cons.1 h

/-! ## Two insertions -/

/-- An insertion goes past the keys below its own. -/
theorem insert_cons_of_lt {key k : String} (h : k < key) (value v : α) (rest : List (String × α)) :
    insert key value ((k, v) :: rest) = (k, v) :: insert key value rest := by
  rw [insert, if_pos h]

/-- An insertion stops in front of a key above its own. -/
theorem insert_cons_of_gt {key k : String} (h : key < k) (value v : α) (rest : List (String × α)) :
    insert key value ((k, v) :: rest) = (key, value) :: (k, v) :: rest := by
  rw [insert, if_neg (lt_asymm h), if_neg (ne_of_gt h)]

/-- An insertion at a key that is there takes the place of its value. -/
theorem insert_cons_self (key : String) (value v : α) (rest : List (String × α)) :
    insert key value ((key, v) :: rest) = (key, value) :: rest := by
  rw [insert, if_neg (lt_irrefl key), if_pos rfl]

/-- Of two values for one key the later counts. -/
theorem insert_insert_self (key : String) (u v : α) (fields : List (String × α)) :
    insert key v (insert key u fields) = insert key v fields := by
  induction fields with
  | nil => exact insert_cons_self key v u []
  | cons pair rest ih =>
    obtain ⟨k, w⟩ := pair
    rcases lt_trichotomy k key with hlt | rfl | hgt
    · rw [insert_cons_of_lt hlt, insert_cons_of_lt hlt, insert_cons_of_lt hlt, ih]
    · rw [insert_cons_self, insert_cons_self, insert_cons_self]
    · rw [insert_cons_of_gt hgt, insert_cons_of_gt hgt, insert_cons_self]

/-- Two keys that differ may be bound in either order. -/
theorem insert_comm {a b : String} (hne : a ≠ b) (u v : α) (fields : List (String × α)) :
    insert b v (insert a u fields) = insert a u (insert b v fields) := by
  -- one of the keys is the lower one, and the statement is symmetric
  have hgoal : ∀ {a b : String}, a < b → ∀ (u v : α),
      insert b v (insert a u fields) = insert a u (insert b v fields) := by
    intro a b hlt u v
    induction fields with
    | nil => exact (insert_cons_of_lt hlt v u []).trans (insert_cons_of_gt hlt u v []).symm
    | cons pair rest ih =>
      obtain ⟨k, w⟩ := pair
      rcases lt_trichotomy k a with hka | rfl | hak
      · have hkb := hka.trans hlt
        rw [insert_cons_of_lt hka, insert_cons_of_lt hkb, insert_cons_of_lt hkb,
          insert_cons_of_lt hka, ih]
      · rw [insert_cons_self, insert_cons_of_lt hlt, insert_cons_of_lt hlt, insert_cons_self]
      · rw [insert_cons_of_gt hak, insert_cons_of_lt hlt]
        rcases lt_trichotomy k b with hkb | rfl | hbk
        · rw [insert_cons_of_lt hkb, insert_cons_of_gt hak]
        · rw [insert_cons_self, insert_cons_of_gt hak]
        · rw [insert_cons_of_gt hbk, insert_cons_of_gt hlt]
  rcases lt_or_gt_of_ne hne with hlt | hgt
  · exact hgoal hlt u v
  · exact (hgoal hgt v u).symm

/-! ## Pairs -/

/-- The value of the last pair with a key. -/
def last? (key : String) : List (String × α) → Option α
  | [] => none
  | (k, v) :: rest => (last? key rest).or (if k = key then some v else none)

/-- No pair has the key. -/
@[simp] theorem last?_nil (key : String) : last? key ([] : List (String × α)) = none := rfl

/-- The first pair counts if none behind it has the key. -/
@[simp] theorem last?_cons (key k : String) (v : α) (rest : List (String × α)) :
    last? key ((k, v) :: rest) = (last? key rest).or (if k = key then some v else none) := rfl

/-- The pairs further behind count first. -/
@[simp] theorem last?_append (key : String) (l m : List (String × α)) :
    last? key (l ++ m) = (last? key m).or (last? key l) := by
  induction l with
  | nil => rw [List.nil_append, last?_nil, Option.or_none]
  | cons pair rest ih =>
    obtain ⟨k, v⟩ := pair
    rw [List.cons_append, last?_cons, last?_cons, ih, Option.or_assoc]

/-- Insertions one after the other leave the last value of each key. -/
theorem get?_foldl_insert (key : String) (pairs fields : List (String × α)) :
    get? key (pairs.foldl (fun fields pair => insert pair.1 pair.2 fields) fields)
      = (last? key pairs).or (get? key fields) := by
  induction pairs generalizing fields with
  | nil => rw [List.foldl_nil, last?_nil, Option.none_or]
  | cons pair rest ih =>
    obtain ⟨k, v⟩ := pair
    rw [List.foldl_cons, ih, last?_cons, Option.or_assoc, get?_insert]
    congr 1
    split <;> rfl

/-- Of two pairs with one key the later counts. -/
@[simp] theorem get?_ofList (key : String) (pairs : List (String × α)) :
    get? key (ofList pairs) = last? key pairs := by
  rw [ofList, get?_foldl_insert, get?, Option.or_none]

end Wavefront.Fields
