/-
Fields of an object: pairs of a key and a value, in the order of the keys.

Keys are ordered by their code points, which is also the order of their UTF-8 bytes. Both the
look-up and the insertion stop at the first key that is not below the one wanted. They agree about
that position on every list, sorted or not, so the laws below need no invariant; lists that start
empty and grow by `insert` are sorted.
-/

set_option autoImplicit false

namespace Wavefront

namespace Fields

variable {α β : Type}

/-- The value at a key. -/
def get? (key : String) : List (String × α) → Option α
  | [] => none
  | (k, v) :: rest =>
      if k < key then get? key rest else if k = key then some v else none

/-- The fields with `key` bound to `value`, in place of an earlier value if there is one. -/
def insert (key : String) (value : α) : List (String × α) → List (String × α)
  | [] => [(key, value)]
  | (k, v) :: rest =>
      if k < key then (k, v) :: insert key value rest
      else if k = key then (key, value) :: rest
      else (key, value) :: (k, v) :: rest

/-- The fields of a list of pairs; of two pairs with one key the later counts. -/
def ofList (pairs : List (String × α)) : List (String × α) :=
  pairs.foldl (fun fields pair => insert pair.1 pair.2 fields) []

/-- Is there a value at the key? -/
def contains (key : String) (fields : List (String × α)) : Bool := (get? key fields).isSome

/-- The keys, in their order. -/
def keys (fields : List (String × α)) : List String := fields.map (·.1)

theorem get?_insert_self (key : String) (value : α) (fields : List (String × α)) :
    get? key (insert key value fields) = some value := by
  induction fields with
  | nil => simp [insert, get?]
  | cons pair rest ih =>
    obtain ⟨k, v⟩ := pair
    by_cases h : k < key
    · simp [insert, get?, h, ih]
    · by_cases hk : k = key
      · simp [insert, get?, hk]
      · simp [insert, get?, h, hk]

end Fields

end Wavefront
