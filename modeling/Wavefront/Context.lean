/-
Contexts: reading and writing a tree by paths (`resolve`, `set_path` and `with_binding`).

A context is a value, usually an object. Reading never fails for a reason: a path that leads nowhere
has no value. Writing makes the containers it needs, in place of anything that is not the container
wanted, and can stop half-way, at an index beyond `Value.maxWriteIndex`; what it has made until then
stays, so a write gives a tree whether it succeeds or not.

Both recurse on the segments. An index, or a key that is a numeral where an array stands, names an
item; any other key names a field.
-/
import Wavefront.Path
import Wavefront.Value.Basic

set_option autoImplicit false

namespace Wavefront

/-! ## Reading -/

namespace Value

/-- The key that asks for a length and so is no item of an array. -/
def lengthKey : String := "length"

/-- The value one step away: `step_into`. -/
def child? : Value → Segment → Option Value
  | object fields, .key name => Fields.get? name fields
  | array items, .index i => items[i]?
  | array items, .key name =>
      if name = lengthKey then none
      else (Text.index? name.toList).bind fun i => items[i]?
  | _, _ => none

/-- The value at the end of a list of segments. -/
def at? : List Segment → Value → Option Value
  | [], v => some v
  | segment :: rest, v => (v.child? segment).bind (at? rest)

/-- The value at a path: `resolve`. A text that is no path leads nowhere. -/
def resolve (ctx : Value) (path : String) : Option Value :=
  (Path.parse? path).bind fun segments => ctx.at? segments

end Value

/-! ## Writing -/

/-- Why a write stopped. -/
inductive WriteFault where
  /-- The text is no path. -/
  | unparsable (path : String)
  /-- The path has no segments, so it names the tree itself. -/
  | emptyPath
  /-- The write would make an array longer than an array may get by writing. -/
  | indexTooLarge (i : Nat)
deriving DecidableEq

/-- What a write leaves behind. -/
structure Written where
  tree : Value
  fault : Option WriteFault

namespace Value

/-- The largest index that a write may create, `MAX_WRITE_INDEX`; reading has no such limit. -/
def maxWriteIndex : Nat := 100000

/-- The place inside a container that a segment names. -/
inductive Place where
  | item (i : Nat)
  | field (name : String)
deriving DecidableEq

/-- The place that a segment names in a value, as `slot_mut` chooses it: only under an array can a
key be an index. -/
def placeOf (v : Value) : Segment → Place
  | .index i => .item i
  | .key name =>
      match v with
      | array _ => match Text.index? name.toList with
        | some i => .item i
        | none => .field name
      | _ => .field name

/-- The items of an array; none for anything else. -/
def items (v : Value) : List Value := v.array?.getD []

/-- The fields of an object; none for anything else. -/
def fields (v : Value) : List (String × Value) := v.object?.getD []

/-- The items with nulls behind them up to index `i`. -/
def pad (i : Nat) (items : List Value) : List Value :=
  items ++ List.replicate (i + 1 - items.length) null

/-- Writes `value` at the end of a list of segments: the walk of `set_path` along `slot_mut`, as a
recursion that rebuilds the tree on its way back. -/
def write (value : Value) : List Segment → Value → Written
  | [], _ => ⟨value, none⟩
  | segment :: rest, v =>
      match v.placeOf segment with
      | .item i =>
          -- an item that is there may be written, however far out it stands
          if i < v.items.length ∨ i ≤ maxWriteIndex then
            let padded := pad i v.items
            let inner := write value rest (padded[i]?.getD null)
            ⟨array (padded.set i inner.tree), inner.fault⟩
          -- the array has already taken the place of whatever stood here
          else ⟨array v.items, some (.indexTooLarge i)⟩
      | .field name =>
          let inner := write value rest ((Fields.get? name v.fields).getD null)
          ⟨object (Fields.insert name inner.tree v.fields), inner.fault⟩

/-- Writes `value` at a path: `set_path`. -/
def set (ctx : Value) (path : String) (value : Value) : Written :=
  match Path.parse? path with
  | none => ⟨ctx, some (.unparsable path)⟩
  | some [] => ⟨ctx, some .emptyPath⟩
  | some segments => write value segments ctx

/-! ## Scopes -/

/-- A copy of the context with a name bound at the top: `with_binding`. A context that is no object
has nothing to copy. -/
def bind (ctx : Value) (name : String) (value : Value) : Value :=
  object (Fields.insert name value ctx.fields)

end Value

end Wavefront
