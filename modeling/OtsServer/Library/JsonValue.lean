import Mathlib.Data.Rat.Defs
import OtsServer.Library.Bytes

/-!
# Decoded JSON

What a JSON text decodes to in Python: a string is its code points, an object its items in
order, each key once. A number is an integer of any size or a float.
-/

/-- A float; of a finite one, the value. -/
inductive FloatValue
  | finite (value : ℚ)
  | infinite (negative : Bool)
  | nan
deriving DecidableEq

inductive JsonValue
  | null
  | bool (b : Bool)
  | int (n : Int)
  | float (x : FloatValue)
  | str (s : List Nat)
  | arr (items : List JsonValue)
  | obj (items : List (List Nat × JsonValue))

namespace JsonValue

/-- `bool(v)`. -/
def truthy : JsonValue → Bool
  | null => false
  | bool b => b
  | int n => n ≠ 0
  | float (.finite x) => x ≠ 0
  | float _ => true
  | str s => s ≠ []
  | arr items => !items.isEmpty
  | obj items => !items.isEmpty

/-- `d.get(key)` of an object's items; a key that is absent is `None`. -/
def item (items : List (List Nat × JsonValue)) (key : List Nat) : JsonValue :=
  (items.lookup key).getD null

end JsonValue

/-! ## Decoding -/

/-- Why bytes are not decoded: a `ValueError` with its text, or a `RecursionError` of values nested
too deeply. -/
inductive Undecodable
  | valueError (text : String)
  | recursionError
deriving DecidableEq

/-- `json.loads`. -/
abbrev Loads := Bytes → Except Undecodable JsonValue
