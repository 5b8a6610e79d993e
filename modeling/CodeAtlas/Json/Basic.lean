import CodeAtlas.SortedMap

/-!
# JSON values

The dynamic values that metadata is made of. Whole numbers keep their sign class, so that `1` and
`1.0` are different values. An object lists its fields in the order in which they are written;
`ofFields` and the reader order them by name.
-/

namespace CodeAtlas

/-- A JSON number: a natural number below `2 ^ 64`, a negative integer from `-2 ^ 63` on, or a
floating-point number. -/
inductive JsonNumber where
  | natural (n : Nat)
  | negative (n : Int)
  | float (x : Float)
  deriving Repr, BEq, Inhabited

inductive Json where
  | null
  | bool (b : Bool)
  | number (n : JsonNumber)
  | string (s : String)
  | array (items : List Json)
  | object (fields : List (String × Json))
  deriving Repr, Inhabited

namespace Json

mutual

/-- Equality of values; numbers of different classes differ, and floats compare as numbers. -/
def beq : Json → Json → Bool
  | null, null => true
  | bool a, bool b => a == b
  | number a, number b => a == b
  | string a, string b => a == b
  | array a, array b => beqList a b
  | object a, object b => beqFields a b
  | _, _ => false

def beqList : List Json → List Json → Bool
  | [], [] => true
  | a :: as, b :: bs => beq a b && beqList as bs
  | _, _ => false

def beqFields : List (String × Json) → List (String × Json) → Bool
  | [], [] => true
  | (k, a) :: as, (l, b) :: bs => k == l && beq a b && beqFields as bs
  | _, _ => false

end

instance : BEq Json := ⟨beq⟩

def nat (n : Nat) : Json := .number (.natural n)

def int (n : Int) : Json := if 0 ≤ n then .number (.natural n.toNat) else .number (.negative n)

def float (x : Float) : Json := .number (.float x)

/-- An optional text; absence is `null`. -/
def optString : Option String → Json
  | none => .null
  | some s => .string s

def strings (l : List String) : Json := .array (l.map .string)

/-- An object with its fields in order; a later field of a name wins. -/
def ofFields (fields : List (String × Json)) : Json :=
  .object (SortedMap.ofList fields).entries

def field? (name : String) : Json → Option Json
  | .object fields => SortedMap.find? name fields
  | _ => none

def string? : Json → Option String
  | .string s => some s
  | _ => none

def bool? : Json → Option Bool
  | .bool b => some b
  | _ => none

def nat? : Json → Option Nat
  | .number (.natural n) => some n
  | _ => none

def array? : Json → Option (List Json)
  | .array items => some items
  | _ => none

def object? : Json → Option (List (String × Json))
  | .object fields => some fields
  | _ => none

/-- A number as a floating-point number. -/
def float? : Json → Option Float
  | .number (.natural n) => some (Float.ofNat n)
  | .number (.negative n) => some (Float.ofInt n)
  | .number (.float x) => some x
  | _ => none

end Json

/-- Free-form facts attached to symbols, edges and references. -/
abbrev Metadata := SortedMap String Json

end CodeAtlas
