import CodeAtlas.Json.Basic

/-!
# JSON as written

What a text says before it is taken for a value. Fields of an object may repeat, and a number or a
string may be well formed without having a value: a number too large for a float, or a string with
one half of a surrogate pair. Readers of records skip such parts where they do not look at them;
`value?` asks for all of them to have values.
-/

namespace CodeAtlas.Json

/-- A JSON text as a tree. -/
inductive Written where
  | null
  | bool (b : Bool)
  /-- A number, if it is in range. -/
  | number (n : Option JsonNumber)
  /-- A string, if it can be decoded. -/
  | string (s : Option String)
  | array (items : List Written)
  /-- The fields in the order of the text. -/
  | object (fields : List (Option String × Written))
  deriving Inhabited

mutual

/-- The tree of a value. -/
def written : Json → Written
  | .null => .null
  | .bool b => .bool b
  | .number n => .number (some n)
  | .string s => .string (some s)
  | .array items => .array (writtenItems items)
  | .object fields => .object (writtenFields fields)

def writtenItems : List Json → List Written
  | [] => []
  | v :: rest => v.written :: writtenItems rest

def writtenFields : List (String × Json) → List (Option String × Written)
  | [] => []
  | (k, v) :: rest => (some k, v.written) :: writtenFields rest

end

/-- The greatest number of arrays and objects inside each other. -/
def maxLevels : Nat := 127

namespace Written

mutual

/-- The value of a tree with at most `levels` arrays and objects inside each other. A repeated field
takes its last value. -/
def value? : Nat → Written → Option Json
  | _, .null => some .null
  | _, .bool b => some (.bool b)
  | _, .number n => n.map .number
  | _, .string s => s.map .string
  | 0, .array _ => none
  | levels + 1, .array items => (itemValues? levels items).map .array
  | 0, .object _ => none
  | levels + 1, .object fields => (fieldValues? levels fields).map ofFields

def itemValues? (levels : Nat) : List Written → Option (List Json)
  | [] => some []
  | w :: rest => do return (← w.value? levels) :: (← itemValues? levels rest)

def fieldValues? (levels : Nat) : List (Option String × Written) → Option (List (String × Json))
  | [] => some []
  | (k, w) :: rest => do return (← k, ← w.value? levels) :: (← fieldValues? levels rest)

end

end Written

end CodeAtlas.Json
