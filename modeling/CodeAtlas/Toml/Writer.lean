import CodeAtlas.Json.Basic

/-!
# Writing TOML

The written form of an object: a table for every field that is an object, and its fields as
entries; objects and lists inside them stand in braces and brackets.
-/

namespace CodeAtlas.Toml

/-- A character inside quotes. -/
def escapeChar (c : Char) : List Char :=
  if c == '"' then ['\\', '"']
  else if c == '\\' then ['\\', '\\']
  else if c.toNat < 0x20 || c.toNat == 0x7f then
    let digits := Nat.toDigits 16 c.toNat
    ['\\', 'u'] ++ List.replicate (4 - digits.length) '0' ++ digits
  else [c]

def quote (s : String) : String := "\"" ++ String.ofList (s.toList.flatMap escapeChar) ++ "\""

mutual

/-- A value inside a table. -/
def inlineValue : Json → String
  | .null => "\"\""
  | .bool b => if b then "true" else "false"
  | .number (.natural n) => toString n
  | .number (.negative n) => toString n
  | .number (.float x) => toString x
  | .string s => quote s
  | .array items => "[" ++ ", ".intercalate (inlineItems items) ++ "]"
  | .object fields => "\x7b" ++ ", ".intercalate (inlineFields fields) ++ "\x7d"

def inlineItems : List Json → List String
  | [] => []
  | v :: rest => inlineValue v :: inlineItems rest

def inlineFields : List (String × Json) → List String
  | [] => []
  | (k, v) :: rest => (quote k ++ " = " ++ inlineValue v) :: inlineFields rest

end

/-- A field of the whole object: a table with its entries, or an entry. -/
def renderField : String × Json → String
  | (k, .object fields) =>
    "[" ++ quote k ++ "]\n" ++ String.join ((inlineFields fields).map (· ++ "\n"))
  | (k, v) => quote k ++ " = " ++ inlineValue v ++ "\n"

/-- The written form of the fields of an object, which are tables. -/
def render (fields : List (String × Json)) : String := String.join (fields.map renderField)

end CodeAtlas.Toml
