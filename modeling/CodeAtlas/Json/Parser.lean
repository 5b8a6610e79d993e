import CodeAtlas.Json.Written
import CodeAtlas.Text.CodePoints

/-!
# Reading JSON

A recursive-descent reader on lists of characters. `Written.parse?` gives the tree of a text, and
`parse?` its value, for which nesting is limited to `maxLevels`.

A number with a point or an exponent is read as a 64-bit significand scaled by a power of ten:
digits that no longer fit into the significand are dropped, and scaling rounds once more. A whole
number outside the 64-bit integers is read the same way.
-/

namespace CodeAtlas.Json

/-! ## Numbers -/

def isDigit (c : Char) : Bool := '0' ≤ c && c ≤ '9'

def digitValue (c : Char) : Nat := c.toNat - '0'.toNat

/-- The greatest significand. -/
def maxSignificand : Nat := UInt64.size - 1

/-- Scale a number by a negative power of ten in steps that a table of powers up to `10 ^ 308`
allows. -/
def scaleDown (x : Float) : Nat → Nat → Float
  | 0, n => x / Float.ofScientific 1 false n
  | fuel + 1, n =>
    if n ≤ 308 then x / Float.ofScientific 1 false n
    else if x == 0 then x
    else scaleDown (x / Float.ofScientific 1 false 308) fuel (n - 308)

/-- `significand · 10 ^ exponent`, or nothing when it is too large. -/
def scale? (significand : Nat) (exponent : Int) : Option Float :=
  let x := Float.ofScientific significand false 0
  if exponent < 0 then some (scaleDown x 10 (-exponent).toNat)
  else if exponent ≤ 308 then
    let y := x * Float.ofScientific 1 false exponent.toNat
    if y.isInf then none else some y
  else if x == 0 then some x
  else none

/-- A signed floating-point number. -/
def signed (positive : Bool) (x : Float) : JsonNumber := .float (if positive then x else -x)

/-- Digits of an exponent; an exponent beyond the 32-bit range is kept at the limit. -/
def exponentValue (ds : List Char) : Nat :=
  ds.foldl (fun n d => min (10 * n + digitValue d) (1 <<< 31)) 0

/-- A number as written, and the rest of the text. -/
abbrev NumberReading := Option (Option JsonNumber × List Char)

/-- The rest of a number after its exponent mark. -/
def readExponent (positive : Bool) (significand : Nat) (exponent : Int) (cs : List Char) :
    NumberReading :=
  let (positiveExponent, cs) := match cs with
    | '+' :: rest => (true, rest)
    | '-' :: rest => (false, rest)
    | rest => (true, rest)
  let digits := cs.takeWhile isDigit
  let rest := cs.dropWhile isDigit
  if digits.isEmpty then none
  else
    let e := exponentValue digits
    if 1 <<< 31 ≤ e then
      some (if significand = 0 ∨ !positiveExponent then some (signed positive 0) else none, rest)
    else
      let e : Int := e
      let x := scale? significand (if positiveExponent then exponent + e else exponent - e)
      some (x.map (signed positive), rest)

/-- The end of a number: an exponent, or nothing. -/
def readScaled (positive : Bool) (significand : Nat) (exponent : Int) : List Char → NumberReading
  | 'e' :: rest => readExponent positive significand exponent rest
  | 'E' :: rest => readExponent positive significand exponent rest
  | rest => some ((scale? significand exponent).map (signed positive), rest)

/-- Take digits into the significand while it fits; gives the significand, the number of digits
taken, and the rest. -/
def takeDigits (significand taken : Nat) : List Char → Nat × Nat × List Char
  | [] => (significand, taken, [])
  | c :: cs =>
    if isDigit c && 10 * significand + digitValue c ≤ maxSignificand then
      takeDigits (10 * significand + digitValue c) (taken + 1) cs
    else (significand, taken, c :: cs)

/-- The digits after a point. -/
def readFraction (positive : Bool) (significand : Nat) (exponent : Int) (cs : List Char) :
    NumberReading :=
  match cs with
  | [] => none
  | c :: _ =>
    if !isDigit c then none
    else
      let (significand, taken, rest) := takeDigits significand 0 cs
      readScaled positive significand (exponent - taken) (rest.dropWhile isDigit)

/-- A whole number that ends here. -/
def wholeNumber (positive : Bool) (n : Nat) : JsonNumber :=
  if positive then .natural n
  else if n = 0 ∨ 1 <<< 63 < n then .float (-(Float.ofScientific n false 0))
  else .negative (-(n : Int))

/-- The digits of a number after its sign. -/
def readDigits (positive : Bool) (cs : List Char) : NumberReading :=
  match cs with
  | [] => none
  | c :: rest =>
    if !isDigit c then none
    else if c == '0' && (rest.head?.any isDigit) then none
    else
      let (significand, _, rest) := takeDigits 0 0 cs
      let dropped := rest.takeWhile isDigit
      let rest := rest.dropWhile isDigit
      match rest with
      | '.' :: rest => readFraction positive significand dropped.length rest
      | 'e' :: rest => readExponent positive significand dropped.length rest
      | 'E' :: rest => readExponent positive significand dropped.length rest
      | rest =>
        if dropped.isEmpty then some (some (wholeNumber positive significand), rest)
        else some ((scale? significand dropped.length).map (signed positive), rest)

def readNumber : List Char → NumberReading
  | '-' :: rest => readDigits false rest
  | cs => readDigits true cs

/-! ## Strings -/

def readHex4 : List Char → Option (Nat × List Char)
  | a :: b :: c :: d :: rest =>
    if [a, b, c, d].all Text.isHexDigit then some (Text.hexNumber [a, b, c, d], rest) else none
  | _ => none

/-- The character of a `\u` escape, which takes a second escape for its low half. A half without the
other stands for no character. -/
def readUnicode (cs : List Char) : Option (Option Char × List Char) :=
  match readHex4 cs with
  | none => none
  | some (n, rest) =>
    if 0xdc00 ≤ n && n ≤ 0xdfff then some (none, rest)
    else if 0xd800 ≤ n && n ≤ 0xdbff then
      match rest with
      | '\\' :: 'u' :: low =>
        match readHex4 low with
        | some (m, after) =>
          if 0xdc00 ≤ m && m ≤ 0xdfff then
            some (some (Char.ofNat (0x10000 + (n - 0xd800) * 0x400 + (m - 0xdc00))), after)
          else some (none, rest)
        | none => none
      | _ => some (none, rest)
    else some (some (Char.ofNat n), rest)

/-- The character of an escape after the backslash. -/
def readEscape : List Char → Option (Option Char × List Char)
  | '"' :: rest => some (some '"', rest)
  | '\\' :: rest => some (some '\\', rest)
  | '/' :: rest => some (some '/', rest)
  | 'b' :: rest => some (some (Char.ofNat 8), rest)
  | 'f' :: rest => some (some (Char.ofNat 12), rest)
  | 'n' :: rest => some (some '\n', rest)
  | 'r' :: rest => some (some '\r', rest)
  | 't' :: rest => some (some '\t', rest)
  | 'u' :: rest => readUnicode rest
  | _ => none

/-- One more character in front of those read, if all of them can be decoded. -/
def addChar : Option Char → Option (List Char) → Option (List Char)
  | some c, some acc => some (c :: acc)
  | _, _ => none

/-- The characters of a string after its opening quote, in reverse, up to the closing quote. -/
def readStringChars : Nat → Option (List Char) → List Char →
    Option (Option (List Char) × List Char)
  | 0, _, _ => none
  | fuel + 1, acc, cs =>
    match cs with
    | [] => none
    | '"' :: rest => some (acc, rest)
    | '\\' :: rest =>
      match readEscape rest with
      | some (c, rest) => readStringChars fuel (addChar c acc) rest
      | none => none
    | c :: rest => if c.toNat < 32 then none else readStringChars fuel (addChar (some c) acc) rest

/-- A string after its opening quote. -/
def readString (cs : List Char) : Option (Option String × List Char) :=
  (readStringChars (cs.length + 1) (some []) cs).map fun (acc, rest) =>
    (acc.map fun l => String.ofList l.reverse, rest)

/-! ## Values -/

/-- Whether `c` may stand between tokens. -/
def isSpace (c : Char) : Bool := c == ' ' || c == '\n' || c == '\t' || c == '\r'

def skipSpace (cs : List Char) : List Char := cs.dropWhile isSpace

mutual

/-- A value, white space in front of it included. -/
def readValue : Nat → List Char → Option (Written × List Char)
  | 0, _ => none
  | fuel + 1, cs =>
    match skipSpace cs with
    | 'n' :: 'u' :: 'l' :: 'l' :: rest => some (.null, rest)
    | 't' :: 'r' :: 'u' :: 'e' :: rest => some (.bool true, rest)
    | 'f' :: 'a' :: 'l' :: 's' :: 'e' :: rest => some (.bool false, rest)
    | '"' :: rest => (readString rest).map fun (s, rest) => (.string s, rest)
    | '[' :: rest =>
      match skipSpace rest with
      | ']' :: rest => some (.array [], rest)
      | rest => (readItems fuel [] rest).map fun (items, rest) => (.array items, rest)
    | '\x7b' :: rest =>
      match skipSpace rest with
      | '\x7d' :: rest => some (.object [], rest)
      | rest => (readFields fuel [] rest).map fun (fields, rest) => (.object fields, rest)
    | cs => (readNumber cs).map fun (n, rest) => (.number n, rest)

/-- The items of an array from the next one on; `acc` has the earlier ones in reverse. -/
def readItems : Nat → List Written → List Char → Option (List Written × List Char)
  | 0, _, _ => none
  | fuel + 1, acc, cs =>
    match readValue fuel cs with
    | none => none
    | some (v, rest) =>
      match skipSpace rest with
      | ',' :: rest => readItems fuel (v :: acc) rest
      | ']' :: rest => some ((v :: acc).reverse, rest)
      | _ => none

/-- The fields of an object from the next one on; `acc` has the earlier ones in reverse. -/
def readFields : Nat → List (Option String × Written) → List Char →
    Option (List (Option String × Written) × List Char)
  | 0, _, _ => none
  | fuel + 1, acc, cs =>
    match skipSpace cs with
    | '"' :: rest =>
      match readString rest with
      | none => none
      | some (name, rest) =>
        match skipSpace rest with
        | ':' :: rest =>
          match readValue fuel rest with
          | none => none
          | some (v, rest) =>
            match skipSpace rest with
            | ',' :: rest => readFields fuel ((name, v) :: acc) rest
            | '\x7d' :: rest => some (((name, v) :: acc).reverse, rest)
            | _ => none
        | _ => none
    | _ => none

end

/-- Read a whole text as one tree. -/
def Written.parse? (s : String) : Option Written :=
  let cs := s.toList
  match readValue (2 * cs.length + 2) cs with
  | some (w, rest) => if (skipSpace rest).isEmpty then some w else none
  | none => none

/-- Read a whole text as one value. -/
def parse? (s : String) : Option Json := (Written.parse? s).bind (Written.value? maxLevels)

end CodeAtlas.Json
