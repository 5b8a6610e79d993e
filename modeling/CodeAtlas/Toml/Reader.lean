import CodeAtlas.Decimal.Reader
import CodeAtlas.Toml.Document
import CodeAtlas.Toml.Moment

/-!
# Reading TOML

The reader turns a text into the lines of a document. Dates and times become objects with a single
field, so that no setting mistakes them for a text.
-/

namespace CodeAtlas.Toml

/-- A reader gives a result and the rest of the text. -/
abbrev Reader (α : Type) := List Char → Option (α × List Char)

/-! ## Blanks and line ends -/

def isBlank (c : Char) : Bool := c == ' ' || c == '\t'

def skipBlank (cs : List Char) : List Char := cs.dropWhile isBlank

/-- The rest after an end of line. -/
def newline? : List Char → Option (List Char)
  | '\n' :: cs => some cs
  | '\r' :: '\n' :: cs => some cs
  | _ => none

/-- Whether a character may stand in a line. -/
def isText (c : Char) : Bool := c == '\t' || (0x20 ≤ c.toNat && c.toNat != 0x7f)

def skipComment : List Char → List Char
  | '#' :: cs => cs.dropWhile isText
  | cs => cs

/-- The rest after blanks, a comment and the end of the line. -/
def lineEnd? (cs : List Char) : Option (List Char) :=
  let cs := skipComment (skipBlank cs)
  if cs.isEmpty then some [] else newline? cs

/-- Skip blanks, comments and ends of lines. -/
def skipLines : Nat → List Char → List Char
  | 0, cs => cs
  | fuel + 1, cs =>
    let cs := skipComment (skipBlank cs)
    match newline? cs with
    | some rest => skipLines fuel rest
    | none => cs

/-! ## Strings -/

/-- The mark of a literal text. -/
def apostrophe : Char := Char.ofNat 0x27

def hexDigit? (c : Char) : Option Nat :=
  if '0' ≤ c && c ≤ '9' then some (c.toNat - '0'.toNat)
  else if 'a' ≤ c && c ≤ 'f' then some (c.toNat - 'a'.toNat + 10)
  else if 'A' ≤ c && c ≤ 'F' then some (c.toNat - 'A'.toNat + 10)
  else none

/-- The character with a number of so many hexadecimal digits. -/
def readCodePoint : Nat → Nat → Reader Char
  | 0, n, cs => if n.isValidChar then some (Char.ofNat n, cs) else none
  | _ + 1, _, [] => none
  | k + 1, n, c :: cs => (hexDigit? c).bind fun d => readCodePoint k (n * 16 + d) cs

/-- The character that follows a backslash. -/
def readEscape : Reader Char
  | 'b' :: cs => some ('\x08', cs)
  | 't' :: cs => some ('\t', cs)
  | 'n' :: cs => some ('\n', cs)
  | 'f' :: cs => some ('\x0c', cs)
  | 'r' :: cs => some ('\r', cs)
  | '"' :: cs => some ('"', cs)
  | '\\' :: cs => some ('\\', cs)
  | 'u' :: cs => readCodePoint 4 0 cs
  | 'U' :: cs => readCodePoint 8 0 cs
  | _ => none

/-- The rest of a text in quotes; `done` holds what was read, in reverse. -/
def readBasic : Nat → List Char → Reader String
  | 0, _, _ => none
  | _ + 1, done, '"' :: cs => some (String.ofList done.reverse, cs)
  | fuel + 1, done, '\\' :: cs => (readEscape cs).bind fun (c, cs) => readBasic fuel (c :: done) cs
  | fuel + 1, done, c :: cs => if isText c then readBasic fuel (c :: done) cs else none
  | _ + 1, _, [] => none

/-- The rest of a literal text. -/
def readLiteral (cs : List Char) : Option (String × List Char) :=
  let content := cs.takeWhile fun c => isText c && c != apostrophe
  match cs.drop content.length with
  | c :: rest => if c == apostrophe then some (String.ofList content, rest) else none
  | [] => none

/-- The rest of a text over several lines with the given quote. Up to two quotes may stand before
the closing three; escapes count only where `escapes` says so. -/
def readLong (quote : Char) (escapes : Bool) : Nat → List Char → Reader String
  | 0, _, _ => none
  | fuel + 1, done, cs =>
    let quotes := (cs.takeWhile (· == quote)).length
    if 3 ≤ quotes then
      let inside := min (quotes - 3) 2
      some (String.ofList (done.reverse ++ List.replicate inside quote), cs.drop (inside + 3))
    else if 0 < quotes then
      readLong quote escapes fuel (List.replicate quotes quote ++ done) (cs.drop quotes)
    else
      match newline? cs with
      | some rest => readLong quote escapes fuel ('\n' :: done) rest
      | none =>
        match cs with
        | [] => none
        | c :: cs =>
          if escapes && c == '\\' then
            match newline? (skipBlank cs) with
            | some rest => readLong quote escapes fuel done (skipGap rest.length rest)
            | none => (readEscape cs).bind fun (c, cs) => readLong quote escapes fuel (c :: done) cs
          else if isText c then readLong quote escapes fuel (c :: done) cs
          else none
where
  /-- Skip blanks and ends of lines. -/
  skipGap : Nat → List Char → List Char
    | 0, cs => cs
    | fuel + 1, cs =>
      let cs := skipBlank cs
      match newline? cs with
      | some rest => skipGap fuel rest
      | none => cs

/-- A text over several lines; an end of line right after the opening quotes does not count. -/
def readLongText (quote : Char) (escapes : Bool) (cs : List Char) : Option (String × List Char) :=
  readLong quote escapes (cs.length + 1) [] ((newline? cs).getD cs)

def readText : Reader String
  | '"' :: '"' :: '"' :: cs => readLongText '"' true cs
  | '"' :: cs => readBasic (cs.length + 1) [] cs
  | c :: cs =>
    if c == apostrophe then
      match cs with
      | a :: b :: rest =>
        if a == apostrophe && b == apostrophe then readLongText apostrophe false rest
        else readLiteral cs
      | _ => readLiteral cs
    else none
  | [] => none

/-! ## Keys -/

/-- Whether a character may stand in a key without quotes. -/
def isBareKey (c : Char) : Bool := c.isAlphanum || c == '_' || c == '-'

/-- One part of a key. -/
def readKeyPart (cs : List Char) : Option (String × List Char) :=
  match cs with
  | '"' :: rest => readBasic (rest.length + 1) [] rest
  | c :: rest =>
    if c == apostrophe then readLiteral rest
    else
      let bare := cs.takeWhile isBareKey
      if bare.isEmpty then none else some (String.ofList bare, cs.drop bare.length)
  | [] => none

/-- The parts of a key, with blanks around them. -/
def readKeyParts : Nat → Reader (List String)
  | 0, _ => none
  | fuel + 1, cs => do
    let (part, cs) ← readKeyPart (skipBlank cs)
    match skipBlank cs with
    | '.' :: cs =>
      let (parts, cs) ← readKeyParts fuel cs
      some (part :: parts, cs)
    | cs => some ([part], cs)

/-- The deepest nesting of values and keys. -/
def maxDepth : Nat := 80

/-- A key: the path of its table, and its last part. -/
def readKey (cs : List Char) : Option ((List String × String) × List Char) := do
  let (parts, cs) ← readKeyParts (maxDepth - 1) cs
  let last ← parts.getLast?
  some ((parts.dropLast, last), cs)

/-! ## Numbers, dates and times -/

/-- Digits with single underscores between them, and the rest. -/
def splitDigits (p : Char → Bool) : List Char → List Char × List Char
  | '_' :: c :: cs =>
    if p c then
      let (ds, rest) := splitDigits p cs
      (c :: ds, rest)
    else ([], '_' :: c :: cs)
  | c :: cs =>
    if p c then
      let (ds, rest) := splitDigits p cs
      (c :: ds, rest)
    else ([], c :: cs)
  | [] => ([], [])

/-- At least one digit. -/
def readDigits (p : Char → Bool) (cs : List Char) : Option (List Char × List Char) :=
  match cs with
  | c :: _ => if p c then some (splitDigits p cs) else none
  | [] => none

/-- The digits of a decimal number, which do not begin with a zero. -/
def readDecimalDigits : Reader (List Char)
  | '0' :: cs => some (['0'], cs)
  | cs => readDigits Decimal.isDigit cs

/-- A whole number that fits into 64 bits. -/
def wholeNumber? (n : Int) : Option Json :=
  if Int64.minValue.toInt ≤ n && n ≤ Int64.maxValue.toInt then some (.int n) else none

/-- The number that digits of a base stand for. -/
def ofDigits (base : Nat) (ds : List Char) : Nat :=
  ds.foldl (fun n c => n * base + (hexDigit? c).getD 0) 0

/-- A whole number with a mark for its base. -/
def readBased (base : Nat) (cs : List Char) : Option (Json × List Char) := do
  let (ds, rest) ← readDigits (fun c => (hexDigit? c).any (· < base)) cs
  let v ← wholeNumber? (ofDigits base ds)
  some (v, rest)

def readInteger : Reader Json
  | '0' :: 'x' :: cs => readBased 16 cs
  | '0' :: 'o' :: cs => readBased 8 cs
  | '0' :: 'b' :: cs => readBased 2 cs
  | cs => do
    let (negative, cs) := Decimal.splitSign cs
    let (ds, rest) ← readDecimalDigits cs
    let n : Int := Decimal.ofDigits ds
    let v ← wholeNumber? (if negative then -n else n)
    some (v, rest)

def readFraction : List Char → List Char × List Char
  | '.' :: cs =>
    match readDigits Decimal.isDigit cs with
    | some (ds, rest) => ('.' :: ds, rest)
    | none => ([], '.' :: cs)
  | cs => ([], cs)

def readExponent : List Char → List Char × List Char
  | c :: cs =>
    if c == 'e' || c == 'E' then
      let (negative, digits) := Decimal.splitSign cs
      match readDigits Decimal.isDigit digits with
      | some (ds, rest) => ((if negative then ['e', '-'] else ['e']) ++ ds, rest)
      | none => ([], c :: cs)
    else ([], c :: cs)
  | [] => ([], [])

/-- A floating-point number. One that is too large is refused unless it is negative. -/
def readFloat (cs : List Char) : Option (Json × List Char) := do
  let (negative, cs) := Decimal.splitSign cs
  let signed (x : Float) : Json := .float (if negative then -x else x)
  match cs with
  | 'i' :: 'n' :: 'f' :: rest => some (signed (1.0 / 0.0), rest)
  | 'n' :: 'a' :: 'n' :: rest => some (signed (0.0 / 0.0), rest)
  | _ =>
    let (whole, rest) ← readDecimalDigits cs
    let (fraction, rest) := readFraction rest
    let (exponent, rest) := readExponent rest
    if fraction.isEmpty && exponent.isEmpty then none
    else
      let x ← Decimal.unsigned? (whole ++ fraction ++ exponent)
      if x.isInf && !negative then none else some (signed x, rest)

/-- The field that holds a date or time. -/
def momentField : String := "$__toml_private_datetime"

/-- A date with an optional time and offset, or a time. -/
def readMoment (cs : List Char) : Option (Json × List Char) :=
  (Moment.read? cs).map fun (m, rest) => (.object [(momentField, .string m.render)], rest)

/-- A number, date or time. -/
def readNumber (cs : List Char) : Option (Json × List Char) :=
  ((readMoment cs).or (readFloat cs)).or (readInteger cs)

/-! ## Values -/

mutual

/-- A value at a depth of nesting. -/
def readValue : Nat → Nat → Reader Json
  | 0, _, _ => none
  | fuel + 1, depth, cs =>
    match cs with
    | 't' :: 'r' :: 'u' :: 'e' :: rest => some (.bool true, rest)
    | 'f' :: 'a' :: 'l' :: 's' :: 'e' :: rest => some (.bool false, rest)
    | '[' :: rest =>
      if maxDepth ≤ depth + 1 then none
      else (readItems fuel (depth + 1) rest).map fun (l, rest) => (.array l, rest)
    | '\x7b' :: rest =>
      if maxDepth ≤ depth + 1 then none
      else
        match skipBlank rest with
        | '\x7d' :: rest => some (.object [], rest)
        | rest => (readFields fuel (depth + 1) [] rest).map fun (items, rest) =>
            (.object (itemsToJson items), rest)
    | _ => (readText cs).elim (readNumber cs) fun (s, rest) => some (.string s, rest)

/-- The rest of an array. -/
def readItems : Nat → Nat → Reader (List Json)
  | 0, _, _ => none
  | fuel + 1, depth, cs =>
    match skipLines cs.length cs with
    | ']' :: rest => some ([], rest)
    | cs => do
      let (v, cs) ← readValue fuel depth cs
      match skipLines cs.length cs with
      | ',' :: rest =>
        let (l, rest) ← readItems fuel depth rest
        some (v :: l, rest)
      | ']' :: rest => some ([v], rest)
      | _ => none

/-- The rest of a table in braces. -/
def readFields : Nat → Nat → Items → Reader Items
  | 0, _, _, _ => none
  | fuel + 1, depth, items, cs => do
    let ((path, key), cs) ← readKey cs
    match cs with
    | '=' :: cs =>
      let (v, cs) ← readValue fuel depth (skipBlank cs)
      let items ← items.addEntry path key (.value v)
      match skipBlank cs with
      | ',' :: rest => readFields fuel depth items rest
      | '\x7d' :: rest => some (items, rest)
      | _ => none
    | _ => none

end

/-! ## Lines -/

/-- A header in single or double brackets. -/
def readHeader : Reader Line
  | '[' :: '[' :: cs => do
    let ((path, key), cs) ← readKey cs
    match cs with
    | ']' :: ']' :: cs => some (.element path key, cs)
    | _ => none
  | '[' :: cs => do
    let ((path, key), cs) ← readKey cs
    match cs with
    | ']' :: cs => some (.table path key, cs)
    | _ => none
  | _ => none

def readEntry (cs : List Char) : Option (Line × List Char) := do
  let ((path, key), cs) ← readKey cs
  match cs with
  | '=' :: cs =>
    let (v, cs) ← readValue (cs.length + 1) 0 (skipBlank cs)
    some (.entry path key v, cs)
  | _ => none

/-- The lines of a text. -/
def readLines : Nat → List Char → Option (List Line)
  | 0, _ => none
  | fuel + 1, cs =>
    match skipBlank cs with
    | [] => some []
    | c :: rest =>
      if c == '#' || c == '\n' || c == '\r' then
        (lineEnd? (c :: rest)).bind (readLines fuel)
      else do
        let (line, cs) ← if c == '[' then readHeader (c :: rest) else readEntry (c :: rest)
        let cs ← lineEnd? cs
        let lines ← readLines fuel cs
        some (line :: lines)

/-- The value of a text; a byte order mark in front does not count. -/
def parse? (s : String) : Option Json := do
  let cs := match s.toList with
    | c :: cs => if c.toNat == 0xfeff then cs else c :: cs
    | [] => []
  let lines ← readLines (cs.length + 1) cs
  let d ← Document.ofLines? lines
  some d.toJson

end CodeAtlas.Toml
