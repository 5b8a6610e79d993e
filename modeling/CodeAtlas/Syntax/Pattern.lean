import CodeAtlas.Text.Letters

/-!
# Patterns of tokens

A pattern describes the texts of a token: sets of characters, one after the other, one or the other,
and repeated. Patterns are regular expressions without any captures.
-/

namespace CodeAtlas.Syntax

/-! ## Sets of characters -/

/-- A set of characters: runs of code points, both ends included, in order and apart from each
other. -/
structure CharSet where
  runs : Array (Nat × Nat)
  deriving DecidableEq, Repr, Inhabited, Hashable

namespace CharSet

/-- Put runs in order and join those that touch. -/
def ofRuns (runs : List (Nat × Nat)) : CharSet :=
  let sorted := runs.mergeSort fun a b => a.1 ≤ b.1
  ⟨(sorted.foldl (fun (joined : List (Nat × Nat)) r =>
    match joined with
    | last :: rest => if r.1 ≤ last.2 + 1 then (last.1, max last.2 r.2) :: rest else r :: joined
    | [] => [r]) []).reverse.toArray⟩

def ofString (s : String) : CharSet := ofRuns (s.toList.map fun c => (c.toNat, c.toNat))

def range (first last : Char) : CharSet := ⟨#[(first.toNat, last.toNat)]⟩

def union (s t : CharSet) : CharSet := ofRuns (s.runs.toList ++ t.runs.toList)

instance : Append CharSet := ⟨union⟩

/-- The characters that are not in the set, of which NUL is never one. -/
def others (s : CharSet) : CharSet :=
  let (gaps, next) := s.runs.foldl
    (fun (acc : List (Nat × Nat) × Nat) r =>
      (if acc.2 < r.1 then (acc.2, r.1 - 1) :: acc.1 else acc.1, max acc.2 (r.2 + 1))) ([], 1)
  ofRuns (if next ≤ 0x10ffff then (next, 0x10ffff) :: gaps else gaps)

/-- The characters of a Unicode property. -/
def ofProperty (p : Text.CodePointSet) : CharSet :=
  ofRuns (p.toList.flatMap fun r =>
    if r.step ≤ 1 then [(r.first, r.last)]
    else (List.range ((r.last - r.first) / r.step + 1)).map fun i =>
      (r.first + i * r.step, r.first + i * r.step))

def has (s : CharSet) (c : Nat) : Bool := go s.runs.size 0 s.runs.size
where
  /-- Whether one of the runs with numbers from `low` to before `high` has it. -/
  go : Nat → Nat → Nat → Bool
    | 0, _, _ => false
    | fuel + 1, low, high =>
      if low < high then
        let middle := (low + high) / 2
        let run := s.runs.getD middle (1, 0)
        if c < run.1 then go fuel low middle
        else if run.2 < c then go fuel (middle + 1) high
        else true
      else false

def digits : CharSet := range '0' '9'

def hexDigits : CharSet := digits ++ range 'a' 'f' ++ range 'A' 'F'

/-- Blanks and line ends. -/
def blanks : CharSet := ⟨#[(9, 13), (32, 32)]⟩

/-- Characters with which an identifier may start. -/
def identifierStarts : CharSet :=
  range 'a' 'z' ++ range 'A' 'Z' ++ ofProperty Text.identifierStarts

/-- Characters with which an identifier may go on. -/
def identifierParts : CharSet :=
  identifierStarts ++ digits ++ ofString "_" ++ ofProperty Text.identifierMarks

end CharSet

/-! ## Patterns -/

/-- The texts of a token. -/
inductive Pattern where
  | blank
  /-- One character of a set. -/
  | one (set : CharSet)
  | seq (first second : Pattern)
  | either (first second : Pattern)
  /-- One or more times. -/
  | many1 (body : Pattern)
  deriving DecidableEq, Repr, Inhabited

namespace Pattern

instance : Append Pattern := ⟨seq⟩

instance : OrElse Pattern := ⟨fun p q => either p (q ())⟩

/-- A fixed text. -/
def text (s : String) : Pattern :=
  s.toList.foldr (fun c rest =>
    match rest with
    | blank => one (.ofString c.toString)
    | rest => seq (one (.ofString c.toString)) rest) blank

instance : Coe String Pattern := ⟨text⟩

/-- One character of those in a text. -/
def anyOf (s : String) : Pattern := one (.ofString s)

/-- One character that is not in a text. -/
def noneOf (s : String) : Pattern := one (CharSet.ofString s).others

/-- A pattern or nothing. -/
def opt (p : Pattern) : Pattern := either p blank

/-- A pattern any number of times. -/
def many (p : Pattern) : Pattern := opt (many1 p)

/-- A pattern so many times. -/
def times : Nat → Pattern → Pattern
  | 0, _ => blank
  | 1, p => p
  | n + 1, p => seq p (times n p)

/-- A pattern up to so many times. -/
def upTo : Nat → Pattern → Pattern
  | 0, _ => blank
  | n + 1, p => opt (seq p (upTo n p))

/-- One or more times, with a separator between. -/
def separated (p separator : Pattern) : Pattern := seq p (many (seq separator p))

/-- A comment between slashes and asterisks. -/
def blockComment : Pattern :=
  "/*" ++ (noneOf "*").many ++ (anyOf "*").many1
    ++ (noneOf "/*" ++ (noneOf "*").many ++ (anyOf "*").many1).many ++ "/"

/-- Number of places for a character in a pattern. -/
def places : Pattern → Nat
  | blank => 0
  | one _ => 1
  | seq p q | either p q => p.places + q.places
  | many1 p => p.places

def acceptsEmpty : Pattern → Bool
  | blank => true
  | one _ => false
  | seq p q => p.acceptsEmpty && q.acceptsEmpty
  | either p q => p.acceptsEmpty || q.acceptsEmpty
  | many1 p => p.acceptsEmpty

end Pattern

end CodeAtlas.Syntax
