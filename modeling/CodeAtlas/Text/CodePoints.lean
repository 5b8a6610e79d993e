/-!
# Classes of code points

Properties of Unicode code points are kept as text: runs of code points in hexadecimal, such as
`41-5a` for a run, `100-136/2` for every second code point of a run, and `aa` for a single one.
-/

namespace CodeAtlas.Text

/-- The code points `first`, `first + step`, … up to `last`. -/
structure Run where
  first : Nat
  last : Nat
  step : Nat
  deriving Repr, DecidableEq

namespace Run

/-- Whether `n` is one of the code points of the run. -/
def covers (r : Run) (n : Nat) : Bool :=
  r.first ≤ n && n ≤ r.last && (n - r.first) % r.step == 0

end Run

/-- Value of a hexadecimal digit; other characters count as zero. -/
def hexDigit (c : Char) : Nat :=
  if '0' ≤ c ∧ c ≤ '9' then c.toNat - '0'.toNat
  else if 'a' ≤ c ∧ c ≤ 'f' then c.toNat - 'a'.toNat + 10
  else if 'A' ≤ c ∧ c ≤ 'F' then c.toNat - 'A'.toNat + 10
  else 0

def isHexDigit (c : Char) : Bool :=
  ('0' ≤ c && c ≤ '9') || ('a' ≤ c && c ≤ 'f') || ('A' ≤ c && c ≤ 'F')

/-- The number written by hexadecimal digits, most significant first. -/
def hexNumber (cs : List Char) : Nat :=
  cs.foldl (fun n c => 16 * n + hexDigit c) 0

/-- Cut a list at the first occurrence of `c`, which belongs to neither part. -/
def cutAt (c : Char) (cs : List Char) : List Char × List Char :=
  (cs.takeWhile (· != c), (cs.dropWhile (· != c)).drop 1)

/-- Read one run: `aa`, `41-5a` or `100-136/2`. -/
def Run.ofChars (cs : List Char) : Run :=
  let (span, step) := cutAt '/' cs
  let (first, last) := cutAt '-' span
  { first := hexNumber first
    last := hexNumber (if last.isEmpty then first else last)
    step := if step.isEmpty then 1 else hexNumber step }

/-- The words of a text, separated by single blanks. -/
def words (cs : List Char) : List (List Char) :=
  let (done, current) := cs.foldr
    (fun c (acc : List (List Char) × List Char) =>
      if c == ' ' then (acc.2 :: acc.1, []) else (acc.1, c :: acc.2)) ([], [])
  (current :: done).filter fun w => !w.isEmpty

abbrev CodePointSet := Array Run

/-- Read a set of code points from its runs. -/
def CodePointSet.ofString (s : String) : CodePointSet :=
  ((words s.toList).map Run.ofChars).toArray

def CodePointSet.has (s : CodePointSet) (c : Char) : Bool := s.any fun r => r.covers c.toNat

end CodeAtlas.Text
