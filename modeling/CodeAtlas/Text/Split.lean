/-!
# Splitting texts at a separator

Prefixes, first and last occurrences of a separator, and repeated trimming. The functions work on
lists of characters and have a form on `String`. An empty separator occurs before every character
and at the end.

Main result: `dropPrefix?_append`, dropping a prefix that was put in front gives the text back.
-/

namespace CodeAtlas.Text

/-! ## Lists of characters -/

/-- The rest of `cs` after the prefix `p`. -/
def dropPrefixChars? : List Char → List Char → Option (List Char)
  | [], cs => some cs
  | _ :: _, [] => none
  | a :: p, c :: cs => if a = c then dropPrefixChars? p cs else none

theorem dropPrefixChars?_append (p cs : List Char) : dropPrefixChars? p (p ++ cs) = some cs := by
  induction p with
  | nil => rfl
  | cons a p ih => simp [dropPrefixChars?, ih]

/-- The parts before and after the first occurrence of `sep`. -/
def splitFirst? (sep : List Char) : List Char → Option (List Char × List Char)
  | [] => if sep.isEmpty then some ([], []) else none
  | c :: cs =>
    match dropPrefixChars? sep (c :: cs) with
    | some rest => some ([], rest)
    | none => (splitFirst? sep cs).map fun (a, b) => (c :: a, b)

/-- The parts before and after the last occurrence of `sep`. -/
def splitLast? (sep : List Char) : List Char → Option (List Char × List Char)
  | [] => if sep.isEmpty then some ([], []) else none
  | c :: cs =>
    match splitLast? sep cs with
    | some (a, b) => some (c :: a, b)
    | none => (dropPrefixChars? sep (c :: cs)).map fun rest => ([], rest)

/-- Drop the prefix `p` as often as it stands in front; an empty prefix is not dropped. -/
def dropAllPrefix (p : List Char) (cs : List Char) : List Char :=
  match dropPrefixChars? p cs with
  | some rest => if rest.length < cs.length then dropAllPrefix p rest else cs
  | none => cs
termination_by cs.length

/-- Every non-overlapping occurrence of `sep`, from the left, replaced by `by'`; an empty separator
is not replaced. -/
def replaceChars (sep by' : List Char) (cs : List Char) : List Char :=
  match splitFirst? sep cs with
  | some (a, b) => if b.length < cs.length then a ++ by' ++ replaceChars sep by' b else cs
  | none => cs
termination_by cs.length

/-- The parts of a list between the occurrences of one character. -/
def splitOnChar (sep : Char) (cs : List Char) : List (List Char) :=
  let (done, current) := cs.foldr
    (fun c (acc : List (List Char) × List Char) =>
      if c == sep then (acc.2 :: acc.1, []) else (acc.1, c :: acc.2)) ([], [])
  current :: done

/-! ## Strings -/

def dropPrefix? (p s : String) : Option String :=
  (dropPrefixChars? p.toList s.toList).map String.ofList

theorem dropPrefix?_append (p s : String) : dropPrefix? p (p ++ s) = some s := by
  simp [dropPrefix?, dropPrefixChars?_append]

def hasPrefix (p s : String) : Bool := (dropPrefix? p s).isSome

def hasSuffix (p s : String) : Bool := (dropPrefixChars? p.toList.reverse s.toList.reverse).isSome

def splitOnce? (sep s : String) : Option (String × String) :=
  (splitFirst? sep.toList s.toList).map fun (a, b) => (String.ofList a, String.ofList b)

def splitOnceLast? (sep s : String) : Option (String × String) :=
  (splitLast? sep.toList s.toList).map fun (a, b) => (String.ofList a, String.ofList b)

def occurs (sep s : String) : Bool := (splitFirst? sep.toList s.toList).isSome

def split (sep : Char) (s : String) : List String :=
  (splitOnChar sep s.toList).map String.ofList

/-- The part after the last occurrence of `sep`, or the whole text without one. -/
def lastSegment (s sep : String) : String :=
  match splitOnceLast? sep s with
  | some (_, b) => b
  | none => s

def trimPrefix (p s : String) : String := String.ofList (dropAllPrefix p.toList s.toList)

/-- Drop the suffix `p` as often as it stands at the end. -/
def trimSuffix (p s : String) : String :=
  String.ofList (dropAllPrefix p.toList.reverse s.toList.reverse).reverse

def replace (sep by' s : String) : String :=
  String.ofList (replaceChars sep.toList by'.toList s.toList)

def join (sep : String) : List String → String
  | [] => ""
  | [s] => s
  | s :: rest => s ++ sep ++ join sep rest

end CodeAtlas.Text
