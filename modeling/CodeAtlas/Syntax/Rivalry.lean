import CodeAtlas.Syntax.Lexicon
import Std.Data.HashSet

/-!
# How tokens compete

Two tokens that may both match at a spot of a text can get in each other's way: both match the same
text, one goes on where the other is complete, or one is complete within blanks. The states of a
parser are merged, and share the tokens they look for, only where tokens do not compete.
-/

namespace CodeAtlas.Syntax

/-- How a token fares against another. -/
structure Rivalry where
  /-- It is complete and preferred where the other could go on. -/
  cutsShort : Bool := false
  /-- It goes on where the other is complete. -/
  goesOn : Bool := false
  /-- It goes on with a character that may stand after the other. -/
  goesOnValidly : Bool := false
  /-- It is complete where a blank could be read. -/
  takesBlank : Bool := false
  /-- It is preferred for a text that both match. -/
  wins : Bool := false
  /-- It matches a text that the other does not. -/
  differs : Bool := false
  deriving DecidableEq, Repr, Inhabited

namespace Rivalry

/-- Whether a token may take what the other would. -/
def conflicts (r : Rivalry) : Bool := r.goesOnValidly || r.takesBlank || r.wins

/-- Whether a token and another may match at one spot. -/
def overlaps (r : Rivalry) : Bool := r.takesBlank || r.cutsShort || r.wins || r.goesOn

end Rivalry

/-- How two tokens fare against each other. -/
structure Contest where
  first : Nat
  second : Nat
  ofFirst : Rivalry := {}
  ofSecond : Rivalry := {}
  deriving Inhabited

namespace Contest

/-- Note something of one of the two tokens. -/
def note (c : Contest) (token : Nat) (f : Rivalry → Rivalry) : Contest :=
  if token == c.first then { c with ofFirst := f c.ofFirst }
  else { c with ofSecond := f c.ofSecond }

def other (c : Contest) (token : Nat) : Nat := if token == c.first then c.second else c.first

/-- Compare the complete tokens of a reading, and give the preferred one. -/
def compareComplete (l : Lexicon) (within : Bool) (c : Contest) (complete : List (Nat × Int)) :
    Contest × Option (Nat × Int) :=
  complete.foldl (fun (c, best) t =>
    let c := if within then c.note t.1 fun r => { r with takesBlank := true } else c
    match best with
    | none => (c, some t)
    | some b =>
      if b.1 == t.1 then (c, best)
      else if l.prefers b t then (c.note b.1 fun r => { r with wins := true }, best)
      else (c.note t.1 fun r => { r with wins := true }, some t)) (c, none)

/-- Follow a step: compare going on with a complete token. `after` holds the characters that may
stand after each token. The step is not taken if the complete token is preferred. -/
def follow (after : Array BitSet) (within : Bool) (best : Option (Nat × Int))
    (c : Contest) (m : Lexicon.Move) : Contest × Bool :=
  match best with
  | none => (c, true)
  | some b =>
    if m.tokens.contains b.1 then (c, true)
    else
      let rival := c.other b.1
      if m.beats b within then
        let valid := m.classes.meets (after.getD b.1 default)
        (c.note rival fun r =>
          { r with goesOn := true, goesOnValidly := r.goesOnValidly || valid }, true)
      else (c.note b.1 fun r => { r with cutsShort := true }, false)

/-- Compare two tokens along all readings that both can reach. -/
def run (l : Lexicon) (after : Array BitSet) :
    Nat → List Reading → Std.HashSet Reading → Contest → Contest
  | 0, _, _, c => c
  | _, [], _, c => c
  | fuel + 1, r :: rest, seen, c =>
    let tokens := (r.map fun i => (l.place i).token).eraseReps
    match tokens with
    | [only] => run l after fuel rest seen (c.note only fun r => { r with differs := true })
    | _ =>
      let within := l.readsSeparator r
      let (c, best) := c.compareComplete l within (l.completions r)
      let (c, found, seen) := (l.moves r).foldl
        (fun (c, found, seen) m =>
          let (c, goesOn) := c.follow after within best m
          if goesOn && !seen.contains m.next then (c, m.next :: found, seen.insert m.next)
          else (c, found, seen)) (c, rest, seen)
      run l after fuel found seen c

/-- Compare two tokens. -/
def ofTokens (l : Lexicon) (after : Array BitSet) (i j : Nat) : Contest :=
  let start := (l.starts.getD i []).join (l.starts.getD j [])
  run l after 100000 [start] (Std.HashSet.emptyWithCapacity.insert start)
    { first := i, second := j }

end Contest

/-- How all tokens of a grammar compete. -/
structure Rivalries where
  count : Nat
  table : Array Rivalry
  deriving Inhabited

namespace Rivalries

def between (r : Rivalries) (i j : Nat) : Rivalry := r.table.getD (i * r.count + j) {}

/-- Compare all tokens. -/
def ofLexicon (l : Lexicon) (after : Array BitSet) : Rivalries :=
  let count := l.starts.size
  let pairs := (List.range count).flatMap fun i => (List.range i).map fun j => (i, j)
  { count
    table := pairs.foldl (fun table (i, j) =>
      let c := Contest.ofTokens l after i j
      (table.set! (i * count + j) c.ofFirst).set! (j * count + i) c.ofSecond)
      (Array.replicate (count * count) {}) }

def conflicts (r : Rivalries) (i j : Nat) : Bool := (r.between i j).conflicts

def overlaps (r : Rivalries) (i j : Nat) : Bool := (r.between i j).overlaps

/-- Whether a token takes what another would, and the other is not complete within blanks. -/
def outlasts (r : Rivalries) (i j : Nat) : Bool :=
  ((r.between i j).goesOnValidly || (r.between i j).takesBlank) && !(r.between j i).takesBlank

end Rivalries

end CodeAtlas.Syntax
