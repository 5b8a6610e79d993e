import CodeAtlas.Syntax.Lexicon

/-!
# Finding tokens

A scanner is the lexicon of a grammar worked out as a deterministic automaton, with a start for each
set of tokens that is ever looked for. It finds the longest text of a token, as far as the tokens'
preferences go, and skips the blanks in front of it.
-/

namespace CodeAtlas.Syntax

/-- A state of a scanner: the token that is complete, and for each class of characters the next
state and whether only a separator was read. -/
structure ScanState where
  complete : Option Nat
  jumps : Array (Option (Nat × Bool))
  deriving Inhabited

/-- A deterministic automaton for tokens. -/
structure Scanner where
  states : Array ScanState
  /-- The start for each set of tokens. -/
  starts : Array Nat
  /-- The class of NUL, which the end of the text is taken for where it is not looked for itself. -/
  nulClass : Nat
  deriving Inhabited

namespace Scanner

/-- A scanner under construction. -/
structure Builder where
  readings : Array Reading := #[]
  numbers : Std.HashMap Reading Nat := {}
  deriving Inhabited

/-- The number of the state for a reading, which is new if the reading is. -/
def Builder.locate (b : Builder) (r : Reading) : Nat × Builder :=
  match b.numbers[r]? with
  | some i => (i, b)
  | none =>
    let { readings, numbers } := b
    let i := readings.size
    (i, { readings := readings.push r, numbers := numbers.insert r i })

/-- Work out the state for a reading: steps are left out if the complete token is preferred. -/
def expand (l : Lexicon) (classCount : Nat) (b : Builder) (r : Reading) : ScanState × Builder :=
  let complete := l.completion? r
  let within := l.readsSeparator r
  let moves := (l.moves r).filter fun m =>
    match complete with
    | some c => m.beats c within
    | none => true
  let (jumps, b) := moves.foldl (fun (acc : Array (Option (Nat × Bool)) × Builder) m =>
    let (next, b) := acc.2.locate m.next
    (m.classes.toList.foldl (fun (jumps : Array (Option (Nat × Bool))) c =>
      jumps.set! c (some (next, m.separator))) acc.1, b)) (Array.replicate classCount none, b)
  (⟨complete.map (·.1), jumps⟩, b)

/-- Work out all states from a number on. -/
def expandAll (l : Lexicon) (classCount : Nat) :
    Nat → Nat → Builder → Array ScanState → Array ScanState
  | 0, _, _, states => states
  | fuel + 1, i, b, states =>
    if i < b.readings.size then
      let (state, b) := expand l classCount b (b.readings.getD i [])
      expandAll l classCount fuel (i + 1) b (states.push state)
    else states

/-- The scanner of a lexicon with a start for each set of tokens. -/
def ofLexicon (l : Lexicon) (tokenSets : Array BitSet) : Scanner :=
  let classCount := l.classes.classes.foldl max 0 + 1
  let (starts, b) := tokenSets.foldl (fun (acc : Array Nat × Builder) tokens =>
    let (i, b) := acc.2.locate (l.startOf tokens)
    (acc.1.push i, b)) (#[], {})
  { states := expandAll l classCount 1000000 0 b #[]
    starts
    nulClass := l.classes.classOf '\x00' }

/-- What a scanner found: the token, if any, with its start and end, and where the search ended. -/
structure Find where
  token : Option Category
  start : Nat
  stop : Nat
  ended : Nat
  deriving Repr, Inhabited

/-- Go on from a state at an offset in a text of character classes. `finishes` tells whether the end
of the text is looked for and only separators were read so far. -/
def go (s : Scanner) (text : Array Nat) : Nat → Nat → Nat → Bool → Find → Find
  | 0, _, _, _, found => found
  | fuel + 1, state, i, finishes, found =>
    let here := s.states.getD state default
    let found := match here.complete with
      | some t => { found with token := some (.token t), stop := i }
      | none => found
    match text[i]? with
    | none =>
      if finishes then { found with token := some .finish, stop := i, ended := i }
      else
        match here.jumps.getD s.nulClass none with
        | none => { found with ended := i }
        | some (next, _) => go s text fuel next i false found
    | some c =>
      match here.jumps.getD c none with
      | none => { found with ended := i }
      | some (next, separator) =>
        let i := i + 1
        if separator then go s text fuel next i finishes { found with start := i }
        else go s text fuel next i false found

/-- Look for the tokens of a set from an offset on. At the end of the text no state is passed
twice. -/
def find (s : Scanner) (text : Array Nat) (set : Nat) (finishes : Bool) (i : Nat) : Find :=
  go s text (text.size - i + s.states.size + 1) (s.starts.getD set 0) i finishes ⟨none, i, i, i⟩

end Scanner

end CodeAtlas.Syntax
