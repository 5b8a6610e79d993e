import CodeAtlas.Syntax.BitSet
import CodeAtlas.Syntax.Production
import Std.Data.HashMap

/-!
# The lexicon of a grammar

All tokens of a grammar as one automaton. Its places are the spots of the patterns at which a
character is read; a set of places, a *reading*, tells what may come next. Characters that no
pattern tells apart form one class, so that a step depends on the class alone.
-/

namespace CodeAtlas.Syntax

/-! ## Classes of characters -/

/-- Characters in classes: every code point from `cuts[i]` up to the next cut has class
`classes[i]`. -/
structure CharClasses where
  cuts : Array Nat
  classes : Array Nat
  /-- The classes of each set of characters, by number of the set. -/
  members : Array BitSet
  deriving Inhabited

namespace CharClasses

/-- The classes that tell some sets of characters apart. -/
def ofSets (sets : Array CharSet) : CharClasses :=
  let bounds := sets.foldl (fun l s => s.runs.foldl (fun l r => r.1 :: (r.2 + 1) :: l) l) [0]
  let cuts := (bounds.mergeSort (· ≤ ·)).eraseReps
  let marks := cuts.map fun c => BitSet.ofList
    ((List.range sets.size).filter fun i => (sets.getD i default).has c)
  let numbers := marks.foldl (fun (seen : Std.HashMap BitSet Nat) m => seen.insertIfNew m seen.size)
    {}
  let byClass := numbers.toList
  { cuts := cuts.toArray
    classes := (marks.map fun m => numbers.getD m 0).toArray
    members := sets.mapIdx fun i _ => BitSet.ofList
      ((byClass.filter fun (m, _) => m.has i).map (·.2)) }

def classOf (k : CharClasses) (c : Char) : Nat := k.classes.getD (go k.cuts.size 0 k.cuts.size) 0
where
  /-- The last cut from `low` to before `high` that is not above the character. -/
  go : Nat → Nat → Nat → Nat
    | 0, low, _ => low
    | fuel + 1, low, high =>
      if low + 1 < high then
        let middle := (low + high) / 2
        if k.cuts.getD middle 0 ≤ c.toNat then go fuel middle high else go fuel low middle
      else low

end CharClasses

/-! ## Readings -/

/-- A set of places, in order. -/
abbrev Reading := List Nat

/-- The places of either reading. -/
def Reading.join : Reading → Reading → Reading
  | [], q => q
  | p, [] => p
  | a :: p, b :: q =>
    if a < b then a :: join p (b :: q)
    else if b < a then b :: join (a :: p) q
    else a :: join p q
termination_by p q => p.length + q.length

namespace Pattern

/-- The places at which a text of the pattern can start; the first place has the number `base`. -/
def starts : Pattern → Nat → Reading
  | blank, _ => []
  | one _, base => [base]
  | seq p q, base =>
    if p.acceptsEmpty then (p.starts base).join (q.starts (base + p.places)) else p.starts base
  | either p q, base => (p.starts base).join (q.starts (base + p.places))
  | many1 p, base => p.starts base

/-- The places of a pattern: the characters that fit and what may come next. After the pattern
comes `next`. -/
def follow : Pattern → Nat → Reading → List (CharSet × Reading)
  | blank, _, _ => []
  | one set, _, next => [(set, next)]
  | seq p q, base, next =>
    let between := q.starts (base + p.places)
    p.follow base (if q.acceptsEmpty then between.join next else between)
      ++ q.follow (base + p.places) next
  | either p q, base, next => p.follow base next ++ q.follow (base + p.places) next
  | many1 p, base, next => p.follow base ((p.starts base).join next)

end Pattern

/-- A spot of a pattern. -/
inductive Place where
  /-- A character of a class is read. Separators stand in front of the token. -/
  | read (token : Nat) (classes : BitSet) (separator : Bool) (rank : Int) (next : Reading)
  /-- The token is complete. -/
  | complete (token : Nat) (rank : Int)
  deriving Repr, Inhabited

def Place.token : Place → Nat
  | read token .. => token
  | complete token _ => token

/-- The tokens of a grammar as an automaton. -/
structure Lexicon where
  classes : CharClasses
  places : Array Place
  /-- The reading with which each token starts. -/
  starts : Array Reading
  /-- How much each token is preferred over others of its rank. -/
  preferences : Array Nat
  deriving Inhabited

namespace Lexicon

/-- A place before characters are put in classes: the token, the characters that fit, whether it
reads a separator, and what may come next. No characters fit where the token is complete. -/
structure Draft where
  token : Nat
  set : Option CharSet
  separator : Bool := false
  rank : Int := 0
  next : Reading := []
  deriving Inhabited

/-- The places of a token, of which the first has the number `base`, and the reading with which it
starts. -/
def draftToken (blanks : CharSet) (base token : Nat) (t : Token) : List Draft × Reading :=
  let first := if t.glued then base else base + 1
  let complete := first + t.pattern.places
  let starts := t.pattern.starts first
  let starts := if t.pattern.acceptsEmpty then starts.join [complete] else starts
  let body := (t.pattern.follow first [complete]).map fun (set, next) =>
    ({ token, set := some set, rank := t.rank, next } : Draft)
  let ending : Draft := { token, set := none, rank := t.rank }
  if t.glued then (body ++ [ending], starts)
  else
    let starts := base :: starts
    ({ token, set := some blanks, separator := true, next := starts } :: body ++ [ending], starts)

def ofProductions (g : Productions) : Lexicon :=
  let (drafts, starts) := g.tokens.foldl
    (fun (acc : Array Draft × Array Reading) t =>
      let (drafts, start) := draftToken g.blanks acc.1.size acc.2.size t.token
      (acc.1 ++ drafts, acc.2.push start)) (#[], #[])
  let numbers := drafts.foldl (fun (seen : Std.HashMap CharSet Nat) d =>
    match d.set with
    | some s => seen.insertIfNew s seen.size
    | none => seen) {}
  let sets := numbers.fold (fun (sets : Array CharSet) s i => sets.set! i s)
    (Array.replicate numbers.size default)
  let classes := CharClasses.ofSets sets
  { classes
    places := drafts.map fun d =>
      match d.set with
      | some s => .read d.token (classes.members.getD (numbers.getD s 0) default) d.separator
          d.rank d.next
      | none => .complete d.token d.rank
    starts
    preferences := g.tokens.map (·.token.preference) }

variable (l : Lexicon)

def place (i : Nat) : Place := l.places.getD i default

/-- The reading with which some tokens start. -/
def startOf (tokens : BitSet) : Reading :=
  tokens.toList.foldl (fun r t => r.join (l.starts.getD t [])) []

/-- A step on characters of some classes. -/
structure Move where
  classes : BitSet
  rank : Int
  /-- Whether only separators are read. -/
  separator : Bool
  /-- The tokens that go on. -/
  tokens : List Nat
  next : Reading
  deriving Repr, Inhabited

/-- Add a step to steps on disjoint classes, splitting them where they overlap. -/
def addMove (m : Move) : List Move → List Move
  | [] => if m.classes.isEmpty then [] else [m]
  | r :: rest =>
    if m.classes.isEmpty then r :: rest
    else
      let common := r.classes.inter m.classes
      if common.isEmpty then r :: addMove m rest
      else
        let both : Move :=
          { classes := common, rank := max r.rank m.rank, separator := r.separator && m.separator
            tokens := Reading.join r.tokens m.tokens, next := Reading.join r.next m.next }
        let left := r.classes.diff common
        let rest := addMove { m with classes := m.classes.diff common } rest
        if left.isEmpty then both :: rest else both :: { r with classes := left } :: rest

/-- The steps from a reading, on disjoint classes. -/
def moves (r : Reading) : List Move :=
  r.foldl (fun moves i =>
    match l.place i with
    | .read token classes separator rank next =>
      addMove { classes, rank, separator, tokens := [token], next } moves
    | .complete .. => moves) []

/-- The tokens that are complete, with their ranks. -/
def completions (r : Reading) : List (Nat × Int) :=
  r.filterMap fun i =>
    match l.place i with
    | .complete token rank => some (token, rank)
    | .read .. => none

/-- Whether a separator can be read. -/
def readsSeparator (r : Reading) : Bool :=
  r.any fun i =>
    match l.place i with
    | .read _ _ separator _ _ => separator
    | .complete .. => false

/-- Whether a complete token is preferred over another: by rank, then because it is more definite,
then because it comes first in the grammar. -/
def prefers (a b : Nat × Int) : Bool :=
  if a.2 != b.2 then b.2 < a.2
  else
    let p := l.preferences.getD a.1 0
    let q := l.preferences.getD b.1 0
    if p != q then q < p else a.1 < b.1

/-- The complete token that is preferred over all others. -/
def completion? (r : Reading) : Option (Nat × Int) :=
  (l.completions r).foldl (fun best c =>
    match best with
    | some b => if l.prefers b c then best else some c
    | none => some c) none

/-- Whether reading on is preferred over a complete token. `within` tells whether a separator could
be read instead. -/
def Move.beats (m : Move) (complete : Nat × Int) (within : Bool) : Bool :=
  if m.rank < complete.2 then false
  else if m.rank == complete.2 then
    !m.separator && (!within || m.tokens.contains complete.1)
  else true

end Lexicon

end CodeAtlas.Syntax
