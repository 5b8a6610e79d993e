import CodeAtlas.Syntax.Stack

/-!
# Parsing

A parser reads a text token by token. Where the table leaves a choice, the branch of the parser
splits; branches that meet again are joined, and branches that are worse than others are given up.
A branch that can do nothing with a token waits until it is clear that no other branch can either.
-/

namespace CodeAtlas.Syntax

/-- A text, ready for parsing. -/
structure Sheet where
  /-- The class of each character. -/
  classes : Array Nat
  /-- The place of each character, and the end. -/
  places : Array Extent
  /-- Whether the text starts with a byte order mark, which is skipped. -/
  marked : Bool
  deriving Inhabited

namespace Sheet

/-- A text for a language. -/
def ofChars (l : Language) (chars : Array Char) : Sheet :=
  { classes := chars.map l.classes.classOf
    places := chars.foldl (fun (places : Array Extent) c =>
      places.push ((places.back?.getD {}).after c)) #[{}]
    marked := chars[0]? == some '\uFEFF' }

def size (t : Sheet) : Nat := t.classes.size

def place (t : Sheet) (i : Nat) : Extent := t.places.getD i {}

end Sheet

/-- A parser at work. -/
structure Parser where
  stack : Stack := .start
  /-- The token that was read last, with its place. -/
  cache : Option (Nat × Subtree) := none
  /-- The best tree of the whole text so far. -/
  finished : Option Subtree := none
  /-- Number of trees of the whole text so far. -/
  finishedCount : Nat := 0
  deriving Inhabited

namespace Parser

/-- The most branches that are kept. -/
def maxBranches : Nat := 6

/-- How many more branches there may be for a while. -/
def moreBranches : Nat := 4

/-- How much more a branch may cost than another, for each node of progress. -/
def maxCostDifference : Nat := 16 * Cost.node

def onStack (f : Stack → Stack) (p : Parser) : Parser :=
  let { stack, cache, finished, finishedCount } := p
  { stack := f stack, cache, finished, finishedCount }

/-! ## Tokens -/

/-- Look for a token from an offset on, past a byte order mark. -/
def findToken (l : Language) (t : Sheet) (mode i : Nat) : Scanner.Find :=
  l.scanner.find t.classes mode (l.finishes mode) (if t.marked && i == 0 then 1 else i)

/-- Skip text until a token is found that faulty text can be followed by. Gives where the skipped
text starts and ends. -/
def skipText (l : Language) (t : Sheet) (mode : Nat) : Nat → Nat → Nat × Nat → Nat × Nat
  | 0, _, skipped => skipped
  | fuel + 1, i, (start, stop) =>
    let found := findToken l t mode i
    match found.token with
    | some _ => (start, stop)
    | none =>
      if found.ended == stop then
        if t.size ≤ stop then (start, stop)
        else skipText l t mode fuel (stop + 1) (start, stop + 1)
      else skipText l t mode fuel found.ended (start, found.ended)

/-- The token that was found, or the keyword that has the same text if the state can do something
with it, and whether there is such a keyword. -/
def keywordFor (l : Language) (t : Sheet) (state : Nat) (found : Scanner.Find) (c : Category) :
    Category × Bool :=
  if c == .token l.word then
    let set := l.table.modes.size
    let keyword := l.scanner.find t.classes set false found.start
    match keyword.token with
    | some k =>
      if keyword.stop == found.stop && !(l.actions state k).isEmpty then (k, true) else (c, true)
    | none => (c, false)
  else (c, false)

/-- Read a token at a place for a state. Text in which no token is found is faulty up to where one
is. -/
def readToken (l : Language) (t : Sheet) (place : Extent) (state : Nat) : Subtree :=
  let first := findToken l t (l.modeOf state) place.chars
  let faultMode := l.modeOf 0
  let found :=
    if first.token.isNone && state != 0 then findToken l t faultMode place.chars else first
  match found.token with
  | some c =>
    let (c, keyword) := keywordFor l t state found c
    let start := t.place found.start
    .token l c (start - place) (t.place found.stop - start) state keyword
  | none =>
    let begun := found.start
    let ended :=
      if found.ended == begun then (if t.size ≤ begun then begun else begun + 1) else found.ended
    let (start, stop) :=
      if found.ended == begun && t.size ≤ begun then (begun, begun)
      else skipText l t faultMode (t.size + 1) ended (begun, ended)
    let start := t.place start
    .token l .fault (start - place) (t.place stop - start) state false

/-- Whether a token that was read before can be used in a state. -/
def canReuse (l : Language) (state : Nat) (token : Subtree) : Bool :=
  let p := token.part
  let actions := l.actions state p.leaf
  if !actions.isEmpty && l.modeOf state == l.modeOf p.state
      && (p.leaf != .token l.word || (!p.keyword && p.state == state)) then true
  else if p.size.bytes == 0 && p.leaf != .finish then false
  else !actions.isEmpty && l.isReusable state p.leaf

/-- The next token of a branch. -/
def nextToken (l : Language) (t : Sheet) (v : Nat) (p : Parser) : Subtree × Parser :=
  let state := p.stack.state v
  let place := p.stack.place v
  let cached := match p.cache with
    | some (spot, token) =>
      if spot == place.bytes && canReuse l state token then some token else none
    | none => none
  match cached with
  | some token => (token, p)
  | none =>
    let token := readToken l t place state
    (token, { p with cache := some (place.bytes, token) })

/-! ## Finished rules -/

/-- The best of several readings of a rule, with the extras behind it. -/
def bestReading (l : Language) (r : Reduction) (slice : Stack.Slice) : Subtree × List Subtree :=
  let read (subtrees : List Subtree) : Subtree × List Subtree :=
    let (children, extras) := Subtree.splitExtras subtrees
    (.node l (.rule r.rule) children r.shape, extras)
  let (best, extras) := slice.others.foldl (fun best other =>
    let candidate := read other
    if Subtree.isBetter l best.1 candidate.1 then candidate else best) (read slice.first)
  (best.addWeight r.weight, extras)

/-- Finish a rule at the top of a branch. Every node to which the parts of the rule lead back gets
a branch of its own, unless it meets another. Gives the first new branch. -/
def reduce (l : Language) (v : Nat) (r : Reduction) (s : Stack) : Option Nat × Stack :=
  let initial := s.branches.size
  let slices := s.pop v r.count
  let limit := maxBranches + moreBranches
  let progressAtFault := (s.branch v).progressAtFault
  let s := slices.foldl (fun (s : Stack) slice =>
    if limit < s.branches.size then s
    else
      let (w, s) := s.addBranch { node := slice.node, progressAtFault }
      let (subtree, extras) := bestReading l r slice
      let next := l.next (s.state w) (.rule r.rule)
      let s := s.push w (some subtree) next
      let s := extras.foldl (fun (s : Stack) e => s.push w (some e) next) s
      let others := (List.range w).filter (· != v)
      match s.mergeTarget? others w with
      | some j => s.merge j w
      | none => s) s
  (if initial < s.branches.size then some initial else none, s)

/-- Finish the whole text: keep the better of this tree and the one found before. -/
def accept (l : Language) (v : Nat) (token : Subtree) (p : Parser) : Parser :=
  let { stack, cache, finished, finishedCount } := p
  let s := stack.push v (some (token.withExtra true)) 1
  let trees := (s.popAll v).flatMap fun slice => slice.first :: slice.others
  let rootOf (subtrees : List Subtree) : Option Subtree :=
    let (front, extras) := Subtree.splitExtras subtrees
    match front.reverse with
    | [] => none
    | main :: before => some (.node l main.category (before.reverse ++ main.children ++ extras)
        main.part.shape)
  let finished := trees.foldl (fun (best : Option Subtree) subtrees =>
    match best, rootOf subtrees with
    | some b, some r => if Subtree.isBetter l b r then some r else best
    | none, r => r
    | best, none => best) finished
  { stack := s.halt v, cache, finished, finishedCount := finishedCount + trees.length }

/-! ## Comparing branches -/

/-- What counts when branches are compared. -/
structure Standing where
  cost : Nat
  progress : Nat
  weight : Int
  /-- Whether the branch is in faulty text. -/
  faulty : Bool
  deriving Repr, Inhabited

/-- The outcome of a comparison. A branch is taken if the other one cannot catch up, and only
preferred if it can. -/
inductive Verdict where
  | takeFirst
  | preferFirst
  | neither
  | preferSecond
  | takeSecond
  deriving DecidableEq, Repr, Inhabited

def Standing.compare (a b : Standing) : Verdict :=
  if !a.faulty && b.faulty then if a.cost < b.cost then .takeFirst else .preferFirst
  else if a.faulty && !b.faulty then if b.cost < a.cost then .takeSecond else .preferSecond
  else if a.cost < b.cost then
    if maxCostDifference < (b.cost - a.cost) * (1 + a.progress) then .takeFirst else .preferFirst
  else if b.cost < a.cost then
    if maxCostDifference < (a.cost - b.cost) * (1 + b.progress) then .takeSecond
    else .preferSecond
  else if b.weight < a.weight then .preferFirst
  else if a.weight < b.weight then .preferSecond
  else .neither

/-- How a branch stands. -/
def standing (s : Stack) (v : Nat) : Standing :=
  let paused := (s.branch v).status.isPaused
  { cost := s.cost v + (if paused then Cost.node else 0)
    progress := s.progressSince v
    weight := (s.top v).weight
    faulty := paused || s.state v == 0 }

/-- Whether another branch makes it pointless to go on with a branch at a cost. -/
def isBeaten (v cost : Nat) (p : Parser) : Bool × Parser :=
  let { stack, cache, finished, finishedCount } := p
  if finished.any fun f => f.cost ≤ cost then (true, { stack, cache, finished, finishedCount })
  else
    let s := stack.noteProgress v
    let own : Standing :=
      { cost, progress := s.progressSince v, weight := (s.top v).weight, faulty := false }
    let bytes := (s.place v).bytes
    let rec go : List Nat → Stack → Bool × Stack
      | [], s => (false, s)
      | i :: rest, s =>
        if i == v || !s.isActive i || (s.place i).bytes < bytes then go rest s
        else
          let s := s.noteProgress i
          match own.compare (standing s i) with
          | .takeSecond => (true, s)
          | .preferSecond => if s.canMerge i v then (true, s) else go rest s
          | _ => go rest s
    let (beaten, s) := go (List.range s.branches.size) s
    (beaten, { stack := s, cache, finished, finishedCount })

end Parser

end CodeAtlas.Syntax
