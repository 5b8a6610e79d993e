import CodeAtlas.Syntax.Merge

/-!
# The table of a parser

The table tells for each state what to do with each token, where finished rules lead, and for which
tokens to look. States that look for tokens in the same way share a mode. A keyword is not looked
for: where the text has a word that is a keyword, the state decides whether to take it as one.
-/

namespace CodeAtlas.Syntax

/-- A row of the table. -/
structure Row where
  actions : Array (List Action)
  /-- Where finished rules lead; 0 if nowhere. -/
  gotos : Array Nat
  /-- The mode in which tokens are looked for. -/
  mode : Nat
  /-- Tokens that any state would have found in the same place. -/
  reusable : BitSet
  deriving Inhabited

/-- The table of a parser. State 0 is the state of faulty text and state 1 the start. -/
structure Table where
  rows : Array Row
  /-- The tokens of each mode; the end of the text counts as the last token. -/
  modes : Array BitSet
  keywords : BitSet
  reductions : Array Reduction
  shapes : Array Shape
  deriving Inhabited

namespace Table

/-! ## Tokens next to each other -/

/-- For each token those that can stand right behind it. -/
def followers (g : Productions) (items : Items) : Array BitSet :=
  let count := g.tokens.size
  let inBodies := g.bodies.foldl (fun (sets : Array BitSet) body =>
    body.foldl (fun (sets : Array BitSet) p =>
      (p.steps.zip (p.steps.drop 1)).foldl (fun (sets : Array BitSet) (a, b) =>
        let ahead := b.category.tokensIn items.firsts
        (a.category.tokensIn items.lasts).toList.foldl (fun (sets : Array BitSet) t =>
          sets.modify t (·.union ahead)) sets) sets) sets)
    (Array.replicate count .empty)
  let comments := BitSet.ofList g.comments
  inBodies.mapIdx fun t s => if comments.has t then .below count else s.union comments

/-- For each token the characters that can stand right behind it, by class. -/
def charsAfter (l : Lexicon) (followers : Array BitSet) : Array BitSet :=
  let starts := l.starts.map fun r => r.foldl (fun (s : BitSet) i =>
    match l.place i with
    | .read _ classes .. => s.union classes
    | .complete .. => s) .empty
  followers.map fun f => f.toList.foldl (fun (s : BitSet) t => s.union (starts.getD t default))
    .empty

/-- For each token those that some state has beside it. -/
def companions (count : Nat) (tokenSets : List BitSet) : Array BitSet :=
  tokenSets.foldl (fun (found : Array BitSet) s =>
    s.toList.foldl (fun (found : Array BitSet) t => found.modify t (·.union s)) found)
    (Array.replicate (count + 1) .empty)

/-! ## Keywords -/

/-- The tokens that are special cases of the word token. Where no word is possible, a keyword must
fare against other tokens as the word does. -/
def keywordsOf (r : Rivalries) (word : Nat) (tokenSets : List BitSet) : BitSet :=
  let all := List.range r.count
  let candidates := all.filter fun i =>
    i != word && (r.between i word).wins && !(r.between i word).differs
  let lone := candidates.filter fun i =>
    !candidates.any fun j => j != i && (r.between j i).wins
  let withoutWord := tokenSets.filter fun s => !s.has word
  .ofList (lone.filter fun i =>
    let beside := withoutWord.filter fun s => s.has i
    all.all fun o =>
      candidates.contains o || o == word || !(beside.any fun s => s.has o) ||
        r.between i o == r.between word o)

/-! ## Faulty text -/

/-- The state of faulty text, which looks for all tokens except those that would take over what
other tokens match. -/
def faultState (r : Rivalries) (word : Nat) (keywords : BitSet) (companions : Array BitSet) :
    State :=
  let all := List.range r.count
  let apart (i j : Nat) : Bool := j != i && !(companions.getD i default).has j
  let modest := all.filter fun i => !all.any fun j => apart i j && r.outlasts i j
  let takesOver (i : Nat) : Bool :=
    !modest.contains i && !keywords.has i && i != word &&
      modest.any fun t => apart i t && r.conflicts i t
  { actions := ((all.map fun i => if takesOver i then [] else [Action.recover])
      ++ [[Action.recover]]).toArray
    gotos := [] }

/-! ## Modes -/

/-- For each token those that keep it out of a mode. -/
def modeBlockers (r : Rivalries) (companions : Array BitSet) : Array BitSet :=
  let all := List.range r.count
  (all.map fun i => BitSet.ofList (all.filter fun e =>
    e != i && (r.conflicts i e || (r.between i e).cutsShort ||
      (!(companions.getD i default).has e && (r.overlaps e i || r.overlaps i e))))).toArray

/-- Whether tokens can be looked for together. -/
def compatible (blockers : Array BitSet) (s t : BitSet) : Bool :=
  let clear (only others : BitSet) : Bool :=
    (only.diff others).toList.all fun i => !(blockers.getD i default).meets others
  clear s t && clear t s

/-- The modes of states, given the tokens of each: the first mode that fits takes a state in. -/
def modesOf (blockers : Array BitSet) (tokens : Array BitSet) : Array BitSet × Array Nat :=
  tokens.foldl (fun (acc : Array BitSet × Array Nat) s =>
    match acc.1.findIdx? fun m => compatible blockers m s with
    | some i => (acc.1.modify i (·.union s), acc.2.push i)
    | none => (acc.1.push s, acc.2.push acc.1.size)) (#[], #[])

/-! ## The whole table -/

/-- Which reductions only pass a hidden rule on, and which rule it is. -/
def passable (g : Productions) (items : Items) (r : Nat) : Option Nat :=
  let renamed (c : Category) : Bool :=
    g.bodies.any fun body => body.any fun p => p.steps.any fun s =>
      s.category == c && s.rename.isSome
  match items.reductions[r]? with
  | none => none
  | some r =>
    match g.rules[r.rule]? with
    | none => none
    | some rule =>
      if r.count == 1 && r.shape == 0 && r.weight == 0 && rule.hidden && !rule.family
          && !g.renames.contains (.rule r.rule) && !renamed (.rule r.rule) then some r.rule
      else none

/-- The table of a grammar. -/
def ofProductions (g : Productions) (l : Lexicon) : Table :=
  let items := Items.ofProductions g
  let a := Automaton.ofPlan (.ofProductions g items)
  let count := g.tokens.size
  let r := Rivalries.ofLexicon l (charsAfter l (followers g items))
  let tokenSets := (a.states.foldl (fun (seen : Std.HashSet BitSet) s => seen.insert s.tokens)
    {}).toList
  let companions := companions count tokenSets
  let keywords := keywordsOf r g.word tokenSets
  let states := a.states.set! 0 (faultState r g.word keywords companions)
  let m := Merging.prepare states r g.word keywords
  let merged := m.merge (m.groups (.ofCores a))
  let passableReductions := (List.range items.reductions.size).map (passable g items) |>.toArray
  let passing := merged.map (State.passesOn? fun r => passableReductions.getD r none)
  let states := largestFirst (onlyReachable (merged.map (State.skipPassing passing)))
  let lookedFor (s : State) : BitSet :=
    let tokens := s.tokens
    if tokens.meets keywords then (tokens.diff keywords).insert g.word else tokens
  let (modes, modeOf) := modesOf (modeBlockers r companions) (states.map lookedFor)
  let all := List.range count
  let rivals := (all.map fun i =>
    BitSet.ofList (all.filter fun j => j != i && r.overlaps j i)).toArray
  { rows := states.mapIdx fun i s =>
      let tokens := s.tokens
      { actions := s.actions
        gotos := s.gotos.foldl (fun (row : Array Nat) (v, t) => row.set! v t)
          (Array.replicate g.rules.size 0)
        mode := modeOf.getD i 0
        reusable := .ofList (tokens.toList.filter fun t =>
          t == count || !(rivals.getD t default).meets tokens) }
    modes
    keywords
    reductions := items.reductions
    shapes := items.shapes }

variable (t : Table)

/-- What to do with a token in a state. -/
def actions (state token : Nat) : List Action := (t.rows.getD state default).actions.getD token []

/-- Where a finished rule leads from a state; 0 if nowhere. -/
def goto (state rule : Nat) : Nat := (t.rows.getD state default).gotos.getD rule 0

/-- Where a token leads from a state; 0 if nowhere. -/
def step (state token : Nat) : Nat :=
  match (t.actions state token).getLast? with
  | some (.shift next _) => next
  | some .extra => state
  | _ => 0

end Table

end CodeAtlas.Syntax
