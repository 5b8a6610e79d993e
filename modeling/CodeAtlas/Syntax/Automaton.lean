import CodeAtlas.Syntax.Item

/-!
# The states of a parser

A state is a set of items together with the tokens that can follow each. From a state, tokens and
finished rules lead to other states. Where the items disagree on what to do with a token, ranks and
associativity decide; what they leave open stays open, and the parser tries all of it.
-/

namespace CodeAtlas.Syntax

/-- What a parser does with a token. -/
inductive Action where
  /-- Read the token and go to a state. A repetition is read only if nothing else can be done. -/
  | shift (state : Nat) (repetition : Bool)
  /-- Read the token as one that may stand anywhere. -/
  | extra
  /-- Finish a rule, by number of the reduction. -/
  | reduce (reduction : Nat)
  /-- Finish the whole text. -/
  | accept
  /-- Skip faulty text. -/
  | recover
  deriving DecidableEq, Repr, Inhabited

/-- The items of a state that have been begun, with the tokens that can follow them, in order. -/
abbrev Kernel := List (Nat × BitSet)

namespace Kernel

/-- Add an item with tokens. -/
def add (item : Nat) (tokens : BitSet) : Kernel → Kernel
  | [] => [(item, tokens)]
  | (i, t) :: rest =>
    if item < i then (item, tokens) :: (i, t) :: rest
    else if item == i then (i, t.union tokens) :: rest
    else (i, t) :: add item tokens rest

end Kernel

/-- A state: what to do with each token, the end of the text being the last, and where finished
rules lead. -/
structure State where
  actions : Array (List Action)
  gotos : List (Nat × Nat)
  deriving Inhabited

/-- The states of a parser. States with the same items, whatever follows them, have the same core.
-/
structure Automaton where
  states : Array State
  cores : Array Nat
  coreCount : Nat
  deriving Inhabited

namespace Automaton

/-- What is fixed while states are built. -/
structure Plan where
  items : Items
  tokenCount : Nat
  ruleCount : Nat
  /-- Which rules are repetitions. -/
  chains : Array Bool
  comments : BitSet
  /-- The reduction of an empty text, if the whole text may be empty. -/
  emptyText : Option Nat
  deriving Inhabited

/-- The plan of a grammar. -/
def Plan.ofProductions (g : Productions) (items : Items) : Plan :=
  { items
    tokenCount := g.tokens.size
    ruleCount := g.rules.size
    chains := g.rules.map (·.chain)
    comments := .ofList g.comments
    emptyText :=
      if (g.bodies.getD 0 []).any (·.steps.isEmpty) then
        items.reductions.findIdx? fun r => r.rule == 0 && r.count == 0
      else none }

/-- States under construction. -/
structure Builder where
  kernels : Array Kernel
  numbers : Std.HashMap Kernel Nat
  cores : Array Nat
  coreNumbers : Std.HashMap (List Nat) Nat
  states : Array State
  deriving Inhabited

/-- The number of a state with a kernel, which is new if the kernel is. -/
def Builder.locate (b : Builder) (k : Kernel) : Nat × Builder :=
  match b.numbers[k]? with
  | some i => (i, b)
  | none =>
    let { kernels, numbers, cores, coreNumbers, states } := b
    let i := kernels.size
    let core := k.map (·.1)
    let c := coreNumbers.getD core coreNumbers.size
    (i, { kernels := kernels.push k
          numbers := numbers.insert k i
          cores := cores.push c
          coreNumbers := coreNumbers.insertIfNew core c
          states })

namespace Plan

variable (p : Plan)

def item (i : Nat) : Item := p.items.items.getD i default

/-- The rules that can start in a state, with the tokens that can follow them. -/
def startingRules (k : Kernel) : Array BitSet :=
  let ahead := k.foldl (fun (ahead : List (Nat × BitSet)) (i, tokens) =>
    let item := p.item i
    match item.next with
    | some (.rule v) => Kernel.add v (item.following.getD tokens) ahead
    | _ => ahead) []
  ahead.foldl (fun (found : Array BitSet) (v, tokens) =>
    (p.items.fronts.getD v []).foldl (fun (found : Array BitSet) (u, own, through) =>
      found.modify u fun f =>
        let f := f.union own
        if through then f.union tokens else f) found)
    (Array.replicate p.ruleCount .empty)

/-- Where a category stands among tokens and rules. -/
def slot : Category → Nat
  | .token i => i
  | .rule i => p.tokenCount + i
  | _ => 0

/-- The kernels to which tokens and rules lead. -/
def successors (k : Kernel) : Array Kernel :=
  let starting := p.startingRules k
  let fromStarts := (List.range p.ruleCount).foldr (fun u (found : Array Kernel) =>
    let tokens := starting.getD u default
    if tokens.isEmpty then found
    else (p.items.openings.getD u []).foldl (fun (found : Array Kernel) (c, i) =>
      found.modify (p.slot c) (Kernel.add i tokens)) found)
    (Array.replicate (p.tokenCount + p.ruleCount) [])
  k.foldl (fun (found : Array Kernel) (i, tokens) =>
    let item := p.item i
    match item.next with
    | some c => found.modify (p.slot c) (Kernel.add item.successor tokens)
    | none => found) fromStarts

/-- Reductions for a token, with the highest rank seen and the associativities of that rank. -/
structure Reducing where
  actions : List Action := []
  rank : Int := 0
  assocs : List (Option Assoc) := []
  deriving Inhabited

/-- Take a complete item into account: a higher rank wins over a lower one. -/
def Reducing.add (r : Reducing) (item : Item) : Reducing :=
  let action : Action := match item.reduction with
    | some n => .reduce n
    | none => .accept
  let rank := item.rank.getD 0
  if r.actions.isEmpty || r.rank < rank then ⟨[action], rank, [item.assoc]⟩
  else if rank == r.rank then ⟨r.actions ++ [action], rank, item.assoc :: r.assocs⟩
  else r

/-- Decide between reductions and a shift. `begun` are the items that could read the token, and
`complete` those that could be reduced before it. -/
def decide (r : Reducing) (target : Nat) (begun complete : List Item) : List Action :=
  let shift : List Action := [.shift target false]
  let rules := ((complete ++ begun).filter fun i => i.rule < p.ruleCount).map (·.rule)
  match rules.eraseDups with
  | [only] =>
    if p.chains.getD only false then r.actions ++ [.shift target true]
    else byRank shift
  | _ => byRank shift
where
  /-- The higher rank wins; among equal ranks the associativity, if there is only one. -/
  byRank (shift : List Action) : List Action :=
    let lower := begun.any fun i => i.rank.getD 0 < r.rank
    let higher := begun.any fun i => r.rank < i.rank.getD 0
    if lower && !higher then r.actions
    else if higher && !lower then shift
    else if !lower && !higher then
      if r.assocs.all (· == some .left) then r.actions
      else if r.assocs.all (· == some .right) then shift
      else r.actions ++ shift
    else r.actions ++ shift

/-- The actions of a state, given where tokens lead. -/
def actions (k : Kernel) (targets : Array (Option Nat)) (first : Bool) : Array (List Action) :=
  let items := k.map fun (i, tokens) => (p.item i, tokens)
  let complete := items.filter fun (i, _) => i.next.isNone
  let begun := items.filterMap fun (i, _) =>
    i.next.map fun c => (i, c.tokensIn p.items.firsts)
  let actionsOn (t : Nat) : List Action :=
    let here := complete.filter fun (_, tokens) => tokens.has t
    let target := targets.getD t none
    match here, target with
    | [], some s => [.shift s false]
    | [], none =>
      if first && t == p.tokenCount then (p.emptyText.map Action.reduce).toList
      else if p.comments.has t then [.extra] else []
    | here, target =>
      let r := here.foldl (fun (r : Reducing) (i, _) => r.add i) {}
      match target with
      | none => r.actions
      | some s => p.decide r s ((begun.filter fun (_, tokens) => tokens.has t).map (·.1))
          (here.map (·.1))
  ((List.range (p.tokenCount + 1)).map actionsOn).toArray

/-- Work out a state: locate its successors and note its actions. -/
def expand (b : Builder) (i : Nat) : Builder :=
  let k := b.kernels.getD i []
  let (targets, b) := (p.successors k).foldl
    (fun (acc : Array (Option Nat) × Builder) next =>
      if next.isEmpty then (acc.1.push none, acc.2)
      else
        let (s, b) := acc.2.locate next
        (acc.1.push (some s), b)) (Array.mkEmpty (p.tokenCount + p.ruleCount), b)
  let gotos := ((List.range p.ruleCount).filterMap fun v =>
    (targets.getD (p.tokenCount + v) none).map fun s => (v, s))
  let ofTokens := targets.extract 0 p.tokenCount
  { b with states := b.states.push ⟨p.actions k ofTokens (i == 1), gotos⟩ }

/-- Work out all states from a number on. -/
def expandAll : Nat → Nat → Builder → Builder
  | 0, _, b => b
  | fuel + 1, i, b => if i < b.kernels.size then expandAll fuel (i + 1) (p.expand b i) else b

end Plan

/-- The states of a grammar. State 0, which has no items, is the state of faulty text, and state 1
is the start. -/
def ofPlan (p : Plan) : Automaton :=
  let b : Builder :=
    { kernels := #[], numbers := {}, cores := #[], coreNumbers := {}, states := #[] }
  let (_, b) := b.locate []
  let (_, b) := b.locate [(Items.opening, .single p.tokenCount)]
  let b := { b with states := #[⟨Array.replicate (p.tokenCount + 1) [], []⟩] }
  let b := p.expandAll 1000000 1 b
  { states := b.states, cores := b.cores, coreCount := b.coreNumbers.size }

end Automaton

end CodeAtlas.Syntax
