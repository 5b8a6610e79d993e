import CodeAtlas.Syntax.Automaton
import CodeAtlas.Syntax.Rivalry

/-!
# Merging the states of a parser

States with the same core are merged as long as a parser cannot tell: they do the same with the
tokens they share, lead to states that are merged too, and a token that only one of them knows gets
in the way of no token of the other. States that only pass a rule on are left out.
-/

namespace CodeAtlas.Syntax

/-- The tokens on which a state acts; the end of the text counts as the last token. -/
def State.tokens (s : State) : BitSet :=
  (s.actions.foldl (fun (acc : Nat × BitSet) l =>
    (acc.1 + 1, if l.isEmpty then acc.2 else acc.2.insert acc.1)) (0, .empty)).2

/-- A partition of states: the states of each group, in order, and the group of each state. -/
structure Partition where
  groups : Array (List Nat)
  groupOf : Array Nat
  deriving Inhabited

namespace Partition

/-- Groups of states with the same core. -/
def ofCores (a : Automaton) : Partition :=
  { groups := (List.range a.cores.size).foldr (fun i (groups : Array (List Nat)) =>
      groups.modify (a.cores.getD i 0) (i :: ·)) (Array.replicate a.coreCount [])
    groupOf := a.cores }

/-- Whether two states are in one group. -/
def same (p : Partition) (s t : Nat) : Bool := p.groupOf.getD s 0 == p.groupOf.getD t 0

/-- The states that stay together and the states that leave: each state drives out those after it
from which it differs. -/
def divide (differs : Nat → Nat → Bool) : Nat → List Nat → List Nat × List Nat
  | 0, states => (states, [])
  | _, [] => ([], [])
  | fuel + 1, s :: rest =>
    let (leave, stay) := rest.partition (differs s)
    let (kept, later) := divide differs fuel stay
    (s :: kept, leave ++ later)

/-- Split the groups from a number on, new groups included, by whether states differ. -/
def splitFrom (differs : Partition → Nat → Nat → Bool) : Nat → Nat → Partition → Partition
  | 0, _, p => p
  | fuel + 1, i, p =>
    if i < p.groups.size then
      let group := p.groups.getD i []
      match divide (differs p) group.length group with
      | (_, []) => splitFrom differs fuel (i + 1) p
      | (kept, leave) =>
        let new := p.groups.size
        splitFrom differs fuel (i + 1)
          { groups := (p.groups.set! i kept).push leave
            groupOf := leave.foldl (fun (a : Array Nat) s => a.set! s new) p.groupOf }
    else p

/-- Split all groups by whether states differ. -/
def split (differs : Partition → Nat → Nat → Bool) (p : Partition) : Partition :=
  splitFrom differs (2 * p.groupOf.size + 1) 0 p

/-- Split until nothing changes. -/
def splitAll (differs : Partition → Nat → Nat → Bool) : Nat → Partition → Partition
  | 0, p => p
  | fuel + 1, p =>
    let q := p.split differs
    if q.groups.size == p.groups.size then p else splitAll differs fuel q

/-- Exchange two groups. -/
def exchange (p : Partition) (i j : Nat) : Partition :=
  { groups := p.groups.swapIfInBounds i j
    groupOf := p.groupOf.map fun g => if g == i then j else if g == j then i else g }

/-- The partition in which the groups of the first two states come first. -/
def withStartsFirst (p : Partition) : Partition :=
  let p := p.exchange 0 (p.groupOf.getD 0 0)
  p.exchange 1 (p.groupOf.getD 1 0)

end Partition

/-- What is known of states and tokens while states are merged. -/
structure Merging where
  states : Array State
  /-- The tokens of each state. -/
  tokens : Array BitSet
  /-- Where tokens and then rules lead from each state. -/
  successors : Array (List (Nat × Nat))
  /-- For each token those that it gets in the way of. -/
  blockers : Array BitSet
  /-- The numbers of all tokens. -/
  range : List Nat
  deriving Inhabited

namespace Merging

/-- For each token those whose presence keeps it out of a state. A keyword and the token of which
it is a special case never do. The end of the text counts like the first token. -/
def blockersOf (r : Rivalries) (word : Nat) (keywords : BitSet) : Array BitSet :=
  let blocks (t e : Nat) : Bool :=
    e != t && !((e == word && keywords.has t) || (t == word && keywords.has e)) && r.conflicts t e
  let all := List.range r.count
  let ofTokens := (all.map fun t => BitSet.ofList (all.filter (blocks t))).toArray
  ofTokens.push (.ofList (all.filter fun e => e != 0 && r.conflicts 0 e))

/-- Where a state leads on each token that is read and each rule that is finished. -/
def successorsOf (s : State) : List (Nat × Nat) :=
  let shifts := s.actions.toList.zipIdx.filterMap fun (l, t) =>
    match l.getLast? with
    | some (.shift target _) => some (t, target)
    | _ => none
  shifts ++ s.gotos.map fun (v, target) => (s.actions.size + v, target)

/-- Prepare merging. -/
def prepare (states : Array State) (r : Rivalries) (word : Nat) (keywords : BitSet) : Merging :=
  { states
    tokens := states.map State.tokens
    successors := states.map successorsOf
    blockers := blockersOf r word keywords
    range := List.range (r.count + 1) }

variable (m : Merging)

/-- Whether two lists of actions differ, states of one group being the same. -/
def actionsDiffer (p : Partition) : List Action → List Action → Bool
  | [], [] => false
  | .shift s r :: rest, .shift s' r' :: rest' =>
    r != r' || !p.same s s' || actionsDiffer p rest rest'
  | a :: rest, b :: rest' => a != b || actionsDiffer p rest rest'
  | _, _ => true

/-- Whether two states do different things with a token that they share, or one has a token that
gets in the way of the other. -/
def statesDiffer (p : Partition) (s t : Nat) : Bool :=
  let a := (m.states.getD s default).actions
  let b := (m.states.getD t default).actions
  let inA := m.tokens.getD s default
  let inB := m.tokens.getD t default
  m.range.any fun i =>
    match a.getD i [], b.getD i [] with
    | [], [] => false
    | [], _ => (m.blockers.getD i default).meets inA
    | _, [] => (m.blockers.getD i default).meets inB
    | x, y => actionsDiffer p x y

/-- Whether two lists of successors, in order, lead to different groups somewhere. -/
def leadApart (p : Partition) : List (Nat × Nat) → List (Nat × Nat) → Bool
  | [], _ => false
  | _, [] => false
  | (i, s) :: rest, (j, t) :: rest' =>
    if i < j then leadApart p rest ((j, t) :: rest')
    else if j < i then leadApart p ((i, s) :: rest) rest'
    else !p.same s t || leadApart p rest rest'
termination_by l l' => l.length + l'.length

/-- Whether two states lead to different groups. -/
def successorsDiffer (p : Partition) (s t : Nat) : Bool :=
  leadApart p (m.successors.getD s []) (m.successors.getD t [])

/-- The groups of states that can be merged. -/
def groups (cores : Partition) : Partition :=
  let p := cores.split m.statesDiffer
  (p.splitAll m.successorsDiffer (cores.groupOf.size + 1)).withStartsFirst

/-- An action with other numbers for states. -/
def renumber (f : Nat → Nat) : Action → Action
  | .shift s r => .shift (f s) r
  | a => a

/-- A state with other numbers for states. -/
def renumberState (f : Nat → Nat) (s : State) : State :=
  { actions := s.actions.map fun l => l.map (renumber f)
    gotos := s.gotos.map fun (v, t) => (v, f t) }

/-- One state in place of all states of a group. -/
def mergeGroup (p : Partition) (group : List Nat) : State :=
  let merged := group.foldl (fun (acc : Array (List Action) × Std.HashMap Nat Nat) i =>
    let s := m.states.getD i default
    (acc.1.mapIdx fun t old =>
      match s.actions.getD t [] with
      | [] => old
      | new => new,
     s.gotos.foldl (fun (g : Std.HashMap Nat Nat) (v, t) => g.insert v t) acc.2))
    (Array.replicate m.range.length [], {})
  renumberState (fun s => p.groupOf.getD s 0)
    ⟨merged.1, merged.2.toList.mergeSort fun a b => a.1 ≤ b.1⟩

/-- One state for each group. -/
def merge (p : Partition) : Array State := p.groups.map (m.mergeGroup p)

end Merging

/-! ## States that only pass a rule on -/

/-- The rule that a state passes on, if it does nothing else, whatever the token. -/
def State.passesOn? (passable : Nat → Option Nat) (s : State) : Option Nat :=
  let rules := s.actions.toList.flatMap fun l => l.filterMap fun a =>
    match a with
    | .extra => none
    | .reduce r => some (passable r)
    | _ => some none
  match rules with
  | some v :: rest => if rest.all (· == some v) then some v else none
  | _ => none

/-- A state with successors in place of those that only pass a rule on. -/
def State.skipPassing (passing : Array (Option Nat)) (s : State) : State :=
  Merging.renumberState (go passing.size) s
where
  /-- The state that is reached after passing on at most so many rules. -/
  go : Nat → Nat → Nat
    | 0, t => t
    | fuel + 1, t =>
      match passing.getD t none with
      | none => t
      | some v =>
        match s.gotos.lookup v with
        | some next => go fuel next
        | none => t

/-- Where a state leads. -/
def State.targets (s : State) : List Nat :=
  s.actions.toList.flatMap (fun l => l.filterMap fun a =>
    match a with
    | .shift t _ => some t
    | _ => none) ++ s.gotos.map (·.2)

/-- The states that can be reached from some states. -/
def reachable (states : Array State) : Nat → List Nat → Array Bool → Array Bool
  | 0, _, seen => seen
  | _, [], seen => seen
  | fuel + 1, i :: rest, seen =>
    let (rest, seen) := ((states.getD i default).targets).foldl
      (fun (acc : List Nat × Array Bool) t =>
        if acc.2.getD t true then acc else (t :: acc.1, acc.2.set! t true)) (rest, seen)
    reachable states fuel rest seen

/-- The states that can be reached from the first two, numbered anew. -/
def onlyReachable (states : Array State) : Array State :=
  let seen := reachable states (states.size + 1) [0, 1]
    (((Array.replicate states.size false).set! 0 true).set! 1 true)
  let numbers := (seen.foldl (fun (acc : Array Nat × Nat) used =>
    (acc.1.push acc.2, if used then acc.2 + 1 else acc.2)) (#[], 0)).1
  (states.zip seen).filterMap fun (s, used) =>
    if used then some (Merging.renumberState (fun t => numbers.getD t 0) s) else none

/-- Number of tokens and rules with which a state goes on. -/
def State.extent (s : State) : Nat := s.actions.countP (!·.isEmpty) + s.gotos.length

/-- The states in order of size, the largest first, except that the first two stay where they are;
numbered anew. What is given out to states in turn, such as modes, is so shaped by the largest. -/
def largestFirst (states : Array State) : Array State :=
  let extents := states.map State.extent
  let order := [0, 1] ++ ((List.range states.size).drop 2).mergeSort fun i j =>
    extents.getD j 0 ≤ extents.getD i 0
  let numbers := order.zipIdx.foldl (fun (numbers : Array Nat) (old, new) => numbers.set! old new)
    (Array.replicate states.size 0)
  (order.map fun i =>
    Merging.renumberState (fun t => numbers.getD t 0) (states.getD i default)).toArray

end CodeAtlas.Syntax
