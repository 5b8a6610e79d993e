import CodeAtlas.Syntax.Subtree

/-!
# The stack of a parser

A parser that tries several readings of a text has several branches, and branches that meet share
the rest of the way. So the stack is a graph: every node is a state at a spot of the text, and its
links lead to earlier nodes, each over a subtree. Nodes are numbered in the order in which they are
made.
-/

namespace CodeAtlas.Syntax

/-- A way back from a node, over a subtree. Where faulty text begins there is no subtree. -/
structure Link where
  node : Nat
  subtree : Option Subtree
  deriving Inhabited

/-- A state at a spot of the text. -/
structure StackNode where
  state : Nat
  links : List Link := []
  place : Extent := {}
  /-- What the faults on the way cost. -/
  cost : Nat := 0
  weight : Int := 0
  /-- Number of tree nodes on the way, as a measure of progress. -/
  progress : Nat := 0
  deriving Inhabited

/-- What is to be done with a branch. -/
inductive Status where
  | active
  /-- The branch met a token with which it can do nothing. -/
  | paused (token : Subtree)
  | halted
  deriving Inhabited

namespace Status

def isActive : Status → Bool
  | active => true
  | _ => false

def isPaused : Status → Bool
  | paused _ => true
  | _ => false

def isHalted : Status → Bool
  | halted => true
  | _ => false

end Status

/-- A state that a branch was in: where, how many subtrees ago, and which. -/
structure Footprint where
  place : Extent
  depth : Nat
  state : Nat
  deriving Repr, Inhabited

/-- A reading of the text so far. -/
structure Branch where
  node : Nat
  /-- Progress at the last fault. -/
  progressAtFault : Nat := 0
  status : Status := .active
  /-- The states to which the branch can go back after a fault. -/
  trail : Option (List Footprint) := none
  deriving Inhabited

/-- The stack of a parser. -/
structure Stack where
  nodes : Array StackNode
  branches : Array Branch
  deriving Inhabited

namespace Stack

/-- The most links that a node has. -/
def maxLinks : Nat := 8

/-- The most paths that are followed at once. -/
def maxPaths : Nat := 64

/-- A stack with one branch, in the start state. -/
def start : Stack := { nodes := #[{ state := 1 }], branches := #[{ node := 0 }] }

variable (s : Stack)

def branch (v : Nat) : Branch := s.branches.getD v default

def nodeAt (i : Nat) : StackNode := s.nodes.getD i default

def top (v : Nat) : StackNode := s.nodeAt (s.branch v).node

def state (v : Nat) : Nat := (s.top v).state

/-- Where in the text a branch is. -/
def place (v : Nat) : Extent := (s.top v).place

def isActive (v : Nat) : Bool := (s.branch v).status.isActive

def onBranch (v : Nat) (f : Branch → Branch) (s : Stack) : Stack :=
  let { nodes, branches } := s
  { nodes, branches := branches.modify v f }

def remove (v : Nat) (s : Stack) : Stack :=
  let { nodes, branches } := s
  { nodes, branches := branches.eraseIdxIfInBounds v }

def halt (v : Nat) (s : Stack) : Stack := s.onBranch v fun b => { b with status := .halted }

/-- Go on from the top of a branch over a subtree to a state. -/
def push (v : Nat) (subtree : Option Subtree) (state : Nat) (s : Stack) : Stack :=
  let b := s.branch v
  let below := s.nodeAt b.node
  let link : Link := ⟨b.node, subtree⟩
  let node : StackNode := match subtree with
    | some t =>
      { state, links := [link]
        place := below.place + t.total
        cost := below.cost + t.cost
        weight := below.weight + t.part.weight
        progress := below.progress + t.progress }
    | none => { below with state, links := [link] }
  let { nodes, branches } := s
  let i := nodes.size
  { nodes := nodes.push node
    branches := branches.modify v fun b =>
      { b with
        node := i
        progressAtFault := if subtree.isNone then node.progress else b.progressAtFault } }

/-- What the faults of a branch cost. A branch that waits, or has just come to faulty text, has one
more to come. -/
def cost (v : Nat) : Nat :=
  let node := s.top v
  let atFault := node.state == 0 && (match node.links with
    | link :: _ => link.subtree.isNone
    | [] => false)
  if (s.branch v).status.isPaused || atFault then node.cost + Cost.recovery else node.cost

/-- Note that a branch that lost progress starts from there. -/
def noteProgress (v : Nat) (s : Stack) : Stack :=
  let progress := (s.top v).progress
  s.onBranch v fun b => { b with progressAtFault := min b.progressAtFault progress }

/-- Progress since the last fault. -/
def progressSince (v : Nat) : Nat := (s.top v).progress - (s.branch v).progressAtFault

/-- Add a branch, and give its number. -/
def addBranch (b : Branch) (s : Stack) : Nat × Stack :=
  let { nodes, branches } := s
  (branches.size, { nodes, branches := branches.push b })

/-- Put one branch in the place of another. The trail is kept. -/
def replace (new old : Nat) (s : Stack) : Stack :=
  if new == old then s
  else
    let b := s.branch new
    let trail := b.trail.or (s.branch old).trail
    (s.onBranch old fun _ => { b with trail }).remove new

/-! ## Joining branches -/

/-- Whether two nodes stand for the same state at the same spot, at the same cost. -/
def sameSpot (a b : StackNode) : Bool :=
  a.state == b.state && a.place.bytes == b.place.bytes && a.cost == b.cost

/-- Add a link to a node. A link that is there already is only kept once, and if two links over
equal subtrees lead to nodes for the same spot, those nodes are joined. -/
def addLink : Nat → Nat → Link → Array StackNode → Array StackNode
  | 0, _, _, nodes => nodes
  | fuel + 1, i, link, nodes =>
    if link.node == i then nodes
    else
      let node := nodes.getD i default
      let other := nodes.getD link.node default
      let weight := other.weight + ((link.subtree.map (·.part.weight)).getD 0)
      let meets (e : Link) : Bool :=
        Subtree.equivalent e.subtree link.subtree &&
          (e.node == link.node || sameSpot (nodes.getD e.node default) other)
      match node.links.findIdx? meets with
      | some k =>
        let e := node.links.getD k default
        if e.node == link.node then
          let old := (e.subtree.map (·.part.weight)).getD 0
          if old < (link.subtree.map (·.part.weight)).getD 0 then
            nodes.modify i fun n => { n with links := n.links.set k link, weight }
          else nodes
        else
          let nodes := other.links.foldl (fun nodes l => addLink fuel e.node l nodes) nodes
          nodes.modify i fun n => { n with weight := max n.weight weight }
      | none =>
        if node.links.length == maxLinks then nodes
        else
          let progress := other.progress + ((link.subtree.map (·.progress)).getD 0)
          nodes.modify i fun n =>
            { n with
              links := n.links ++ [link]
              progress := max n.progress progress
              weight := max n.weight weight }

def canMerge (v w : Nat) : Bool :=
  s.isActive v && s.isActive w && sameSpot (s.top v) (s.top w)

/-- Join the second of two branches that can be joined to the first. -/
def merge (v w : Nat) (s : Stack) : Stack :=
  let i := (s.branch v).node
  let links := (s.top w).links
  let { nodes, branches } := s
  let nodes := links.foldl (fun nodes l => addLink nodes.size i l nodes) nodes
  let node := nodes.getD i default
  let branches := branches.modify v fun b =>
    { b with progressAtFault := if node.state == 0 then node.progress else b.progressAtFault }
  { nodes, branches := branches.eraseIdxIfInBounds w }

/-- The first of some branches to which a branch can be joined. -/
def mergeTarget? (candidates : List Nat) (w : Nat) : Option Nat :=
  candidates.find? fun v => s.canMerge v w

/-! ## Ways back -/

/-- A way back from the top of a branch: where it leads, the subtrees on it in the order of the
text, and how many of them count. -/
structure Path where
  node : Nat
  subtrees : List Subtree := []
  depth : Nat := 0
  deriving Inhabited

/-- The way over one more link. -/
def Path.over (p : Path) (link : Link) : Path :=
  match link.subtree with
  | some t => ⟨link.node, t :: p.subtrees, if t.isExtra then p.depth else p.depth + 1⟩
  | none => ⟨link.node, p.subtrees, p.depth + 1⟩

/-- Take each path that does not stop one step further. Where links part, the first one is followed
in place and the others come after all paths, as long as there are not too many. -/
def advance (stops : Path → Bool) (paths : List Path) : List Path :=
  let (kept, added, _) := paths.foldl (fun (acc : List Path × List Path × Nat) p =>
    let (kept, added, total) := acc
    if stops p then (kept, added, total - 1)
    else
      match (s.nodeAt p.node).links with
      | [] => (kept, added, total - 1)
      | first :: others =>
        let (added, total) := others.foldl (fun (acc : List Path × Nat) link =>
          if maxPaths ≤ acc.2 then acc else (p.over link :: acc.1, acc.2 + 1)) (added, total)
        (p.over first :: kept, added, total)) ([], [], paths.length)
  kept.reverse ++ added.reverse

/-- All ways back that end where `ends` says. -/
def pathsWhere (ends : Path → Bool) : Nat → List Path → List Path
  | 0, _ => []
  | _, [] => []
  | fuel + 1, paths => paths.filter ends ++ pathsWhere ends fuel (s.advance ends paths)

/-- Ways back to one node. -/
structure Slice where
  node : Nat
  /-- The subtrees of each way, of which there is at least one. -/
  first : List Subtree
  others : List (List Subtree)
  deriving Inhabited

/-- Put ways back to the same node together. -/
def slicesOf (paths : List Path) : List Slice :=
  paths.foldl (fun (slices : List Slice) p =>
    if slices.any (·.node == p.node) then
      slices.map fun t =>
        if t.node == p.node then { t with others := t.others ++ [p.subtrees] } else t
    else slices ++ [⟨p.node, p.subtrees, []⟩]) []

/-- The ways back over so many subtrees. -/
def pop (v count : Nat) : List Slice :=
  slicesOf (s.pathsWhere (fun p => p.depth == count) (s.nodes.size + 1)
    [{ node := (s.branch v).node }])

/-- The ways back to the start. -/
def popAll (v : Nat) : List Slice :=
  slicesOf (s.pathsWhere (fun p => (s.nodeAt p.node).links.isEmpty) (s.nodes.size + 1)
    [{ node := (s.branch v).node }])

/-- The states on the ways back over at most so many subtrees, without repetitions. -/
def footprints (maxDepth : Nat) : Nat → List Path → List Footprint → List Footprint
  | 0, _, found => found
  | _, [], found => found
  | fuel + 1, paths, found =>
    let found := paths.foldl (fun (found : List Footprint) p =>
      let node := s.nodeAt p.node
      if maxDepth < p.depth
          || (found.takeWhile fun f => p.depth ≤ f.depth).any (fun f =>
            f.depth == p.depth && f.state == node.state) then found
      else ⟨node.place, p.depth, node.state⟩ :: found) found
    footprints maxDepth fuel (s.advance (fun p => maxDepth < p.depth) paths) found

/-- Note the states to which a branch can go back. -/
def noteTrail (v maxDepth : Nat) (s : Stack) : Stack :=
  let found := s.footprints maxDepth (s.nodes.size + 1) [{ node := (s.branch v).node }] []
  s.onBranch v fun b => { b with trail := some found.reverse }

end Stack

end CodeAtlas.Syntax
