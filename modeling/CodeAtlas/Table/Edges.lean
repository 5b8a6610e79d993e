import CodeAtlas.Table.Basic

/-!
# Edges in the table

Adding, replacing and dropping the edges of an owner. Every change keeps the count of edges per
target and owner in step.
-/

namespace CodeAtlas.Table

/-! ## Counting dependents -/

/-- Count one more edge of `owner` to `target` (`add_dependent`). -/
def addDependent (owner : String) (t : Table) (target : SymbolId) : Table :=
  let owners := t.dependents.getD target ∅
  { t with
    dependents := t.dependents.insert target (owners.insert owner (owners.getD owner 0 + 1)) }

/-- Count one edge of `owner` to `target` less (`release_dependent`); a count of zero is not
kept. -/
def releaseDependent (owner : String) (t : Table) (target : SymbolId) : Table :=
  let owners := t.dependents.getD target ∅
  let owners := owners.alter owner fun
    | some (n + 2) => some (n + 1)
    | _ => none
  { t with dependents :=
      if owners.isEmpty then t.dependents.erase target else t.dependents.insert target owners }

def setEdges (t : Table) (owner : String) (edges : List Edge) : Table :=
  { t with edges := if edges.isEmpty then t.edges.erase owner else t.edges.insert owner edges }

/-! ## Accepting edges -/

/-- Why an edge cannot be owned by `owner` (in `validate_edges`). -/
def edgeRefusal? (t : Table) (owner : String) (e : Edge) : Option AtlasError :=
  if e.owner != owner then
    some (.invalidSymbols owner ("edge located in " ++ e.owner ++ " cannot be owned here"))
  else if !t.ids.contains e.target then
    some (.tableCorruption
      (e.type.name ++ " edge from " ++ owner ++ " targets unknown id " ++ e.target.hex))
  else none

/-- A list of edges without an edge that equals the one before it (in `validate_edges`). -/
def dropRepeats : List Edge → List Edge
  | [] => []
  | e :: rest =>
    match dropRepeats rest with
    | [] => [e]
    | e' :: rest' => if e == e' then e :: rest' else e :: e' :: rest'

/-- The edges in order and without adjacent repeats, unless one of them is refused
(`validate_edges`). -/
def admitEdges (t : Table) (owner : String) (edges : List Edge) : Except AtlasError (List Edge) :=
  match edges.findSome? (t.edgeRefusal? owner) with
  | some e => .error e
  | none => .ok (dropRepeats (Edge.sort edges))

/-! ## Operations -/

/-- Replace the edges of an owner (`replace_edges`). -/
def replaceEdges (t : Table) (owner : String) (edges : List Edge) : Except AtlasError Table := do
  let edges ← t.admitEdges owner edges
  let previous := t.edgesOf owner
  let t := (edges.map (·.target)).foldl (addDependent owner) (t.setEdges owner edges)
  return (previous.map (·.target)).foldl (releaseDependent owner) t

/-- Add an edge to those of its owner, unless it is there already. -/
def appendEdge (owner : String) (t : Table) (e : Edge) : Table :=
  let existing := t.edgesOf owner
  if existing.any (· == e) then t
  else (t.setEdges owner (existing ++ [e])).addDependent owner e.target

/-- Add edges to those of an owner (`append_edges`). -/
def appendEdges (t : Table) (owner : String) (edges : List Edge) : Except AtlasError Table := do
  let edges ← t.admitEdges owner edges
  if edges.isEmpty then return t
  let t := edges.foldl (appendEdge owner) t
  return t.setEdges owner (Edge.sort (t.edgesOf owner))

/-- Delete the edges of an owner (`clear_edges`). -/
def clearEdges (t : Table) (owner : String) : Table :=
  ((t.edgesOf owner).map (·.target)).foldl (releaseDependent owner) (t.setEdges owner [])

/-- Delete the edges of an owner that target one of `targets` (`remove_edges_targeting`). -/
def dropEdgesTo (targets : IdSet) (t : Table) (owner : String) : Table :=
  let edges := t.edgesOf owner
  let (dropped, kept) := edges.partition fun e => targets.contains e.target
  (dropped.map (·.target)).foldl (releaseDependent owner) (t.setEdges owner kept)

end CodeAtlas.Table
