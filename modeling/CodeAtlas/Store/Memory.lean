import CodeAtlas.Store.Batch
import CodeAtlas.Table.Basic

/-!
# A store in memory
-/

namespace CodeAtlas

/-- A store that keeps values as they are (`MemorySink`). -/
structure MemoryStore where
  nodes : SortedMap SymbolId Symbol := ∅
  /-- Owner to its edges, in order of arrival. -/
  edges : SortedMap String (List Edge) := ∅
  /-- The number of batches taken. -/
  batches : Nat := 0
  savedFiles : StringSet := ∅
  /-- The number of batches still to be refused. -/
  rejections : Nat := 0
  deriving Inhabited

namespace MemoryStore

/-- Drop all rows of a file (in `write_batch`). -/
def retract (s : MemoryStore) (file : String) : MemoryStore :=
  { s with
    nodes := s.nodes.filter fun _ node => node.file != file
    edges := s.edges.erase file }

def dropNode (s : MemoryStore) (id : SymbolId) : MemoryStore :=
  { s with nodes := s.nodes.erase id }

/-- Write a node over one of the same identifier (in `write_batch`). -/
def putNode (s : MemoryStore) (node : Symbol) : MemoryStore :=
  { s with nodes := s.nodes.insert node.id node }

/-- Write an edge behind those of its owner (in `write_batch`). -/
def putEdge (s : MemoryStore) (e : Edge) : MemoryStore :=
  { s with edges := s.edges.insert e.owner (s.edges.getD e.owner [] ++ [e]) }

/-- The rows after a batch (in `write_batch`). -/
def apply (s : MemoryStore) (b : Batch) : MemoryStore :=
  let s := b.retract.foldl retract s
  let s := b.dropNodes.foldl dropNode s
  let s := b.nodes.foldl putNode s
  b.edges.foldl putEdge s

/-- Every edge, by owner and arrival (`all_edges`). -/
def allEdges (s : MemoryStore) : List Edge := s.edges.values.flatten

def edgeCount (s : MemoryStore) : Nat := s.allEdges.length

instance : Sink MemoryStore where
  write b s :=
    match s.rejections with
    | n + 1 => (.error (.rejected "injected failure"), { s with rejections := n })
    | 0 => (.ok (), { s.apply b with batches := s.batches + 1 })
  save records removed s :=
    let saved := s.savedFiles.addAll (records.map (·.path))
    (.ok (), { s with savedFiles := removed.foldl SortedMap.erase saved })

end MemoryStore

end CodeAtlas
