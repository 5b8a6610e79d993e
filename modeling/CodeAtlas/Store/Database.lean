import CodeAtlas.Store.Rows

/-!
# A store of rows

Three tables of rows: files by path, nodes by identifier, edges in order of arrival. Without its
tables every access fails.
-/

namespace CodeAtlas

/-- Why a database gives no answer. -/
inductive DatabaseError where
  | noTable (name : String)
  | badRow (error : RowError)
  deriving DecidableEq, Repr, Inhabited

def DatabaseError.message : DatabaseError → String
  | noTable name => "no such table: " ++ name
  | badRow e => e.message

/-- The numbers of rows of a stored graph (`GraphStats`). -/
structure DatabaseSize where
  files : Nat
  failedFiles : Nat
  nodes : Nat
  placeholders : Nat
  edges : Nat
  deriving DecidableEq, Repr, Inhabited

/-- What a later run needs of a stored graph. -/
structure StoredState where
  records : List FileRecord := []
  placeholders : List Symbol := []
  edges : List Edge := []
  deriving Inhabited

/-- A store of rows. -/
structure Database where
  /-- Whether the tables exist. -/
  hasTables : Bool := false
  files : SortedMap String FileRow := ∅
  /-- Nodes with distinct identifiers, in order of arrival. -/
  nodes : List NodeRow := []
  /-- Edges in order of arrival. -/
  edges : List EdgeRow := []
  deriving Inhabited

namespace Database

/-- Create the tables unless they exist (`init_schema`). -/
def createTables (d : Database) : Database := { d with hasTables := true }

/-! ## Writing -/

/-- Drop all rows of a file (in `apply_batch`). -/
def retract (d : Database) (file : String) : Database :=
  { d with
    nodes := d.nodes.filter fun r => r.file != file
    edges := d.edges.filter fun r => r.owner != file }

def dropNode (d : Database) (id : SymbolId) : Database :=
  { d with nodes := d.nodes.filter fun r => r.id != id.hex }

/-- Write a node in place of one of the same identifier (in `apply_batch`). -/
def putNode (d : Database) (s : Symbol) : Database :=
  { d with nodes := (d.nodes.filter fun r => r.id != s.id.hex) ++ [.ofSymbol s] }

/-- A number as a column keeps it, which does not tell the two zeros apart. -/
def storedNumber (x : Float) : Float := if x == 0.0 then 0.0 else x

def putEdge (d : Database) (e : Edge) : Database :=
  let row := EdgeRow.ofEdge e
  { d with edges := d.edges ++ [{ row with confidence := storedNumber row.confidence }] }

/-- The rows after a batch (`apply_batch`). -/
def apply (d : Database) (b : Batch) : Database :=
  let d := b.retract.foldl retract d
  let d := b.dropNodes.foldl dropNode d
  let d := b.nodes.foldl putNode d
  b.edges.foldl putEdge d

def putFile (d : Database) (r : FileRecord) : Database :=
  { d with files := d.files.insert r.path (.ofRecord r) }

def dropFile (d : Database) (path : String) : Database :=
  { d with files := d.files.erase path }

instance : Sink Database where
  write b d :=
    if d.hasTables then (.ok (), d.apply b)
    else (.error (.storage (DatabaseError.noTable "nodes").message), d)
  save records removed d :=
    if d.hasTables then (.ok (), removed.foldl dropFile (records.foldl putFile d))
    else (.error (.storage (DatabaseError.noTable "files").message), d)

/-! ## Reading -/

/-- An answer from a table, if it exists. -/
def ask {α : Type} (d : Database) (table : String) (answer : α) : Except DatabaseError α :=
  if d.hasTables then .ok answer else .error (.noTable table)

def readRows {ρ α : Type} (read : ρ → Except RowError α) (rows : List ρ) :
    Except DatabaseError (List α) :=
  (rows.mapM read).mapError .badRow

/-- The nodes of a kind of row, ordered by fully-qualified name (`node_rows`). -/
def nodeRows (d : Database) (p : NodeRow → Bool) : Except DatabaseError (List NodeRow) :=
  d.ask "nodes" ((d.nodes.filter p).mergeSort fun a b => compare a.fqn b.fqn != .gt)

/-- The edges, ordered by owner (`edge_rows`). -/
def edgeRows (d : Database) : Except DatabaseError (List EdgeRow) :=
  d.ask "edges" (d.edges.mergeSort fun a b => compare a.owner b.owner != .gt)

/-- All that a later run needs (`load_state`). -/
def load (d : Database) : Except DatabaseError StoredState := do
  let records ← readRows FileRow.toRecord (← d.ask "files" d.files.values)
  let placeholders ← readRows NodeRow.toSymbol
    (← d.nodeRows fun r => r.kind == SymbolKind.external.name)
  let edges ← readRows EdgeRow.toEdge (← d.edgeRows)
  return { records, placeholders, edges }

/-- The node with a fully-qualified name (`get_node`). -/
def node? (d : Database) (fqn : String) : Except DatabaseError (Option Symbol) := do
  let rows ← d.nodeRows fun r => r.fqn == fqn
  return (← readRows NodeRow.toSymbol (rows.take 1)).head?

/-- The nodes of a file (`nodes_in_file`). -/
def nodesInFile (d : Database) (path : String) : Except DatabaseError (List Symbol) := do
  readRows NodeRow.toSymbol (← d.nodeRows fun r => r.file == path)

/-- The written state of a file (`file_state`). -/
def fileState? (d : Database) (path : String) : Except DatabaseError (Option String) :=
  d.ask "files" ((d.files.get? path).map (·.state))

/-- The numbers of rows (`stats`). -/
def size (d : Database) : Except DatabaseError DatabaseSize :=
  d.ask "files"
    { files := d.files.size
      failedFiles := (d.files.values.filter fun r => r.state == FileState.failed.name).length
      nodes := d.nodes.length
      placeholders := (d.nodes.filter fun r => r.kind == SymbolKind.external.name).length
      edges := d.edges.length }

end Database

end CodeAtlas
