import CodeAtlas.Json.Parser
import CodeAtlas.Sketch.Codec
import CodeAtlas.Store.Batch

/-!
# Rows

Records, symbols and edges as rows of plain columns. Names of kinds are texts, sketches and metadata
are JSON texts, and timestamps are written out. Reading a row back can fail; `RowError` says why.
-/

namespace CodeAtlas

/-- Why a row cannot be read. -/
inductive RowError where
  | badState (path : String)
  | badTimestamp (path : String)
  | badSketches (path : String)
  | unknownKind (name : String)
  | badNodeMetadata (fqn : String)
  | unknownEdgeType (name : String)
  | badEdgeMetadata (owner : String)
  deriving DecidableEq, Repr, Inhabited

def RowError.message : RowError → String
  | badState path => "Bad state for " ++ path
  | badTimestamp path => "Bad timestamp for " ++ path
  | badSketches path => "Bad sketches for " ++ path
  | unknownKind name => SymbolKind.unknownMessage name
  | badNodeMetadata fqn => "Bad metadata for node " ++ fqn
  | unknownEdgeType name => EdgeType.unknownMessage name
  | badEdgeMetadata owner => "Bad metadata for edge owned by " ++ owner

/-- The value, or an error in its absence. -/
def RowError.orElse {α : Type} (o : Option α) (e : RowError) : Except RowError α :=
  match o with
  | some a => .ok a
  | none => .error e

def Metadata.render (m : Metadata) : String := (Json.ofMetadata m).compact

def Metadata.parse? (s : String) : Option Metadata := 
  (Json.Written.parse? s).bind (Json.Written.metadata? Json.maxLevels)

/-! ## Files -/

structure FileRow where
  path : String
  language : String
  contentHash : String
  state : String
  resolvedAt : Option String
  seq : Int64
  /-- JSON text. -/
  sketches : Option String
  deriving DecidableEq, Repr, Inhabited

namespace FileRow

/-- The row of a record (`from_record`). -/
def ofRecord (r : FileRecord) : FileRow where
  path := r.path
  language := r.language
  contentHash := r.fingerprint
  state := r.state.name
  resolvedAt := r.resolvedAt.map Timestamp.render
  seq := .ofNat r.seq
  sketches := r.sketches.map fun s => s.toJson.compact

/-- An optional column, read by a function that may fail. -/
def optional {α : Type} (f : String → Option α) (e : RowError) :
    Option String → Except RowError (Option α)
  | none => .ok none
  | some s => (RowError.orElse (f s) e).map some

/-- The record of a row (`into_record`). A negative place in the order counts as the first. -/
def toRecord (r : FileRow) : Except RowError FileRecord := do
  let state ← RowError.orElse (FileState.ofName? r.state) (.badState r.path)
  let resolvedAt ← optional Timestamp.parse? (.badTimestamp r.path) r.resolvedAt
  let sketches ← optional (fun s => (Json.Written.parse? s).bind FileSketch.ofWritten?)
    (.badSketches r.path) r.sketches
  return { path := r.path, language := r.language, fingerprint := r.contentHash, state
           resolvedAt, seq := r.seq.toInt.toNat, sketches }

end FileRow

/-! ## Nodes -/

structure NodeRow where
  id : String
  fqn : String
  name : String
  kind : String
  file : String
  line : UInt32
  column : UInt32
  moduleName : Option String
  exported : Bool
  /-- JSON text. -/
  metadata : String
  deriving DecidableEq, Repr, Inhabited

namespace NodeRow

/-- The row of a symbol (`from_symbol`). -/
def ofSymbol (s : Symbol) : NodeRow where
  id := s.id.hex
  fqn := s.fqn
  name := s.name
  kind := s.kind.name
  file := s.file
  line := s.line
  column := s.column
  moduleName := s.moduleName
  exported := s.exported
  metadata := s.metadata.render

/-- The symbol of a row (`into_symbol`). -/
def toSymbol (r : NodeRow) : Except RowError Symbol := do
  let kind ← RowError.orElse (SymbolKind.ofName? r.kind) (.unknownKind r.kind)
  let metadata ← RowError.orElse (Metadata.parse? r.metadata) (.badNodeMetadata r.fqn)
  return { id := ⟨r.id⟩, fqn := r.fqn, name := r.name, kind, file := r.file, line := r.line
           column := r.column, moduleName := r.moduleName, exported := r.exported, metadata }

end NodeRow

/-! ## Edges -/

structure EdgeRow where
  owner : String
  edgeType : String
  source : String
  target : String
  confidence : Float
  line : UInt32
  /-- JSON text. -/
  metadata : String
  deriving Repr, Inhabited

namespace EdgeRow

/-- The row of an edge (`from_edge`). -/
def ofEdge (e : Edge) : EdgeRow where
  owner := e.owner
  edgeType := e.type.name
  source := e.source.hex
  target := e.target.hex
  confidence := e.confidence
  line := e.line
  metadata := e.metadata.render

/-- The edge of a row (`into_edge`). -/
def toEdge (r : EdgeRow) : Except RowError Edge := do
  let type ← RowError.orElse (EdgeType.ofName? r.edgeType) (.unknownEdgeType r.edgeType)
  let metadata ← RowError.orElse (Metadata.parse? r.metadata) (.badEdgeMetadata r.owner)
  return { Edge.ofScore type ⟨r.source⟩ ⟨r.target⟩ r.confidence r.owner r.line with metadata }

end EdgeRow

end CodeAtlas
