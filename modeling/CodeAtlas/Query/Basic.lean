import CodeAtlas.Table.Symbols

/-!
# Questions to the graph

Where a name is defined, what refers to a symbol, which edges are doubtful, and how large the graph
is. Answers spell symbols out by their fully-qualified names.
-/

namespace CodeAtlas

/-- Where and what a symbol is. -/
structure SymbolInfo where
  fqn : String
  name : String
  kind : SymbolKind
  file : String
  line : UInt32
  column : UInt32
  deriving DecidableEq, Repr, Inhabited

def Symbol.info (s : Symbol) : SymbolInfo :=
  { fqn := s.fqn, name := s.name, kind := s.kind, file := s.file, line := s.line
    column := s.column }

/-- An edge with both ends spelled out. -/
structure EdgeInfo where
  type : EdgeType
  source : String
  target : String
  confidence : Float
  file : String
  line : UInt32
  dynamic : Bool
  deriving Repr, Inhabited

/-- The edges into a symbol (`ReferencesResult`). -/
structure References where
  symbol : SymbolInfo
  edges : List EdgeInfo
  deriving Repr, Inhabited

structure GraphSize where
  files : Nat
  symbols : Nat
  placeholders : Nat
  edges : Nat
  deriving DecidableEq, Repr, Inhabited

namespace Table

/-- The fully-qualified name of an identifier, or the identifier itself. -/
def label (t : Table) (id : SymbolId) : String :=
  match SymbolLookup.findId? t id with
  | some s => s.fqn
  | none => id.hex

/-- Spell an edge out (`describe`). -/
def describe (t : Table) (e : Edge) : EdgeInfo :=
  { type := e.type, source := t.label e.source, target := t.label e.target
    confidence := e.confidence, file := e.owner, line := e.line, dynamic := e.isDynamic }

/-- The definition with a fully-qualified name, or else all definitions with a short name
(`definition`). -/
def definitions (t : Table) (name : String) : List SymbolInfo :=
  match SymbolLookup.findDefined? t name with
  | some s => [s.info]
  | none =>
    (((SymbolLookup.named t name).filter fun s => !s.isExternal).map Symbol.info).mergeSort
      fun a b => compare a.fqn b.fqn != .gt

/-- The edges into the symbol with a name (`references`). -/
def references? (t : Table) (fqn : String) : Option References :=
  (SymbolLookup.findFqn? t fqn).map fun s =>
    { symbol := s.info
      edges := (t.allEdges.filter fun e => e.target == s.id).map t.describe }

/-- The place of a number in the order of all floating-point numbers, `-0` before `0`. -/
def scoreRank (x : Float) : Nat :=
  let bits := x.toBits.toNat
  if bits < 1 <<< 63 then (1 <<< 63) + bits else UInt64.size - 1 - bits

/-- Whether `a` may be listed before `b`: by score, file and line. -/
def listedBefore (a b : EdgeInfo) : Bool :=
  ((compare (scoreRank a.confidence) (scoreRank b.confidence)).then <|
    (compare a.file b.file).then (compare a.line b.line)) != .gt

/-- The edges with a score below `threshold`, the lowest first (`low_confidence`). -/
def lowConfidence (t : Table) (threshold : Float) : List EdgeInfo :=
  ((t.allEdges.filter fun e => e.confidence < threshold).map t.describe).mergeSort listedBefore

/-- The numbers of symbols and edges (`summary`). -/
def graphSize (t : Table) : GraphSize :=
  { files := t.filePaths.length, symbols := t.symbolCount, placeholders := t.externalCount
    edges := t.edgeCount }

end Table

end CodeAtlas
