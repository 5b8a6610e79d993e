import CodeAtlas.Edge
import CodeAtlas.Error
import CodeAtlas.Table.Lookup

/-!
# The symbol table

The one place that knows every symbol and edge of the project, with its indexes: identifiers, short
names, the files with what they define, definitions that another file shadows, declared namespaces,
the edges of every file, and how many edges of which file target a symbol.

A `Snapshot` is a table's symbols frozen for look-ups.
-/

namespace CodeAtlas

/-- A finite set of identifiers, listed in order. -/
abbrev IdSet := SortedMap SymbolId Unit

def IdSet.union (a b : IdSet) : IdSet := a.insertAll b.entries

def IdSet.ofList (l : List SymbolId) : IdSet := SortedMap.ofList (l.map fun id => (id, ()))

/-- What a file defines. -/
structure FileEntry where
  fqns : List String := []
  moduleName : Option String := none
  deriving DecidableEq, Repr, Inhabited

/-- Every known symbol and edge (`SymbolTable`). -/
structure Table where
  /-- Fully-qualified name to current symbol. -/
  symbols : SortedMap String Symbol := ∅
  /-- Identifier to fully-qualified name. -/
  ids : SortedMap SymbolId String := ∅
  /-- Short name to fully-qualified names. -/
  names : SortedMap String StringSet := ∅
  files : SortedMap String FileEntry := ∅
  /-- Definitions that a later one of the same name hides, the latest first. -/
  shadowed : SortedMap String (List Symbol) := ∅
  /-- Declared namespace to the files that declare it. -/
  modules : SortedMap String StringSet := ∅
  /-- Owner to its edges, in order; an owner without edges has no entry. -/
  edges : SortedMap String (List Edge) := ∅
  /-- Target to owner to number of edges. -/
  dependents : SortedMap SymbolId (SortedMap String Nat) := ∅
  diagnostics : List Diagnostic := []
  deriving Inhabited

namespace Table

def empty : Table := {}

/-! ## Look-ups -/

/-- The symbols of a set of names that are present. -/
def symbolsNamed (t : Table) (fqns : List String) : List Symbol := fqns.filterMap t.symbols.get?

instance : SymbolLookup Table where
  findFqn? t fqn := t.symbols.get? fqn
  findId? t id := (t.ids.get? id).bind t.symbols.get?
  named t name := t.symbolsNamed (t.names.getD name ∅).toList

/-- Whether `a` stands before `b` in a file: by line, column and name. -/
def standsBefore (a b : Symbol) : Bool :=
  ((compare a.line b.line).then <| (compare a.column b.column).then (compare a.fqn b.fqn)) != .gt

/-- The current symbols of a file, in order of their places (`symbols_in_file`). -/
def symbolsInFile (t : Table) (file : String) : List Symbol :=
  let fqns := (t.files.getD file {}).fqns
  ((t.symbolsNamed fqns).filter fun s => s.file == file).mergeSort standsBefore

/-- Every symbol, ordered by fully-qualified name (`all_symbols`). -/
def allSymbols (t : Table) : List Symbol := t.symbols.values

/-- The files that own an edge to a symbol (`reverse_dependents`). -/
def dependentFiles (t : Table) (id : SymbolId) : List String := (t.dependents.getD id ∅).keys

def containsFile (t : Table) (file : String) : Bool := t.files.contains file

def filePaths (t : Table) : List String := t.files.keys

def symbolCount (t : Table) : Nat := t.symbols.size

def externalCount (t : Table) : Nat := (t.allSymbols.filter Symbol.isExternal).length

def edgesOf (t : Table) (owner : String) : List Edge := t.edges.getD owner []

/-- Every edge, grouped by owner (`all_edges`). -/
def allEdges (t : Table) : List Edge := t.edges.values.flatten

def edgeCount (t : Table) : Nat := t.allEdges.length

/-! ## Reports -/

/-- Add a report (`record`). -/
def record (t : Table) (d : Diagnostic) : Table := { t with diagnostics := t.diagnostics ++ [d] }

/-- The reports so far, and the table without them (`take_diagnostics`). -/
def takeDiagnostics (t : Table) : List Diagnostic × Table :=
  (t.diagnostics, { t with diagnostics := [] })

/-- The first contradiction between the edges, the identifiers and the symbols
(`verify_integrity`). -/
def inconsistency? (t : Table) : Option AtlasError :=
  let dangling := t.edges.entries.findSome? fun (owner, edges) =>
    (edges.find? fun e => !t.ids.contains e.target).map fun e =>
      AtlasError.tableCorruption
        ("dangling " ++ e.type.name ++ " edge in " ++ owner ++ " to " ++ e.target.hex)
  let lost := (t.ids.entries.find? fun (_, fqn) => !t.symbols.contains fqn).map fun (id, fqn) =>
    AtlasError.tableCorruption ("id " ++ id.hex ++ " points at missing FQN " ++ fqn)
  dangling.or lost

end Table

/-! ## Snapshots -/

/-- The symbols of a table, frozen (`TableSnapshot`). -/
structure Snapshot where
  symbols : SortedMap String Symbol := ∅
  deriving Inhabited

def Table.snapshot (t : Table) : Snapshot := ⟨t.symbols⟩

namespace Snapshot

instance : SymbolLookup Snapshot where
  findFqn? s fqn := s.symbols.get? fqn
  findId? s id := s.symbols.values.find? fun x => x.id == id
  named s name := s.symbols.values.filter fun x => x.name == name

def size (s : Snapshot) : Nat := s.symbols.size

def isEmpty (s : Snapshot) : Bool := s.symbols.isEmpty

end Snapshot

end CodeAtlas
