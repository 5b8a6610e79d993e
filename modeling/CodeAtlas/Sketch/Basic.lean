import CodeAtlas.Symbol

/-!
# Sketches

What a collector saw in one file: definitions, imports, references and literal assignments, with
names exactly as written. Definitions are named relative to the namespace of the file; `qualify`
turns a relative path into a fully-qualified name and `relativeOf` turns it back.

Main results:

* `relativeOf_qualify`: the relative path of a qualified path is the path.
-/

namespace CodeAtlas

/-- A definition as the collector saw it. -/
structure SymbolSketch where
  name : String
  /-- Relative path of the enclosing definition. -/
  parent : Option String := none
  kind : SymbolKind
  line : UInt32
  column : UInt32
  exported : Bool := true
  metadata : Metadata := ∅
  deriving Repr, BEq, Inhabited

/-- The path of a definition inside its file (`relative_path`). -/
def SymbolSketch.relativePath (s : SymbolSketch) (separator : String) : String :=
  match s.parent with
  | some parent => parent ++ separator ++ s.name
  | none => s.name

structure ImportSketch where
  /-- What is imported, as a fully-qualified name. -/
  target : String
  /-- Local name; by default the last segment of the target. -/
  localName : Option String
  /-- Whether every name of the target namespace is imported. -/
  wildcard : Bool
  line : UInt32
  deriving Repr, BEq, Inhabited

/-- Kind of a reference. -/
inductive ReferenceKind where
  | extendsType
  | implements
  | usesMixin
  | call
  | instantiate
  | throws
  | reads
  | writes
  | returnsType
  | acceptsType
  | serviceLookup
  | eventEmit
  | eventListen
  | route
  deriving DecidableEq, Repr, Inhabited

namespace ReferenceKind

def all : List ReferenceKind :=
  [extendsType, implements, usesMixin, call, instantiate, throws, reads, writes, returnsType,
    acceptsType, serviceLookup, eventEmit, eventListen, route]

def name : ReferenceKind → String
  | extendsType => "extends"
  | implements => "implements"
  | usesMixin => "uses_mixin"
  | call => "call"
  | instantiate => "instantiate"
  | throws => "throws"
  | reads => "reads"
  | writes => "writes"
  | returnsType => "returns_type"
  | acceptsType => "accepts_type"
  | serviceLookup => "service_lookup"
  | eventEmit => "event_emit"
  | eventListen => "event_listen"
  | route => "route"

def ofName? (s : String) : Option ReferenceKind := all.find? fun k => k.name == s

/-- The kinds that only enrichment reads (`is_enrichment`). -/
def isEnrichment : ReferenceKind → Bool
  | serviceLookup | eventEmit | eventListen | route => true
  | _ => false

end ReferenceKind

/-- What a call is made on. -/
inductive Receiver where
  /-- Nothing: `f()`. -/
  | unqualified
  /-- The enclosing object itself. -/
  | selfRef
  /-- A type or a namespace. -/
  | typeName (name : String)
  /-- Any other expression; its type is unknown. -/
  | expression (text : String)
  deriving DecidableEq, Repr, Inhabited

/-- What is referred to. -/
inductive Target where
  /-- A name, written out. -/
  | name (text : String)
  /-- The value of a local variable. -/
  | viaVariable (text : String)
  /-- Something computed when the program runs; the source text is kept. -/
  | dynamic (text : String)
  deriving DecidableEq, Repr, Inhabited

def Target.text : Target → String
  | name text | viaVariable text | dynamic text => text

/-- A use of a name. -/
structure ReferenceSketch where
  kind : ReferenceKind
  target : Target
  /-- Relative path of the enclosing definition; `none` is the file itself. -/
  source : Option String := none
  receiver : Receiver := .unqualified
  line : UInt32
  column : UInt32
  extra : Metadata := ∅
  deriving Repr, BEq, Inhabited

namespace ReferenceSketch

/-- Attach one fact (`with_extra`). -/
def withExtra (r : ReferenceSketch) (key : String) (value : Json) : ReferenceSketch :=
  { r with extra := r.extra.insert key value }

/-- A fact that is a text (`extra_str`). -/
def extraText? (r : ReferenceSketch) (key : String) : Option String :=
  (r.extra.get? key).bind Json.string?

end ReferenceSketch

/-- A literal assigned to a variable. -/
structure LiteralAssignment where
  /-- Relative path of the enclosing callable; `none` is the file itself. -/
  scope : Option String
  /-- The variable. -/
  name : String
  literal : String
  line : UInt32
  deriving DecidableEq, Repr, Inhabited

/-- A place where the source text is not well formed. -/
structure ParseIssue where
  line : UInt32
  column : UInt32
  message : String
  deriving DecidableEq, Repr, Inhabited

/-- Everything that was seen in one file (`FileSketches`). -/
structure FileSketch where
  path : String
  language : String
  /-- Declared namespace. -/
  moduleName : Option String := none
  /-- What stands between the segments of a name. -/
  separator : String
  symbols : List SymbolSketch := []
  imports : List ImportSketch := []
  references : List ReferenceSketch := []
  assignments : List LiteralAssignment := []
  issues : List ParseIssue := []
  deriving Repr, BEq, Inhabited

namespace FileSketch

/-- What stands in front of the relative paths of a file in fully-qualified names. -/
def qualifier (f : FileSketch) : String :=
  match f.moduleName with
  | some ns => if ns.isEmpty then "" else ns ++ f.separator
  | none => ""

/-- The fully-qualified name of a relative path (`qualify`). -/
def qualify (f : FileSketch) (relative : String) : String := f.qualifier ++ relative

/-- The relative path of a fully-qualified name (`relative_of`); a name outside the namespace stays
as it is. -/
def relativeOf (f : FileSketch) (fqn : String) : String :=
  (Text.dropPrefix? f.qualifier fqn).getD fqn

@[simp] theorem relativeOf_qualify (f : FileSketch) (relative : String) :
    f.relativeOf (f.qualify relative) = relative := by
  simp [relativeOf, qualify, Text.dropPrefix?_append]

/-- The definition at a relative path (`symbol_at`); of several, the last. -/
def symbolAt? (f : FileSketch) (relative : String) : Option SymbolSketch :=
  f.symbols.reverse.find? fun s => s.relativePath f.separator == relative

theorem relativePath_of_symbolAt? {f : FileSketch} {relative : String} {s : SymbolSketch}
    (h : f.symbolAt? relative = some s) : s.relativePath f.separator = relative := by
  simpa using List.find?_some h

/-- The parent of the definition at a path is shorter than the path, if it is not the path. -/
theorem length_parent_lt (f : FileSketch) {relative parent : String} {s : SymbolSketch}
    (h : f.symbolAt? relative = some s) (hp : s.parent = some parent) (hne : parent ≠ relative) :
    parent.length < relative.length := by
  have hpath : parent ++ (f.separator ++ s.name) = relative := by
    rw [← relativePath_of_symbolAt? h, SymbolSketch.relativePath, hp]
    exact (String.append_assoc ..).symm
  have hrest : (f.separator ++ s.name).length ≠ 0 := by
    intro hlen
    rw [String.length_eq_zero_iff.1 hlen, String.append_empty] at hpath
    exact hne hpath
  rw [← hpath, String.length_append]
  omega

/-- The metadata of a symbol (in `assemble_symbols`): what the collector recorded, and the
language. -/
def languageTagged (f : FileSketch) (m : Metadata) : Metadata :=
  m.insert "language" (.string f.language)

def fileSymbol (f : FileSketch) : Symbol :=
  { Symbol.ofFile f.path with moduleName := f.moduleName, metadata := f.languageTagged ∅ }

/-- The symbol of a definition (in `assemble_symbols`). -/
def assembleSymbol (f : FileSketch) (s : SymbolSketch) : Symbol :=
  { Symbol.ofName (f.qualify (s.relativePath f.separator)) s.name s.kind with
    file := f.path, line := s.line, column := s.column, moduleName := f.moduleName,
    exported := s.exported, metadata := f.languageTagged s.metadata }

/-- The symbols that the file defines (`assemble_symbols`): its own node first. -/
def assembleSymbols (f : FileSketch) : List Symbol :=
  f.fileSymbol :: f.symbols.map f.assembleSymbol

end FileSketch

end CodeAtlas
