import CodeAtlas.Digest
import CodeAtlas.Json.Basic
import CodeAtlas.Text.Split

/-!
# Symbols

A symbol is a named, located entity of the project: a type, a callable, a value, a file, a
namespace, or a placeholder for something outside the project. Its identifier is a digest of its
fully-qualified name.
-/

namespace CodeAtlas

/-! ## Identifiers -/

/-- Stable identifier of a symbol. -/
structure SymbolId where
  hex : String
  deriving DecidableEq, Repr, Inhabited

namespace SymbolId

instance : Ord SymbolId := ⟨fun a b => compare a.hex b.hex⟩

theorem compare_def (a b : SymbolId) : compare a b = compare a.hex b.hex := rfl

instance : Std.TransOrd SymbolId where
  eq_swap {a b} := by
    simp only [compare_def]
    exact Std.OrientedCmp.eq_swap
  isLE_trans {a b c} h₁ h₂ := by
    simp only [compare_def] at *
    exact Std.TransCmp.isLE_trans h₁ h₂

instance : Std.LawfulEqOrd SymbolId where
  eq_of_compare {a b} h := by
    cases a; cases b
    rw [compare_def] at h
    exact congrArg SymbolId.mk (Std.LawfulEqCmp.eq_of_compare h)

/-- The identifier of a fully-qualified name (`for_fqn`): twelve bytes of its digest. -/
def ofFqn (fqn : String) : SymbolId := ⟨Digest.shortOfString 12 fqn⟩

end SymbolId

/-! ## Kinds -/

/-- Kind of a named entity. -/
inductive SymbolKind where
  | moduleNode
  | classType
  | interfaceType
  | traitType
  | function
  | method
  | property
  | constant
  | file
  | directory
  | external
  deriving DecidableEq, Repr, Inhabited

namespace SymbolKind

def name : SymbolKind → String
  | moduleNode => "module"
  | classType => "class"
  | interfaceType => "interface"
  | traitType => "trait"
  | function => "function"
  | method => "method"
  | property => "property"
  | constant => "constant"
  | file => "file"
  | directory => "directory"
  | external => "external_placeholder"

def ofName? : String → Option SymbolKind
  | "module" => some moduleNode
  | "class" => some classType
  | "interface" => some interfaceType
  | "trait" => some traitType
  | "function" => some function
  | "method" => some method
  | "property" => some property
  | "constant" => some constant
  | "file" => some file
  | "directory" => some directory
  | "external_placeholder" => some external
  | _ => none

/-- Types can enclose members and be the receiver of a call on oneself (`is_type`). -/
def isType : SymbolKind → Bool
  | classType | interfaceType | traitType => true
  | _ => false

/-- Functions and methods (`is_callable`). -/
def isCallable : SymbolKind → Bool
  | function | method => true
  | _ => false

/-- Properties and constants. -/
def isValue : SymbolKind → Bool
  | property | constant => true
  | _ => false

/-- The complaint about a name that no kind has (in `from_str`). -/
def unknownMessage (s : String) : String := "unknown symbol kind '" ++ s ++ "'"

end SymbolKind

/-! ## Symbols -/

/-- A named, located entity. -/
structure Symbol where
  id : SymbolId
  fqn : String
  /-- Short name, indexed for look-ups across the project. -/
  name : String
  kind : SymbolKind
  /-- Owning file; empty for placeholders and namespace modules. -/
  file : String := ""
  line : UInt32 := 0
  column : UInt32 := 0
  /-- Declared namespace of the owning file. -/
  moduleName : Option String := none
  exported : Bool := true
  metadata : Metadata := ∅
  deriving Repr, BEq, Inhabited

namespace Symbol

/-- A symbol without a place, identified by its fully-qualified name (`Symbol::new`). -/
def ofName (fqn name : String) (kind : SymbolKind) : Symbol :=
  { id := .ofFqn fqn, fqn, name, kind }

/-- Placeholder for a name that is referenced and defined outside the project
(`Symbol::external`). -/
def placeholder (fqn name : String) : Symbol := ofName fqn name .external

/-- The node that stands for a whole source file (`Symbol::file`). -/
def ofFile (path : String) : Symbol :=
  { ofName path (Text.lastSegment path "/") .file with file := path }

def isExternal (s : Symbol) : Bool := s.kind == .external

/-- Supertype names as written in the source, before resolution (`supertype_names`). -/
def supertypeNames (s : Symbol) : List String :=
  match s.metadata.get? "supertypes" with
  | some (.array names) => names.filterMap Json.string?
  | _ => []

end Symbol

/-- The last segment of a fully-qualified name, whatever separates its segments (`short_name`):
`::`, a backslash, a slash or a point. A name that ends in a separator is its own short name. -/
def shortName (fqn : String) : String :=
  let after (sep : String) : Option (List Char) :=
    (Text.splitLast? sep.toList fqn.toList).map (·.2)
  let rests := ["::", "\\", "/", "."].filterMap after
  match rests.foldl (fun (best : Option (List Char)) r =>
      match best with
      | none => some r
      | some b => if r.length < b.length then some r else some b) none with
  | some (c :: cs) => String.ofList (c :: cs)
  | _ => fqn

end CodeAtlas
