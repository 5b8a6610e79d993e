import CodeAtlas.Scope.Basic

/-!
# Looking names up

What a store of symbols answers, and how a name as written in a file finds its symbol: by its exact
name, through the imports, in the enclosing type and namespace, and at last by its short name
anywhere in the project. A placeholder never counts as an answer.
-/

namespace CodeAtlas

/-- A store of symbols that can be asked. -/
class SymbolLookup (σ : Type) where
  /-- The symbol with a fully-qualified name. -/
  findFqn? : σ → String → Option Symbol
  /-- The symbol with an identifier. -/
  findId? : σ → SymbolId → Option Symbol
  /-- All symbols with a short name, ordered by fully-qualified name. -/
  named : σ → String → List Symbol

/-- The family of kinds that a look-up by short name may answer. -/
inductive LookupFilter where
  | any
  | types
  | callables
  | values
  deriving DecidableEq, Repr, Inhabited

/-- Whether a kind belongs to the family (`accepts`). -/
def LookupFilter.accepts : LookupFilter → SymbolKind → Bool
  | any, _ => true
  | types, kind => kind.isType
  | callables, kind => kind.isCallable
  | values, kind => kind.isValue

namespace SymbolLookup

variable {σ : Type} [SymbolLookup σ]

/-- The symbol with a fully-qualified name, if the project defines it (`lookup_defined`). -/
def findDefined? (s : σ) (fqn : String) : Option Symbol :=
  (findFqn? s fqn).filter fun x => !x.isExternal

/-- The names under which `name` may be defined, seen from a scope, in order of preference (in
`resolve_filtered`). -/
def candidates (c : Scope) (name : String) : List String :=
  name :: (c.imports.expand? name c.separator).toList
    ++ c.imports.wildcards.map (fun ns => ns ++ c.separator ++ name)
    ++ (c.enclosingType.map fun t => t ++ c.separator ++ name).toList
    ++ (c.qualifyInModule? name).toList

/-- Whether a look-up by short name may answer a kind (in `resolve_filtered`). -/
def isGlobal (filter : LookupFilter) (kind : SymbolKind) : Bool :=
  (match kind with
    | .external | .file | .directory => false
    | _ => true) && filter.accepts kind

/-- The symbol with a short name (in `resolve_filtered`): one of the same file if there is one, else
the first. -/
def findGlobal? (s : σ) (name : String) (c : Scope) (filter : LookupFilter) : Option Symbol :=
  let found := (named s name).filter fun x => isGlobal filter x.kind
  (found.find? fun x => x.file == c.file).or found.head?

/-- The symbol that a name stands for in a scope (`resolve_filtered`). -/
def resolve? (s : σ) (name : String) (c : Scope) (filter : LookupFilter) : Option Symbol :=
  if name.isEmpty then none
  else
    match (candidates c name).findSome? (findDefined? s) with
    | some x => some x
    | none => if c.isQualified name then none else findGlobal? s name c filter

end SymbolLookup

end CodeAtlas
