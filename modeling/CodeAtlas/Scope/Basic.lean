import CodeAtlas.Scope.Imports
import CodeAtlas.Scope.Literals

/-!
# Scopes

Where a name is read: a file with its imports and literals, and the definitions that enclose the
place. `enter` finds the enclosing definitions by following the parents of sketches.
-/

namespace CodeAtlas

/-- The place from which names are resolved (`ResolutionContext`). -/
structure Scope where
  file : String
  moduleName : Option String
  separator : String
  imports : ImportBindings
  literals : LiteralBindings
  /-- Fully-qualified name of the innermost enclosing type. -/
  enclosingType : Option String := none
  /-- Fully-qualified name of the innermost enclosing function or method. -/
  enclosingCallable : Option String := none
  /-- Relative path of the enclosing definition, as in literal assignments. -/
  within : Option String := none
  deriving Repr, Inhabited

namespace Scope

/-- The outermost scope of a file (`for_file`). -/
def ofFile (f : FileSketch) (imports : ImportBindings) (literals : LiteralBindings) : Scope :=
  { file := f.path, moduleName := f.moduleName, separator := f.separator, imports, literals }

/-- The enclosing definitions of a place: the innermost callable and the innermost type. -/
structure Enclosing where
  type : Option String := none
  callable : Option String := none
  deriving DecidableEq, Repr, Inhabited

/-- Follow the definitions from a relative path outwards up to the first type (in `enter`). A
definition that is its own parent is never left: then there is no answer. -/
def enclosing? (f : FileSketch) (relative : String) (found : Enclosing) : Option Enclosing :=
  match _h : f.symbolAt? relative with
  | none => some found
  | some s =>
    let found :=
      if found.callable.isNone && s.kind.isCallable then
        { found with callable := some (f.qualify relative) }
      else found
    if s.kind.isType then some { found with type := some (f.qualify relative) }
    else
      match _hp : s.parent with
      | none => some found
      | some parent =>
        if _hne : parent = relative then none else enclosing? f parent found
termination_by relative.length
decreasing_by exact f.length_parent_lt _h _hp _hne

/-- What does not return. -/
def endless (α : Type) (u : Unit) : Option α := endless α u
partial_fixpoint

theorem endless_eq_none (α : Type) (u : Unit) : endless α u = none :=
  Option.eq_none_iff_forall_ne_some.2 fun a h =>
    endless.partial_correctness α u (fun _ => False) (fun _ ih => ih) a h

/-- The scope at a definition of the file (`enter`). It does not return if the definition is inside
one that is never left; as a value, that scope has no enclosing definitions. -/
def enter (c : Scope) (f : FileSketch) (source : Option String) : Scope :=
  let e : Enclosing := match source with
    | none => {}
    | some relative =>
      match enclosing? f relative {} with
      | some e => e
      | none => (endless Enclosing ()).getD {}
  { c with enclosingType := e.type, enclosingCallable := e.callable, within := source }

/-- A name inside the namespace of the file (`qualify_in_namespace`). -/
def qualifyInModule? (c : Scope) (name : String) : Option String :=
  match c.moduleName with
  | some ns => if ns.isEmpty then none else some (ns ++ c.separator ++ name)
  | none => none

/-- Whether a name has several segments (`is_qualified`). -/
def isQualified (c : Scope) (name : String) : Bool := Text.occurs c.separator name

def shortName (c : Scope) (name : String) : String := Text.lastSegment name c.separator

/-- The fully-qualified name to give to something that is not defined in the project
(`placeholder_fqn`). -/
def placeholderName (c : Scope) (name : String) : String :=
  (c.imports.expand? name c.separator).getD name

/-- The literal that a variable holds on a line (`literal`). -/
def literal? (c : Scope) (name : String) (line : UInt32) : Option String :=
  c.literals.lookup? c.within name line

end Scope

end CodeAtlas
