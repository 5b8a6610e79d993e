import CodeAtlas.Sketch.Basic

/-!
# Import bindings

The local names that the imports of a file bind, and the namespaces that it imports as a whole.
-/

namespace CodeAtlas

/-- Local names and wildcard namespaces of one file (`ImportBinding`). -/
structure ImportBindings where
  aliases : SortedMap String String := ∅
  /-- Namespaces imported as a whole, in order and without repeats. -/
  wildcards : List String := []
  deriving Repr, Inhabited

namespace ImportBindings

def localName (separator : String) (i : ImportSketch) : String :=
  i.localName.getD (Text.lastSegment i.target separator)

/-- Add one import (in `from_file`); a later import of a local name wins. -/
def add (separator : String) (b : ImportBindings) (i : ImportSketch) : ImportBindings :=
  if i.wildcard then
    if b.wildcards.contains i.target then b
    else { b with wildcards := b.wildcards ++ [i.target] }
  else { b with aliases := b.aliases.insert (localName separator i) i.target }

/-- The bindings of a file (`ImportBinding::from_file`). -/
def ofFile (f : FileSketch) : ImportBindings := f.imports.foldl (add f.separator) {}

/-- The target of a name (`expand`): of the whole name if it is bound, else of its first segment. -/
def expand? (b : ImportBindings) (name separator : String) : Option String :=
  match b.aliases.get? name with
  | some target => some target
  | none =>
    match Text.splitOnce? separator name with
    | some (head, rest) => (b.aliases.get? head).map fun target => target ++ separator ++ rest
    | none => none

def size (b : ImportBindings) : Nat := b.aliases.size + b.wildcards.length

def isEmpty (b : ImportBindings) : Bool := b.size == 0

end ImportBindings

end CodeAtlas
