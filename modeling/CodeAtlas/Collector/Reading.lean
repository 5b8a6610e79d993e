import CodeAtlas.Collector.Basic
import CodeAtlas.Syntax.Tree
import CodeAtlas.Text.Case
import CodeAtlas.Text.Letters

/-!
# From trees to sketches

What the extractors of all languages share: recording references, definitions and literals in the
sketches of a file, and refusing a file of which nothing can be used.
-/

namespace CodeAtlas

open Syntax

/-- The content of a quoted text without its quotes (`unquote`). -/
def unquote? (s : String) : Option String :=
  match (Text.trim s).toList with
  | q :: rest =>
    if q == '"' || q.toNat == 0x60 then
      match rest.reverse with
      | q' :: inner => if q' == q then some (String.ofList inner.reverse) else none
      | [] => none
    else none
  | [] => none

namespace FileSketch

def addSymbol (f : FileSketch) (s : SymbolSketch) : FileSketch :=
  { f with symbols := f.symbols ++ [s] }

def addImport (f : FileSketch) (i : ImportSketch) : FileSketch :=
  { f with imports := f.imports ++ [i] }

def addReference (f : FileSketch) (r : ReferenceSketch) : FileSketch :=
  { f with references := f.references ++ [r] }

def addAssignment (f : FileSketch) (a : LiteralAssignment) : FileSketch :=
  { f with assignments := f.assignments ++ [a] }

end FileSketch

def referenceAt (n : Node) (kind : ReferenceKind) (target : Target) (source : Option String) :
    ReferenceSketch :=
  { kind, target, source, line := n.line, column := n.column }

/-- Do something for every element of a list, one after the other. -/
def inOrder {α : Type} (step : α → FileSketch → FileSketch) (l : List α) (f : FileSketch) :
    FileSketch :=
  l.foldl (fun f a => step a f) f

/-- Whether all named children of the root are faulty, or the root itself is (in
`ensure_recoverable`). -/
def isHopeless (root : Node) : Bool :=
  root.fault == .unexpected
    || (!root.namedChildren.isEmpty && root.namedChildren.all fun n => n.fault == .unexpected)

/-- The sketches of a tree (`ensure_recoverable`). The file is refused if its faults left nothing to
collect. -/
def judgeSketches (root : Node) (f : FileSketch) : Attempt FileSketch :=
  let f := { f with issues := root.issues }
  match f.issues with
  | [] => .done f
  | first :: _ =>
    if isHopeless root || f.symbols.isEmpty then
      .failed ["unparseable: " ++ toString f.issues.length ++ " syntax issue(s), first at "
        ++ toString first.line.toNat ++ ":" ++ toString first.column.toNat]
    else .done f

end CodeAtlas
