import CodeAtlas.Sketch.Basic

/-!
# Syntax trees

A tree of nodes over a source text. A node has a kind, a stretch of the text, a label that tells its
role in its parent, and children. Words and punctuation are anonymous nodes; all others are named.
A node can be faulty: text that fits nowhere, or a token that is missing.
-/

namespace CodeAtlas.Syntax

/-- A stretch of a text: offsets in characters, and the row and column (in bytes) of its start, all
counted from zero. -/
structure Span where
  start : Nat
  stop : Nat
  row : Nat
  column : Nat
  deriving DecidableEq, Repr, Inhabited

/-- What is wrong with a node. -/
inductive Fault where
  | sound
  /-- The text fits nowhere. -/
  | unexpected
  /-- The token is not in the text. -/
  | missing
  deriving DecidableEq, Repr, Inhabited

/-- A node of a syntax tree. -/
inductive Node where
  | mk (kind : String) (named : Bool) (label : Option String) (span : Span) (fault : Fault)
      (children : List Node)
  deriving Repr, Inhabited

namespace Node

def kind : Node → String
  | mk kind _ _ _ _ _ => kind

def named : Node → Bool
  | mk _ named _ _ _ _ => named

/-- The role of a node in its parent. -/
def label : Node → Option String
  | mk _ _ label _ _ _ => label

def span : Node → Span
  | mk _ _ _ span _ _ => span

/-- What is wrong with a node itself. -/
def fault : Node → Fault
  | mk _ _ _ _ fault _ => fault

def children : Node → List Node
  | mk _ _ _ _ _ children => children

def namedChildren (n : Node) : List Node := n.children.filter named

/-- The children in a role. -/
def childrenBy (n : Node) (label : String) : List Node :=
  n.children.filter fun c => c.label == some label

/-- The first child in a role. -/
def childBy? (n : Node) (label : String) : Option Node :=
  n.children.find? fun c => c.label == some label

/-- The line of a node, counted from one. -/
def line (n : Node) : UInt32 := (n.span.row + 1).toUInt32

/-- The column of a node in bytes, counted from one. -/
def column (n : Node) : UInt32 := (n.span.column + 1).toUInt32

mutual

def height : Node → Nat
  | mk _ _ _ _ _ children => heightList children + 1

def heightList : List Node → Nat
  | [] => 0
  | n :: rest => max (height n) (heightList rest)

end

mutual

/-- The faults of a tree, outermost and first in the text first. -/
def issues : Node → List ParseIssue
  | mk kind _ _ span fault children =>
    let line := (span.row + 1).toUInt32
    let column := (span.column + 1).toUInt32
    match fault with
    | .unexpected => [⟨line, column, "unexpected syntax"⟩]
    | .missing => [⟨line, column, "missing " ++ kind⟩]
    | .sound => issuesOfList children

def issuesOfList : List Node → List ParseIssue
  | [] => []
  | n :: rest => issues n ++ issuesOfList rest

end

end Node

structure Source where
  chars : Array Char
  deriving Inhabited

namespace Source

def ofString (s : String) : Source := ⟨s.toList.toArray⟩

/-- The text between two offsets. -/
def slice (s : Source) (start stop : Nat) : String :=
  String.ofList (s.chars.extract start stop).toList

def text (s : Source) (n : Node) : String := s.slice n.span.start n.span.stop

end Source

end CodeAtlas.Syntax
