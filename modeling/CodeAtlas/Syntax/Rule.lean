import CodeAtlas.Syntax.Pattern

/-!
# Grammars

A grammar is a list of definitions. A definition is either a token, with a pattern, or a rule: a
combination of fixed texts and references to other definitions. Ranks and associativity decide
between readings of a text while it is read; weights decide between finished readings.
-/

namespace CodeAtlas.Syntax

/-- How operators of one rank group. -/
inductive Assoc where
  | left
  | right
  deriving DecidableEq, Repr, Inhabited

/-- What a leaf of a rule stands for. -/
inductive Word where
  /-- A fixed text, which is a token. -/
  | text (s : String)
  /-- Another definition. -/
  | ref (name : String)
  deriving DecidableEq, Repr, Inhabited

/-- A rule over leaves of some type. -/
inductive Rule (α : Type) where
  | blank
  | leaf (a : α)
  | seq (parts : List (Rule α))
  | choice (alternatives : List (Rule α))
  /-- One or more times. -/
  | many1 (part : Rule α)
  /-- The part has a rank and, if given, groups to one side. -/
  | ranked (rank : Int) (assoc : Option Assoc) (part : Rule α)
  /-- Readings with this part have a weight. -/
  | weighted (weight : Int) (part : Rule α)
  /-- The part has a role in the node. -/
  | labelled (label : String) (part : Rule α)
  /-- The part appears as a node of another kind. -/
  | renamed (kind : String) (part : Rule α)
  deriving BEq, Repr, Inhabited

namespace Rule

instance : Coe String (Rule Word) := ⟨fun s => leaf (.text s)⟩

/-- Another definition. -/
def ref (name : String) : Rule Word := leaf (.ref name)

/-- Another definition in a role. -/
def part (label name : String) : Rule Word := labelled label (ref name)

variable {α : Type}

/-- A part or nothing. -/
def opt (part : Rule α) : Rule α := choice [part, blank]

/-- A part any number of times. -/
def many (part : Rule α) : Rule α := opt (many1 part)

/-- One or more parts with a separator between. -/
def separated (part separator : Rule α) : Rule α := seq [part, many (seq [separator, part])]

/-- One or more parts with commas between. -/
def list1 (part : Rule Word) : Rule Word := separated part ","

/-- Any number of parts with commas between. -/
def list (part : Rule Word) : Rule Word := opt (list1 part)

/-- A part with a rank. -/
def rank (n : Int) (part : Rule α) : Rule α := ranked n none part

/-- A part with a rank that groups to the left. -/
def left (n : Int) (part : Rule α) : Rule α := ranked n (some .left) part

/-- A part with a rank that groups to the right. -/
def right (n : Int) (part : Rule α) : Rule α := ranked n (some .right) part

mutual

def leaves : Rule α → List α
  | blank => []
  | leaf a => [a]
  | seq parts => leavesOfList parts
  | choice alternatives => leavesOfList alternatives
  | many1 part | ranked _ _ part | weighted _ part | labelled _ part | renamed _ part => leaves part

def leavesOfList : List (Rule α) → List α
  | [] => []
  | r :: rest => leaves r ++ leavesOfList rest

end

end Rule

/-- How a token is written. -/
structure Token where
  pattern : Pattern
  /-- Whether no blanks may stand in front of it. -/
  glued : Bool := false
  /-- Rank among the tokens that match. -/
  rank : Int := 0
  /-- The text of the token, if there is only one. -/
  fixed : Option String := none
  deriving DecidableEq, Repr, Inhabited

namespace Token

/-- The token of a fixed text. -/
def text (s : String) : Token := { pattern := .text s, fixed := some s }

/-- How much a token is preferred over another of the same rank: fixed texts are, and tokens that
stand right behind another. -/
def preference (t : Token) : Nat := (if t.fixed.isSome then 2 else 0) + (if t.glued then 1 else 0)

end Token

/-- What a name stands for. -/
inductive Definition where
  | rule (body : Rule Word)
  | token (token : Token)
  deriving Inhabited

/-- A name for a rule. -/
def rule (name : String) (body : Rule Word) : String × Definition := (name, .rule body)

/-- A name for a token. -/
def token (name : String) (token : Token) : String × Definition := (name, .token token)

/-- A grammar. The first rule is the whole text. -/
structure Grammar where
  definitions : List (String × Definition)
  /-- The token of which keywords are special cases. -/
  word : String
  /-- Characters that may stand between tokens. -/
  blanks : CharSet := .blanks
  /-- Tokens that may stand between other tokens. -/
  comments : List String
  /-- Rules that only choose between others and make no node. -/
  families : List String
  /-- Rules that are replaced by their bodies. -/
  inlined : List String
  deriving Inhabited

end CodeAtlas.Syntax
