import CodeAtlas.Syntax.Scanner
import CodeAtlas.Syntax.Table

/-!
# Languages

All that a parser needs to know of a language, worked out from its grammar once.
-/

namespace CodeAtlas.Syntax

/-- A language, ready for parsing. -/
structure Language where
  tokens : Array TokenEntry
  rules : Array RuleEntry
  /-- The token of which keywords are special cases. -/
  word : Nat
  classes : CharClasses
  scanner : Scanner
  table : Table
  deriving Inhabited

namespace Language

/-- The language of a grammar. The scanner has a start for each mode, and the last one is for
keywords. -/
def ofGrammar (g : Grammar) : Language :=
  let p := g.productions
  let l := Lexicon.ofProductions p
  let table := Table.ofProductions p l
  let count := p.tokens.size
  let ofModes := table.modes.map fun m => m.inter (.below count)
  { tokens := p.tokens
    rules := p.rules
    word := p.word
    classes := l.classes
    scanner := .ofLexicon l (ofModes.push table.keywords)
    table }

variable (l : Language)

def tokenCount : Nat := l.tokens.size

/-- The tokens, the word first. -/
def tokenOrder : List Nat := l.word :: (List.range l.tokenCount).filter (· != l.word)

/-- Whether a category makes a node. -/
def isVisible : Category → Bool
  | .token i => l.tokens[i]?.any (·.visible)
  | .rule i => l.rules[i]?.any (·.visible)
  | .fault => true
  | .finish | .faults => false

def isNamed : Category → Bool
  | .token i => l.tokens[i]?.any (·.named)
  | .faults => false
  | .finish | .rule _ | .fault => true

def kindOf : Category → String
  | .finish => "end"
  | .token i => (l.tokens.getD i default).name
  | .rule i => (l.rules.getD i default).name
  | .fault | .faults => "ERROR"

/-- Where a category stands in the order of all: the end of the text, the word, the other tokens,
the rules, and faults. -/
def rankOf : Category → Nat
  | .finish => 0
  | .token i => if i == l.word then 1 else if i < l.word then i + 2 else i + 1
  | .rule i => l.tokenCount + 1 + i
  | .faults => l.tokenCount + l.rules.size + 1
  | .fault => l.tokenCount + l.rules.size + 2

/-- What to do in a state with a category that was read. -/
def actions (state : Nat) : Category → List Action
  | .finish => l.table.actions state l.tokenCount
  | .token i => l.table.actions state i
  | _ => []

/-- Where a category leads from a state; 0 if nowhere. -/
def next (state : Nat) : Category → Nat
  | .finish => l.table.step state l.tokenCount
  | .token i => l.table.step state i
  | .rule i => l.table.goto state i
  | _ => 0

def modeOf (state : Nat) : Nat := (l.table.rows.getD state default).mode

/-- Whether the end of the text is looked for in a mode. -/
def finishes (mode : Nat) : Bool := (l.table.modes.getD mode default).has l.tokenCount

/-- Whether a category that was found elsewhere can be used in a state. -/
def isReusable (state : Nat) (c : Category) : Bool :=
  let reusable := (l.table.rows.getD state default).reusable
  match c with
  | .finish => reusable.has l.tokenCount
  | .token i => reusable.has i
  | _ => false

/-- The shape of a node by number. -/
def shape (i : Nat) : Shape := l.table.shapes.getD i default

/-- A reduction by number. -/
def reduction (i : Nat) : Reduction := l.table.reductions.getD i default

end Language

end CodeAtlas.Syntax
