import CodeAtlas.Syntax.Language

/-!
# Parts of a tree under construction

A subtree knows the text it covers, with the blanks in front of it, and what its faults cost. Of two
readings of a text the one that costs less is better; if both cost the same, weights decide.
-/

namespace CodeAtlas.Syntax

/-! ## Extents -/

/-- A distance in a text: in characters, in bytes, and in rows and columns, where columns count
bytes of the last row. -/
structure Extent where
  chars : Nat := 0
  bytes : Nat := 0
  rows : Nat := 0
  columns : Nat := 0
  deriving DecidableEq, Repr, Inhabited

namespace Extent

/-- One distance after another. -/
def add (a b : Extent) : Extent :=
  { chars := a.chars + b.chars
    bytes := a.bytes + b.bytes
    rows := a.rows + b.rows
    columns := if b.rows == 0 then a.columns + b.columns else b.columns }

instance : Add Extent := ⟨add⟩

/-- The distance from `b` to `a`. -/
def sub (a b : Extent) : Extent :=
  { chars := a.chars - b.chars
    bytes := a.bytes - b.bytes
    rows := a.rows - b.rows
    columns := if b.rows < a.rows then a.columns else a.columns - b.columns }

instance : Sub Extent := ⟨sub⟩

/-- The distance behind a character. -/
def after (a : Extent) (c : Char) : Extent :=
  let size := c.utf8Size
  if c == '\n' then ⟨a.chars + 1, a.bytes + size, a.rows + 1, 0⟩
  else ⟨a.chars + 1, a.bytes + size, a.rows, a.columns + size⟩

end Extent

/-! ## Costs -/

namespace Cost

/-- Cost of every fault. -/
def recovery : Nat := 500

/-- Cost of a missing token. -/
def missing : Nat := 110

/-- Cost of every node that is skipped. -/
def node : Nat := 100

/-- Cost of every byte that is skipped. -/
def byte : Nat := 1

/-- Cost of every line that is skipped. -/
def line : Nat := 30

end Cost

/-! ## Subtrees -/

/-- What is known of a subtree. -/
structure Part where
  category : Category
  /-- Text in front of the subtree that belongs to no token. -/
  padding : Extent := {}
  size : Extent := {}
  shape : Nat := 0
  /-- Whether the subtree may stand anywhere. -/
  extra : Bool := false
  missing : Bool := false
  /-- Whether the text of the token is a keyword. -/
  keyword : Bool := false
  /-- The state in which the token was looked for. -/
  state : Nat := 0
  /-- What the faults inside cost. -/
  cost : Nat := 0
  weight : Int := 0
  visible : Bool
  /-- Number of nodes below. -/
  nodes : Nat := 0
  /-- Number of children that are nodes, looking through hidden subtrees. -/
  shown : Nat := 0
  /-- The category of the first leaf. -/
  leaf : Category
  deriving Repr, Inhabited

/-- A part of a tree under construction. -/
inductive Subtree where
  | mk (part : Part) (children : List Subtree)
  deriving Inhabited

namespace Subtree

def part : Subtree → Part
  | mk part _ => part

def children : Subtree → List Subtree
  | mk _ children => children

def category (s : Subtree) : Category := s.part.category

def isExtra (s : Subtree) : Bool := s.part.extra

/-- The subtree as one that may stand anywhere, or not. -/
def withExtra (extra : Bool) : Subtree → Subtree
  | mk part children => mk { part with extra } children

def cost (s : Subtree) : Nat :=
  if s.part.missing then Cost.missing + Cost.recovery else s.part.cost

/-- The extent of a subtree with the text in front of it. -/
def total (s : Subtree) : Extent := s.part.padding + s.part.size

/-- Number of nodes of a subtree, as a measure of progress. -/
def progress (s : Subtree) : Nat :=
  s.part.nodes + (if s.part.visible then 1 else 0) + (if s.category == .faults then 1 else 0)

def token (l : Language) (category : Category) (padding size : Extent) (state : Nat)
    (keyword : Bool) : Subtree :=
  mk { category, padding, size, state, keyword, visible := l.isVisible category, leaf := category }
    []

/-- A token that is not in the text. -/
def missing (l : Language) (category : Category) : Subtree :=
  mk { category, missing := true, visible := l.isVisible category, leaf := category } []

/-- A keyword as a plain word. -/
def asWord (l : Language) : Subtree → Subtree
  | mk part children =>
    let category := Category.token l.word
    mk { part with category, leaf := category, visible := l.isVisible category } children

/-- Add up what is known of one more child, the `index`-th that is not an extra. -/
def addChild (isFault : Bool) (renames : List (Option String)) (acc : Part × Nat) (c : Subtree) :
    Part × Nat :=
  let (p, index) := acc
  let skipped :=
    if isFault && !c.isExtra && !(c.category == .fault && c.children.isEmpty) then
      if c.part.visible then Cost.node
      else if c.children.isEmpty then 0 else Cost.node * c.part.shown
    else 0
  let renamed := !c.isExtra && c.category != .finish && ((renames[index]?).getD none).isSome
  let isNode := renamed || c.part.visible
  ({ p with
      size := p.size + c.total
      cost := p.cost + (if c.category == .faults then 0 else c.cost) + skipped
      weight := p.weight + c.part.weight
      nodes := p.nodes + c.part.nodes + (if isNode then 1 else 0)
      shown := p.shown + (if isNode then 1 else c.part.shown) },
    if c.isExtra then index else index + 1)

/-- A subtree with children. Faulty text costs by its size. -/
def node (l : Language) (category : Category) (children : List Subtree) (shape : Nat) : Subtree :=
  let isFault := category == .fault || category == .faults
  let padding := (children.head?.map (·.part.padding)).getD {}
  let start : Part :=
    { category, shape, visible := l.isVisible category
      leaf := (children.head?.map (·.part.leaf)).getD category }
  let (p, _) := children.foldl (addChild isFault (l.shape shape).renames) (start, 0)
  let size := p.size - padding
  let ofText :=
    if isFault then Cost.recovery + Cost.byte * size.bytes + Cost.line * size.rows else 0
  mk { p with padding, size, cost := p.cost + ofText } children

/-- The subtree with more weight. -/
def addWeight (weight : Int) : Subtree → Subtree
  | mk part children => mk { part with weight := part.weight + weight } children

/-- The subtrees up to the last one that is not an extra, and the extras behind it. -/
def splitExtras (l : List Subtree) : List Subtree × List Subtree :=
  let extras := (l.reverse.takeWhile isExtra).reverse
  (l.take (l.length - extras.length), extras)

mutual

/-- Compare two subtrees by their categories and numbers of children, from the root on. -/
def compare (l : Language) : Subtree → Subtree → Ordering
  | mk p children, mk q children' =>
    (Ord.compare (l.rankOf p.category) (l.rankOf q.category)).then
      ((Ord.compare children.length children'.length).then (compareList l children children'))

def compareList (l : Language) : List Subtree → List Subtree → Ordering
  | [], _ => .eq
  | _ :: _, [] => .eq
  | s :: rest, t :: rest' => (compare l s t).then (compareList l rest rest')

end

/-- Whether the second of two readings of a text is better: it costs less, or has more weight, or
comes first in the order of subtrees. -/
def isBetter (l : Language) (s t : Subtree) : Bool :=
  if t.cost < s.cost then true
  else if s.cost < t.cost then false
  else if s.part.weight < t.part.weight then true
  else if t.part.weight < s.part.weight then false
  else if 0 < s.cost then true
  else compare l s t == .gt

/-- Whether two subtrees need not be told apart. -/
def equivalent : Option Subtree → Option Subtree → Bool
  | none, none => true
  | some s, some t =>
    s.category == t.category &&
      ((0 < s.cost && 0 < t.cost) ||
        (s.part.padding.bytes == t.part.padding.bytes && s.part.size.bytes == t.part.size.bytes &&
          s.children.length == t.children.length && s.isExtra == t.isExtra))
  | _, _ => false

end Subtree

end CodeAtlas.Syntax
