import CodeAtlas.Syntax.Recovery
import CodeAtlas.Syntax.Tree

/-!
# From texts to trees

The tree of a text is what the parser found, without the parts that make no node: their children
stand in their place, in the role that the hidden part had.
-/

namespace CodeAtlas.Syntax

namespace Subtree

mutual

/-- The node of a subtree that starts at a place. -/
def toNode (l : Language) (rename label : Option String) (place : Extent) : Subtree → Node
  | mk part children =>
    let start := place + part.padding
    let stop := start + part.size
    let fault : Fault :=
      if part.category == .fault then .unexpected else if part.missing then .missing else .sound
    .mk (rename.getD (l.kindOf part.category)) (rename.isSome || l.isNamed part.category) label
      ⟨start.chars, stop.chars, start.rows, start.columns⟩ fault
      (toNodes l (l.shape part.shape) none 0 place children [])

/-- The nodes of the children of a subtree in front of other nodes. `index` counts the children that
are not extras, and `role` is the role of a hidden subtree. -/
def toNodes (l : Language) (shape : Shape) (role : Option String) (index : Nat) (place : Extent) :
    List Subtree → List Node → List Node
  | [], after => after
  | mk part children :: rest, after =>
    let whole := part.padding + part.size
    if part.extra then
      let after := toNodes l shape role index (place + whole) rest after
      if part.visible then toNode l none none place (mk part children) :: after
      else toNodes l (l.shape part.shape) none 0 place children after
    else
      let rename := (shape.renames[index]?).getD none
      let label := ((shape.labels[index]?).getD none).or role
      let after := toNodes l shape role (index + 1) (place + whole) rest after
      if rename.isSome || part.visible then
        toNode l rename label place (mk part children) :: after
      else toNodes l (l.shape part.shape) label 0 place children after

end

end Subtree

namespace Language

/-- The tree of a source text. -/
def parse (l : Language) (source : Source) : Node :=
  let sheet := Sheet.ofChars l source.chars
  let limit := 64 * (sheet.size + 64)
  match Parser.run l sheet limit limit 0 {} with
  | some root => root.toNode l none none {}
  | none => .mk (l.kindOf .fault) true none ⟨0, sheet.size, 0, 0⟩ .unexpected []

end Language

end CodeAtlas.Syntax
