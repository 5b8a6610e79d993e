import CodeAtlas.Syntax.BitSet
import CodeAtlas.Syntax.Production
import Std.Data.HashMap

/-!
# Items of a grammar

An item is a production with a mark: the parts before the mark have been read. Items that cannot be
told apart any more, because they agree on what is left and on how the finished node will look, are
one item. Beside the items stand the sets of tokens with which rules start and end.
-/

namespace CodeAtlas.Syntax

/-! ## First and last tokens -/

/-- Apply a function until nothing changes, but at most so many times. -/
def settle {α : Type} [BEq α] (f : α → α) : Nat → α → α
  | 0, a => a
  | n + 1, a =>
    let b := f a
    if b == a then a else settle f n b

/-- The tokens of a category, given those of the rules. -/
def Category.tokensIn (ofRules : Array BitSet) : Category → BitSet
  | token i => .single i
  | rule i => ofRules.getD i default
  | _ => .empty

/-- For each rule the tokens that `pick` finds, directly or through other rules. -/
def tokensOfRules (bodies : Array (List Production)) (pick : List Step → Option Step) :
    Array BitSet :=
  let widen (sets : Array BitSet) : Array BitSet :=
    (List.range bodies.size).foldl (fun (sets : Array BitSet) i =>
      let found := (bodies.getD i []).foldl (fun (s : BitSet) p =>
        match pick p.steps with
        | some step => s.union (step.category.tokensIn sets)
        | none => s) (sets.getD i default)
      sets.set! i found) sets
  settle widen (bodies.size + 1) (Array.replicate bodies.size .empty)

/-- The labels inside each rule that show through it when it makes no node. -/
def labelsOfRules (g : Productions) : Array (List String) :=
  let widen (labels : Array (List String)) : Array (List String) :=
    (List.range g.outlines.size).foldl (fun (labels : Array (List String)) i =>
      let found := (g.outlines.getD i []).foldl (fun l p => p.steps.foldl (fun l s =>
        let inner := match s.category with
          | .rule j => if (g.rules[j]?.any (·.hidden)) then labels.getD j [] else []
          | _ => []
        l ++ ((s.label.toList ++ inner).filter fun x => !l.contains x).eraseDups) l)
        (labels.getD i [])
      labels.set! i found) labels
  settle widen (g.outlines.size + 1) (Array.replicate g.outlines.size [])

/-! ## How a node looks -/

/-- How the parts of a production appear in the node. -/
structure Shape where
  renames : List (Option String) := []
  labels : List (Option String) := []
  /-- Labels that show through hidden parts. -/
  inherited : List (List String) := []
  deriving DecidableEq, Hashable, Repr, Inhabited

/-- Drop the elements at the end of a list that hold nothing. -/
def dropLast {α : Type} (isNothing : α → Bool) (l : List α) : List α :=
  (l.reverse.dropWhile isNothing).reverse

/-- What happens when a production is complete. -/
structure Reduction where
  rule : Nat
  count : Nat
  weight : Int
  shape : Nat
  deriving DecidableEq, Hashable, Repr, Inhabited

/-! ## Items -/

/-- What tells an item from others. -/
structure ItemKey where
  read : Nat
  rule : Nat
  weight : Int
  size : Nat
  rank : Option Int
  assoc : Option Assoc
  /-- Renames and labels of the parts that were read; with their categories if labels show
  through one of them. -/
  before : List (Option String × Option String × Option Category)
  after : List Step
  deriving DecidableEq, Repr, Inhabited

namespace ItemKey

/-- The order in which completed items are tried. -/
def order (k : ItemKey) : List Int × List String :=
  ([k.read, k.rule, k.weight, k.size,
    match k.rank with | none => -1000000 | some r => r,
    match k.assoc with | none => 0 | some .left => 1 | some .right => 2],
   k.before.flatMap fun b => [b.1.getD "", b.2.1.getD ""])

/-- Whether an item is tried before another. -/
def isBefore (a b : List Int × List String) : Bool :=
  (compare a.1 b.1).then (compare a.2 b.2) != .gt

instance : Hashable ItemKey := ⟨fun k =>
  mixHash (hash (k.read, k.rule, k.size)) (hash (k.after.map fun s => (s.category, s.label)))⟩

/-- The item of a production after so many parts. -/
def ofProduction (showsThrough : Category → Bool) (rule : Nat) (p : Production) (read : Nat) :
    ItemKey :=
  let before := p.steps.take read
  let inherits := before.any fun s => showsThrough s.category
  let last := before.getLast?
  { read, rule, weight := p.weight, size := p.steps.length
    rank := last.bind (·.rank)
    assoc := last.bind (·.assoc)
    before := before.map fun s => (s.rename, s.label, if inherits then some s.category else none)
    after := p.steps.drop read }

end ItemKey

/-- An item. -/
structure Item where
  rule : Nat
  /-- The part behind the mark, if any. -/
  next : Option Category
  /-- The tokens that can follow that part, unless it is the last. -/
  following : Option BitSet
  /-- The item with the mark behind that part. -/
  successor : Nat
  /-- Rank and associativity of the part in front of the mark. -/
  rank : Option Int
  assoc : Option Assoc
  /-- The reduction when nothing is left; the first item, which is the whole text, has none. -/
  reduction : Option Nat
  deriving Repr, Inhabited

/-- The items of a grammar, with all that is known of its rules. -/
structure Items where
  items : Array Item
  reductions : Array Reduction
  shapes : Array Shape
  /-- For each rule the first part of each production with the item behind it. -/
  openings : Array (List (Category × Nat))
  /-- For each rule the rules at its front: the tokens that can follow them, and whether what
  follows the rule can follow them too. -/
  fronts : Array (List (Nat × BitSet × Bool))
  firsts : Array BitSet
  lasts : Array BitSet
  deriving Inhabited

namespace Items

/-- Number of the item for the whole text before anything is read. -/
def opening : Nat := 0

/-- Number of the item for the whole text when everything is read. -/
def closing : Nat := 1

/-- The rules at the front of each rule, one step down. -/
def stepsDown (bodies : Array (List Production)) (firsts : Array BitSet) :
    Array (List (Nat × BitSet × Bool)) :=
  bodies.map fun body => body.filterMap fun p =>
    match p.steps with
    | ⟨.rule w, _, _, _, _⟩ :: second :: _ => some (w, second.category.tokensIn firsts, false)
    | [⟨.rule w, _, _, _, _⟩] => some (w, .empty, true)
    | _ => none

/-- Walk down from rules to the rules at their front, noting what can follow each. -/
def walkDown (down : Array (List (Nat × BitSet × Bool))) :
    Nat → List Nat → Array (Option (BitSet × Bool)) → Array (Option (BitSet × Bool))
  | 0, _, found => found
  | _, [], found => found
  | fuel + 1, u :: rest, found =>
    let (tokens, through) := (found.getD u none).getD (.empty, false)
    let (found, rest) := (down.getD u []).foldl
      (fun (acc : Array (Option (BitSet × Bool)) × List Nat) (w, ahead, last) =>
        let new := if last then (tokens, through) else (ahead, false)
        match acc.1.getD w none with
        | none => (acc.1.set! w (some new), w :: acc.2)
        | some (old, oldThrough) =>
          let joined := old.union new.1
          if joined == old && (oldThrough || !new.2) then acc
          else (acc.1.set! w (some (joined, oldThrough || new.2)), w :: acc.2)) (found, rest)
    walkDown down fuel rest found

/-- The rules at the front of a rule, itself included. -/
def front (down : Array (List (Nat × BitSet × Bool))) (v : Nat) : List (Nat × BitSet × Bool) :=
  let found := walkDown down 100000 [v]
    ((Array.replicate down.size none).set! v (some (.empty, true)))
  found.toList.zipIdx.filterMap fun (f, u) => f.map fun (tokens, through) => (u, tokens, through)

/-- The shape of a production. -/
def shapeOf (labels : Category → List String) (p : Production) : Shape :=
  { renames := dropLast Option.isNone (p.steps.map (·.rename))
    labels := dropLast Option.isNone (p.steps.map (·.label))
    inherited := dropLast List.isEmpty (p.steps.map fun s => labels s.category) }

/-- The items of a grammar. -/
def ofProductions (g : Productions) : Items :=
  let firsts := tokensOfRules g.bodies List.head?
  let lasts := tokensOfRules g.bodies List.getLast?
  let labels := labelsOfRules g
  let labelsIn : Category → List String
    | .rule i => if g.rules[i]?.any (·.hidden) then labels.getD i [] else []
    | _ => []
  let showsThrough (c : Category) : Bool := !(labelsIn c).isEmpty
  let productions := g.bodies.toList.zipIdx.flatMap fun (body, v) => body.map fun p => (v, p)
  -- Keys of all items, in the order in which they are tried, and their numbers.
  let keyed := productions.flatMap fun (v, p) =>
    (List.range p.steps.length).map fun i => ItemKey.ofProduction showsThrough v p (i + 1)
  let distinct := (keyed.foldl (fun (acc : List ItemKey × Std.HashMap ItemKey Unit) k =>
    if acc.2.contains k then acc else (k :: acc.1, acc.2.insert k ())) ([], {})).1
  let ordered := ((distinct.map fun k => (k.order, k)).mergeSort fun a b =>
    ItemKey.isBefore a.1 b.1).map (·.2)
  let numbers := ordered.zipIdx.foldl
    (fun (m : Std.HashMap ItemKey Nat) (k, i) => m.insert k (i + 2)) {}
  let numberOf (v : Nat) (p : Production) (read : Nat) : Nat :=
    numbers.getD (ItemKey.ofProduction showsThrough v p read) 0
  -- Shapes and reductions of complete productions.
  let shapes := productions.foldl (fun (m : Std.HashMap Shape Nat) (_, p) =>
    m.insertIfNew (shapeOf labelsIn p) m.size) (Std.HashMap.ofList [({}, 0)])
  let reductionOf (v : Nat) (p : Production) : Reduction :=
    ⟨v, p.steps.length, p.weight, shapes.getD (shapeOf labelsIn p) 0⟩
  let reductions := productions.foldl (fun (m : Std.HashMap Reduction Nat) (v, p) =>
    m.insertIfNew (reductionOf v p) m.size) {}
  let itemAt (v : Nat) (p : Production) (read : Nat) : Item :=
    let last := p.steps[read - 1]?
    { rule := v
      next := p.steps[read]?.map (·.category)
      following := p.steps[read + 1]?.map fun s => s.category.tokensIn firsts
      successor := numberOf v p (read + 1)
      rank := last.bind (·.rank)
      assoc := last.bind (·.assoc)
      reduction :=
        if read < p.steps.length then none else some (reductions.getD (reductionOf v p) 0) }
  let whole : Item :=
    { rule := g.rules.size, next := some (.rule 0), following := none, successor := closing
      rank := none, assoc := none, reduction := none }
  let blankItems := (Array.replicate (ordered.length + 2) whole).set! closing
    { whole with next := none }
  let items := productions.reverse.foldl (fun (items : Array Item) (v, p) =>
    (List.range p.steps.length).foldl (fun (items : Array Item) i =>
      items.set! (numberOf v p (i + 1)) (itemAt v p (i + 1))) items) blankItems
  let down := stepsDown g.bodies firsts
  { items
    reductions := reductions.fold (fun (a : Array Reduction) r i => a.set! i r)
      (Array.replicate reductions.size default)
    shapes := shapes.fold (fun (a : Array Shape) s i => a.set! i s)
      (Array.replicate shapes.size default)
    openings := g.bodies.mapIdx fun v body => body.filterMap fun p =>
      p.steps.head?.map fun s => (s.category, numberOf v p 1)
    fronts := ((List.range g.bodies.size).map (front down)).toArray
    firsts
    lasts }

end Items

end CodeAtlas.Syntax
