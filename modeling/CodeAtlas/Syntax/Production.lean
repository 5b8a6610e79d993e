import CodeAtlas.Syntax.Rule
import Std.Data.HashMap

/-!
# Productions of a grammar

The rules of a grammar, written out as plain sequences. Tokens and rules get numbers, a repetition
becomes a rule of its own that chains its items, alternatives are multiplied out, and the inlined
rules are replaced by their bodies.
-/

namespace CodeAtlas.Syntax

/-- What a part of a text is. Tokens and rules are numbered. -/
inductive Category where
  /-- The end of the text. -/
  | finish
  | token (i : Nat)
  | rule (i : Nat)
  /-- Text that fits nowhere. -/
  | fault
  /-- Faults in a row, on the way to becoming one. -/
  | faults
  deriving DecidableEq, Repr, Inhabited, Hashable

/-- A part of a production. -/
structure Step where
  category : Category
  /-- Rank of the production while this part is the last one read. -/
  rank : Option Int := none
  assoc : Option Assoc := none
  /-- Kind under which the part appears, if it is not its own. -/
  rename : Option String := none
  /-- Role of the part in the node. -/
  label : Option String := none
  deriving DecidableEq, Repr, Inhabited

/-- A sequence that a rule stands for. -/
structure Production where
  weight : Int := 0
  steps : List Step
  deriving DecidableEq, Repr, Inhabited

/-- A token of a grammar with its appearance in trees. -/
structure TokenEntry where
  token : Token
  name : String
  visible : Bool
  named : Bool
  deriving Repr, Inhabited

/-- A rule of a grammar with its appearance in trees. -/
structure RuleEntry where
  name : String
  visible : Bool
  /-- Whether the definition asks for no node; a rule that is always renamed has one all the same.
  -/
  hidden : Bool
  /-- Whether the rule only chooses between others. -/
  family : Bool := false
  /-- Whether the rule is a repetition. -/
  chain : Bool := false
  deriving Repr, Inhabited

/-- The rule of a repetition. -/
def RuleEntry.ofChain : RuleEntry := { name := "", visible := false, hidden := true, chain := true }

/-! ## Numbers for tokens and rules -/

/-- The tokens and rules of a grammar, by number and by name. -/
structure Vocabulary where
  tokens : Array TokenEntry := #[]
  rules : Array RuleEntry := #[]
  texts : Std.HashMap String Nat := {}
  names : Std.HashMap String Category := {}
  deriving Inhabited

namespace Vocabulary

/-- What a leaf of a rule refers to. -/
def category (v : Vocabulary) : Word → Category
  | .text s => .token (v.texts.getD s 0)
  | .ref name => v.names.getD name .fault

/-- The vocabulary with a fixed text as a token. -/
def addText (v : Vocabulary) (s : String) : Vocabulary :=
  if v.texts.contains s then v
  else
    { v with
      tokens := v.tokens.push ⟨.text s, s, true, false⟩
      texts := v.texts.insert s v.tokens.size }

/-- The entry of a defined token. A name that starts with an underscore is hidden: the token
appears under its text, if it has only one. -/
def tokenEntry (name : String) (token : Token) : TokenEntry :=
  if name.startsWith "_" then
    match token.fixed with
    | some text => ⟨token, text, true, false⟩
    | none => ⟨token, name, false, false⟩
  else ⟨token, name, true, true⟩

/-- The vocabulary with the names and tokens of a definition. -/
def addDefinition (families : List String) (v : Vocabulary) :
    String × Definition → Vocabulary
  | (name, .token token) =>
    { v with
      tokens := v.tokens.push (tokenEntry name token)
      names := v.names.insert name (.token v.tokens.size) }
  | (name, .rule body) =>
    let family := families.contains name
    let hidden := family || name.startsWith "_"
    let v := { v with
      rules := v.rules.push { name, visible := !hidden, hidden, family }
      names := v.names.insert name (.rule v.rules.size) }
    body.leaves.foldl (fun v w =>
      match w with
      | .text s => v.addText s
      | .ref _ => v) v

/-- The vocabulary of a grammar. Tokens are numbered in the order in which they first occur. -/
def ofGrammar (g : Grammar) : Vocabulary := g.definitions.foldl (addDefinition g.families) {}

end Vocabulary

/-! ## Repetitions -/

/-- The repetitions found in the rules so far; the first one has the number `base`. -/
structure Chains where
  base : Nat
  items : Array (Rule Category) := #[]
  deriving Inhabited

namespace Chains

/-- The rule for the repetition of an item, which equal items share. -/
def chain (item : Rule Category) (c : Chains) : Rule Category × Chains :=
  match c.items.findIdx? (· == item) with
  | some i => (.leaf (.rule (c.base + i)), c)
  | none => (.leaf (.rule (c.base + c.items.size)), { c with items := c.items.push item })

/-- The bodies of the repetitions: an item, or one repetition after another. -/
def bodies (c : Chains) : List (Rule Category) :=
  c.items.toList.zipIdx.map fun (item, i) =>
    let self : Rule Category := .leaf (.rule (c.base + i))
    .choice [.seq [self, self], item]

end Chains

namespace Rule

mutual

/-- A rule with numbers for names and with its repetitions as rules of their own. -/
def number (v : Vocabulary) : Rule Word → StateM Chains (Rule Category)
  | blank => pure blank
  | leaf w => pure (leaf (v.category w))
  | seq parts => return seq (← numberList v parts)
  | choice alternatives => return choice (← numberList v alternatives)
  | many1 part => do
    let item ← number v part
    modifyGet (Chains.chain item)
  | ranked rank assoc part => return ranked rank assoc (← number v part)
  | weighted weight part => return weighted weight (← number v part)
  | labelled label part => return labelled label (← number v part)
  | renamed kind part => return renamed kind (← number v part)

/-- The same for several rules. -/
def numberList (v : Vocabulary) : List (Rule Word) → StateM Chains (List (Rule Category))
  | [] => pure []
  | r :: rest => do
    let first ← number v r
    let others ← numberList v rest
    pure (first :: others)

end

end Rule

/-! ## Writing rules out -/

namespace Production

/-- The weight further from zero, or the first of two. -/
def heavier (a b : Int) : Int := if a.natAbs < b.natAbs then b else a

/-- One production after the other. -/
def append (p q : Production) : Production :=
  ⟨heavier p.weight q.weight, p.steps ++ q.steps⟩

/-- The production with a change of its last part. -/
def onLast (f : Step → Step) (p : Production) : Production :=
  match p.steps.reverse with
  | [] => p
  | last :: rest => { p with steps := (f last :: rest).reverse }

end Production

namespace Rule

mutual

/-- All sequences that a rule stands for. `like` holds what surrounds the rule, and `isLast` tells
whether nothing follows it: a rank reaches to the last part only if nothing follows. -/
def sequences (like : Step) (isLast : Bool) : Rule Category → List Production
  | blank => [{ steps := [] }]
  | leaf category => [{ steps := [{ like with category }] }]
  | seq parts => sequencesOfSeq like isLast parts
  | choice alternatives => sequencesOfChoice like isLast alternatives
  | many1 part => sequences like isLast part
  | ranked rank assoc part =>
    let inner := sequences { like with rank := some rank, assoc := assoc.or like.assoc } isLast part
    if isLast then inner
    else inner.map (·.onLast fun s => { s with
      rank := like.rank
      assoc := if assoc.isSome then like.assoc else s.assoc })
  | weighted weight part =>
    (sequences like isLast part).map fun p =>
      { p with weight := Production.heavier weight p.weight }
  | labelled label part => sequences { like with label := some label } isLast part
  | renamed kind part => sequences { like with rename := some kind } isLast part

/-- The sequences of parts in a row. -/
def sequencesOfSeq (like : Step) (isLast : Bool) : List (Rule Category) → List Production
  | [] => [{ steps := [] }]
  | part :: rest =>
    let firsts := sequences like (isLast && rest.isEmpty) part
    let others := sequencesOfSeq like isLast rest
    firsts.flatMap fun p => others.map p.append

/-- The sequences of any of several alternatives. -/
def sequencesOfChoice (like : Step) (isLast : Bool) : List (Rule Category) → List Production
  | [] => []
  | part :: rest => sequences like isLast part ++ sequencesOfChoice like isLast rest

end

def productions (r : Rule Category) : List Production :=
  (r.sequences default true).eraseDups

end Rule

/-! ## Kinds that are always renamed -/

/-- The kinds under which a category appears, with how often, and whether it also appears under its
own. -/
structure Appearance where
  renames : List (String × Nat) := []
  plain : Bool := false
  deriving Inhabited

namespace Appearance

/-- Count one more appearance. -/
def add (a : Appearance) : Option String → Appearance
  | none => { a with plain := true }
  | some kind =>
    if a.renames.any (·.1 == kind) then
      { a with renames := a.renames.map fun r => if r.1 == kind then (kind, r.2 + 1) else r }
    else { a with renames := a.renames ++ [(kind, 1)] }

/-- The most frequent kind of a category that never appears under its own. -/
def main? (a : Appearance) : Option String :=
  if a.plain then none
  else
    (a.renames.foldl (fun (best : Option (String × Nat)) r =>
      match best with
      | some b => if b.2 < r.2 then some r else best
      | none => some r) none).map (·.1)

end Appearance

/-- The appearances of all categories in productions, not counting the inlined rules. -/
def appearances (comments : List Category) (inlined : Category → Bool)
    (bodies : List (List Production)) : Std.HashMap Category Appearance :=
  let count (seen : Std.HashMap Category Appearance) (c : Category) (r : Option String) :=
    seen.insert c ((seen.getD c {}).add r)
  let inBodies := bodies.foldl (fun seen body => body.foldl (fun seen p =>
    p.steps.foldl (fun seen s =>
      if inlined s.category then seen else count seen s.category s.rename) seen) seen) {}
  comments.foldl (fun seen c => count seen c none) inBodies

/-- The productions without the renames that a category always has, unless another production of
the rule renames a different category at that place to the same kind. -/
def dropMainRenames (main : Category → Option String) (body : List Production) :
    List Production :=
  let needed (i place : Nat) (kind : String) : Bool :=
    body.zipIdx.any fun (q, k) => k != i &&
      match q.steps[place]? with
      | some s => s.rename == some kind && main s.category != some kind
      | none => false
  body.zipIdx.map fun (p, i) =>
    { p with
      steps := p.steps.zipIdx.map fun (s, place) =>
        match s.rename with
        | some kind =>
          if main s.category == some kind && !needed i place kind then { s with rename := none }
          else s
        | none => s }

/-! ## Inlined rules -/

/-- A part of an inlined body in place of a reference to it. -/
def Step.inPlaceOf (inner outer : Step) : Step :=
  { inner with
    rename := outer.rename.or inner.rename
    label := outer.label.or inner.label }

/-- A production with its inlined parts replaced by their bodies, so many times. -/
def Production.inline (inlined : Category → Bool) (bodyOf : Category → List Production) :
    Nat → Production → List Production
  | 0, p => [p]
  | fuel + 1, p =>
    let before := p.steps.takeWhile fun s => !inlined s.category
    match p.steps.dropWhile fun s => !inlined s.category with
    | [] => [p]
    | outer :: after =>
      ((bodyOf outer.category).flatMap fun inner =>
        let placed : Production := ⟨inner.weight, inner.steps.map fun s => s.inPlaceOf outer⟩
        let inserted := placed.onLast fun s =>
          { s with rank := s.rank.or outer.rank, assoc := s.assoc.or outer.assoc }
        Production.inline inlined bodyOf fuel
          ⟨heavier p.weight inserted.weight, before ++ inserted.steps ++ after⟩).eraseDups

/-! ## The productions of a grammar -/

/-- A grammar written out. -/
structure Productions where
  tokens : Array TokenEntry
  rules : Array RuleEntry
  /-- The productions of each rule. -/
  bodies : Array (List Production)
  /-- The productions of each rule in which inlined rules still stand. -/
  outlines : Array (List Production)
  /-- Number of the token of which keywords are special cases. -/
  word : Nat
  /-- Tokens that may stand between other tokens. -/
  comments : List Nat
  /-- Kinds of categories that never appear under their own. -/
  renames : Std.HashMap Category String
  blanks : CharSet
  deriving Inhabited

def Category.tokenNumber : Category → Nat
  | token i => i
  | _ => 0

def Grammar.productions (g : Grammar) : Productions :=
  let v := Vocabulary.ofGrammar g
  let rules := g.definitions.filterMap fun (_, d) =>
    match d with
    | .rule body => some body
    | .token _ => none
  let (numbered, chains) := (Rule.numberList v rules).run { base := v.rules.size }
  let bodies := (numbered ++ chains.bodies).map Rule.productions
  let isInlined (c : Category) : Bool := g.inlined.any fun name => v.names[name]? == some c
  let comments := g.comments.map fun name => v.category (.ref name)
  let seen := appearances comments isInlined bodies
  let main (c : Category) : Option String := (seen[c]?).bind Appearance.main?
  let outlines := (bodies.map fun body =>
    dropMainRenames (fun c => if isInlined c then none else main c) body).toArray
  let bodyOf : Category → List Production
    | .rule i => outlines.getD i []
    | _ => []
  let inlined := outlines.toList.zipIdx.map fun (body, i) =>
    if isInlined (.rule i) then []
    else (body.flatMap (·.inline isInlined bodyOf 16)).eraseDups
  let renames := seen.toList.filterMap fun (c, a) => a.main?.map fun kind => (c, kind)
  { tokens := v.tokens.mapIdx fun i t =>
      match main (.token i) with
      | some kind => { t with name := kind, visible := true, named := true }
      | none => t
    rules := (v.rules ++ chains.items.map fun _ => RuleEntry.ofChain).mapIdx fun i r =>
      match main (.rule i) with
      | some kind => { r with name := kind, visible := true }
      | none => r
    bodies := inlined.toArray
    outlines
    word := (v.category (.ref g.word)).tokenNumber
    comments := comments.map Category.tokenNumber
    renames := Std.HashMap.ofList renames
    blanks := g.blanks }

end CodeAtlas.Syntax
