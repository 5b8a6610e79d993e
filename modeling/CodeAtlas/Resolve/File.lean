import CodeAtlas.Resolve.Members
import CodeAtlas.Table.Symbols

/-!
# Resolving the references of a file

Every import and every reference becomes exactly one edge. A name that the project does not define
gets a placeholder as its target; something that is only known when the program runs gets a
placeholder whose name starts with `dynamic::` and a low score.

Resolution itself only reads a `View`. A `Finding` is the edge together with what the table has to
learn: the placeholder to create and the report to keep.
-/

namespace CodeAtlas

/-! ## Scores -/

namespace Confidence

/-- The target is defined in the project. -/
def exact : Float := 1.0

/-- The target is a placeholder. -/
def placeholder : Float := 0.5

/-- The target is a member of a supertype. -/
def inherited : Float := 0.9

/-- The target is the only method of that name. -/
def dynamicReceiver : Float := 0.3

/-- The value of the variable is not known. -/
def propagationMiss : Float := 0.2

/-- The target is computed. -/
def computed : Float := 0.1

end Confidence

/-- What the names of placeholders for things known only at run time start with. -/
def dynamicMark : String := "dynamic::"

/-! ## Findings -/

/-- An edge, and what the table has to learn for it. -/
structure Finding where
  edge : Edge
  /-- The placeholder that the edge needs. -/
  placeholder : Option Symbol := none
  report : Option Diagnostic := none
  deriving Inhabited

namespace Finding

/-- Attach a fact to the edge. -/
def withMeta (f : Finding) (key : String) (value : Json) : Finding :=
  { f with edge := f.edge.withMeta key value }

/-- Tell the table what a finding needs. -/
def teach (t : Table) (f : Finding) : Table :=
  let t := match f.report with
    | some d => t.record d
    | none => t
  match f.placeholder with
  | some template => (t.ensurePlaceholder template).2
  | none => t

end Finding

/-- The identifier of the definition that holds a reference, or of the file (`source_id`). -/
def FileSketch.sourceId (f : FileSketch) (source : Option String) : SymbolId :=
  match source with
  | some relative =>
    if (f.symbolAt? relative).isSome then .ofFqn (f.qualify relative) else .ofFqn f.path
  | none => .ofFqn f.path

/-- Where an edge starts: its type, source, owner and line. -/
structure Origin where
  type : EdgeType
  source : SymbolId
  owner : String
  line : UInt32
  deriving Inhabited

namespace Origin

def toSymbol (o : Origin) (s : Symbol) (confidence : Float) : Finding :=
  { edge := .ofScore o.type o.source s.id confidence o.owner o.line }

/-- An edge to a placeholder that is made from a template. -/
def toTemplate (o : Origin) (template : Symbol) (confidence : Float) : Finding :=
  { edge := .ofScore o.type o.source template.id confidence o.owner o.line
    placeholder := some template }

def toPlaceholder (o : Origin) (fqn : String) (confidence : Float) : Finding :=
  o.toTemplate (.placeholder fqn (shortName fqn)) confidence

/-- An edge to something computed, with its text (`computed`). -/
def toComputed (o : Origin) (text : String) : Finding :=
  ((o.toPlaceholder (dynamicMark ++ text) Confidence.computed).withMeta "dynamic"
    (.bool true)).withMeta "expression" (.string text)

end Origin

namespace View

open SymbolLookup

/-! ## Names -/

/-- An edge to what a name stands for, or to a placeholder (`resolve_or_external`). -/
def named (v : View) (o : Origin) (c : Scope) (filter : LookupFilter) (name : String) : Finding :=
  match resolve? v.snapshot name c filter with
  | some s => o.toSymbol s Confidence.exact
  | none => o.toPlaceholder (c.placeholderName name) Confidence.placeholder

/-- An edge to a type or value (`typed`); a variable stands for the literal that it holds. -/
def typed (v : View) (o : Origin) (c : Scope) (filter : LookupFilter) : Target → Finding
  | .name name => v.named o c filter name
  | .viaVariable x =>
    match c.literal? x o.line with
    | some literal =>
      ((v.named o c filter literal).withMeta "via_propagation" (.bool true)).withMeta "variable"
        (.string x)
    | none =>
      ((o.toPlaceholder (dynamicMark ++ x) Confidence.propagationMiss).withMeta "dynamic"
        (.bool true)).withMeta "variable" (.string x)
  | .dynamic text => o.toComputed text

/-! ## Calls -/

/-- An edge to a method of a type, declared or inherited. -/
def methodOf? (v : View) (o : Origin) (owner : Symbol) (name : String) : Option Finding :=
  match v.memberOf? owner name with
  | some m => some (o.toSymbol m Confidence.exact)
  | none =>
    (v.inheritedMember? owner name).map fun m =>
      (o.toSymbol m Confidence.inherited).withMeta "inherited" (.bool true)

/-- An edge to a placeholder for a call that was not resolved (in `call`). -/
def unresolvedCall (o : Origin) (fqn : String) : Finding :=
  (o.toPlaceholder fqn Confidence.placeholder).withMeta "unresolved" (.bool true)

/-- A call without a receiver, or on the enclosing object (in `call`): a method of the enclosing
type, else, without a receiver, a function. -/
def ownCall (v : View) (o : Origin) (c : Scope) (onSelf : Bool) (name : String) : Finding :=
  let owner := c.enclosingType.bind (findDefined? v.snapshot)
  match owner.bind fun t => v.methodOf? o t name with
  | some f => f
  | none =>
    let function :=
      if onSelf then none
      else (resolve? v.snapshot name c .callables).filter fun s =>
        s.kind == .function || c.isQualified name
    match function, owner, onSelf with
    | some s, _, _ => o.toSymbol s Confidence.exact
    | none, some t, true => unresolvedCall o (v.memberName t name)
    | none, _, _ => unresolvedCall o (c.placeholderName name)

/-- A call on a type or a namespace (in `call`). -/
def staticCall (v : View) (o : Origin) (c : Scope) (typeName name : String) : Finding :=
  match resolve? v.snapshot typeName c .any with
  | some owner => (v.methodOf? o owner name).getD (unresolvedCall o (v.memberName owner name))
  | none => unresolvedCall o (c.placeholderName typeName ++ c.separator ++ name)

/-- The report of a call that several methods match (in `dynamic_call`). -/
def ambiguousCall (o : Origin) (expression name : String) (count : Nat) : Diagnostic :=
  ⟨.resolutionAmbiguity, o.owner,
    "line " ++ toString o.line.toNat ++ ": " ++ expression ++ "." ++ name ++ "() matches "
      ++ toString count ++ " methods"⟩

/-- A call on an expression of unknown type (`dynamic_call`): the method of that name if there is
only one. -/
def dynamicCall (v : View) (o : Origin) (expression name : String) : Finding :=
  let found := (SymbolLookup.named v.snapshot name).filter fun s => s.kind == .method
  let f := match found with
    | [only] => o.toSymbol only Confidence.dynamicReceiver
    | _ =>
      { o.toPlaceholder (dynamicMark ++ name) Confidence.propagationMiss with
        report := if found.isEmpty then none
          else some (ambiguousCall o expression name found.length) }
  ((f.withMeta "candidates" (.nat found.length)).withMeta "dynamic" (.bool true)).withMeta
    "receiver" (.string expression)

/-- An edge to what is called (`call`). -/
def call (v : View) (o : Origin) (c : Scope) (receiver : Receiver) : Target → Finding
  | .name name =>
    match receiver with
    | .unqualified => v.ownCall { o with type := .calls } c false name
    | .selfRef => v.ownCall { o with type := .calls } c true name
    | .typeName t => v.staticCall { o with type := .callsStatic } c t name
    | .expression text => v.dynamicCall { o with type := .calls } text name
  | .viaVariable text | .dynamic text => { o with type := .calls }.toComputed text

/-! ## Files -/

/-- The type of the edge of a reference, with the kinds that may answer a short name (in
`reference`); `none` for a call. -/
def edgeTypeOf : ReferenceKind → Option (EdgeType × LookupFilter)
  | .extendsType => some (.extendsType, .types)
  | .implements => some (.implements, .types)
  | .usesMixin => some (.usesMixin, .types)
  | .instantiate => some (.instantiates, .types)
  | .throws => some (.throws, .types)
  | .returnsType => some (.returnsType, .types)
  | .acceptsType => some (.acceptsType, .types)
  | .reads => some (.reads, .values)
  | .writes => some (.writes, .values)
  | .call | .serviceLookup | .eventEmit | .eventListen | .route => none

/-- The edge of an import (in `imports`). -/
def importEdge (v : View) (f : FileSketch) (i : ImportSketch) : Finding :=
  let o : Origin := ⟨.imports, .ofFqn f.path, f.path, i.line⟩
  let e := match findDefined? v.snapshot i.target with
    | some s => o.toSymbol s Confidence.exact
    | none => o.toPlaceholder i.target Confidence.exact
  let e := match i.localName with
    | some a => e.withMeta "alias" (.string a)
    | none => e
  if i.wildcard then e.withMeta "wildcard" (.bool true) else e

/-- The edge of a reference (`reference`). -/
def referenceEdge (v : View) (f : FileSketch) (c : Scope) (r : ReferenceSketch) : Finding :=
  let c := c.enter f r.source
  let source := f.sourceId r.source
  match edgeTypeOf r.kind with
  | some (type, filter) => v.typed ⟨type, source, f.path, r.line⟩ c filter r.target
  | none => v.call ⟨.calls, source, f.path, r.line⟩ c r.receiver r.target

def scopeOf (f : FileSketch) : Scope :=
  Scope.ofFile f (ImportBindings.ofFile f) (.ofAssignments f.assignments)

/-- The findings of a file (in `resolve_file`): its imports, then its references that are not for
enrichment. -/
def findings (v : View) (f : FileSketch) : List Finding :=
  f.imports.map (v.importEdge f)
    ++ (f.references.filter fun r => !r.kind.isEnrichment).map (v.referenceEdge f (scopeOf f))

end View

/-- The edges of one file. -/
structure FileResolution where
  path : String
  edges : List Edge
  /-- How many edges have a placeholder as their target. -/
  unresolved : Nat
  deriving Inhabited

/-- Whether the target of an edge is not defined in the project (in `resolve_file`). -/
def Table.isUnresolved (t : Table) (e : Edge) : Bool :=
  match SymbolLookup.findId? t e.target with
  | some s => s.isExternal
  | none => true

/-- Resolve a file (`resolve_file`); the table learns the placeholders and the reports. -/
def Table.resolveFile (t : Table) (v : View) (f : FileSketch) : FileResolution × Table :=
  let found := v.findings f
  let t := found.foldl Finding.teach t
  let edges := Edge.sort (found.map (·.edge))
  ({ path := f.path, edges, unresolved := (edges.filter t.isUnresolved).length }, t)

end CodeAtlas
