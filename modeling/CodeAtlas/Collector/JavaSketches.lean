import CodeAtlas.Collector.Reading
import CodeAtlas.Syntax.Known

/-!
# Sketches of Java files

A walk over the syntax tree of a Java file. Classes, interfaces and enums, their methods, fields and
constants are definitions; calls, creations, field accesses through `this`, annotations for routes
and listeners, and well-known container, event and routing calls are references. The walk lists what
it comes across, and the list is then recorded in the sketches of the file: overloaded methods share
one definition, which counts them.
-/

namespace CodeAtlas.JavaSketches

open Syntax

/-- Annotations that map a route, with their request methods. -/
def routeAnnotations : List (String × String) :=
  [("GetMapping", "GET"), ("PostMapping", "POST"), ("PutMapping", "PUT"),
    ("DeleteMapping", "DELETE"), ("PatchMapping", "PATCH"), ("RequestMapping", "ANY")]

/-- Names of objects on which routes are registered. -/
def routeRegistrars : List String := ["app", "router", "routes", "server", "http", "spark"]

/-- Where the walk is. -/
structure Position where
  source : Source
  /-- Relative path of the enclosing type. -/
  type : Option String := none
  /-- Relative path of the enclosing method or constructor. -/
  callable : Option String := none
  /-- Route that the enclosing type maps. -/
  routePrefix : Option String := none
  /-- Whether the node is a member of a type body. -/
  member : Bool := false
  deriving Inhabited

/-- Something that the walk comes across. -/
inductive Note where
  | package (name : Option String)
  | imported (i : ImportSketch)
  | definition (s : SymbolSketch)
  | reference (r : ReferenceSketch)
  | assignment (a : LiteralAssignment)

/-- A walk into a node: what it comes across there, in order. -/
abbrev Walk := Position → Node → List Note

namespace Position

def text (p : Position) (n : Node) : String := p.source.text n

/-- The innermost definition (`from`). -/
def within (p : Position) : Option String := p.callable.or p.type

end Position

/-! ## Reading nodes -/

/-- The name of a type without its arguments (`type_name`); primitive types have none. -/
def typeName? (p : Position) (n : Node) : Option String :=
  go n.height n
where
  /-- The name, looking through so many array types. -/
  go : Nat → Node → Option String
    | 0, _ => none
    | fuel + 1, n =>
      match n.kind with
      | "type_identifier" | "scoped_type_identifier" => some (p.text n)
      | "generic_type" =>
        (n.namedChildren.find? fun c =>
          c.kind == "type_identifier" || c.kind == "scoped_type_identifier").map p.text
      | "array_type" => (n.childBy? "element").bind (go fuel)
      | _ => none

/-- The names of the types in a clause (`type_names`). -/
def typeNames (p : Position) (clause : Node) : List String :=
  go clause.height clause
where
  /-- The names, looking into so many nested lists. -/
  go : Nat → Node → List String
    | 0, _ => []
    | fuel + 1, n => n.namedChildren.flatMap fun c =>
      match typeName? p c with
      | some name => [name]
      | none => if c.kind == "type_list" then go fuel c else []

def modifiers? (n : Node) : Option Node := n.namedChildren.find? fun c => c.kind == "modifiers"

def hasModifier (n : Node) (word : String) : Bool :=
  match modifiers? n with
  | some m => m.children.any fun c => c.kind == word
  | none => false

def annotations (n : Node) : List Node :=
  match modifiers? n with
  | some m => m.namedChildren.filter fun c =>
      c.kind == "annotation" || c.kind == "marker_annotation"
  | none => []

def annotationName (p : Position) (note : Node) : String :=
  match note.childBy? "name" with
  | some n => Text.lastSegment (p.text n) "."
  | none => ""

/-- The argument of an annotation (`annotation_value`): the first that has no name, or is named
`value` or `path`. -/
def annotationValue? (p : Position) (note : Node) : Option Node :=
  (note.childBy? "arguments").bind fun args => go args.namedChildren
where
  /-- The argument among some. -/
  go : List Node → Option Node
    | [] => none
    | child :: rest =>
      if child.kind == "element_value_pair" then
        match (child.childBy? "key").map p.text with
        | some "value" | some "path" => child.childBy? "value"
        | _ => go rest
      else some child

def stringLiteral? (p : Position) (n : Node) : Option String :=
  if n.kind == "string_literal" then unquote? (p.text n) else none

/-- A literal, a variable, or anything else (`value_target`). -/
def valueTarget (p : Position) (n : Node) : Target :=
  match stringLiteral? p n with
  | some literal => .name literal
  | none => if n.kind == "identifier" then .viaVariable (p.text n) else .dynamic (p.text n)

/-- The event that an argument stands for (`event_target`): a literal, or the class of an event
object. -/
def eventTarget (p : Position) (n : Node) : Target :=
  match n.kind with
  | "object_creation_expression" =>
    match (n.childBy? "type").bind (typeName? p) with
    | some name => .name name
    | none => .dynamic (p.text n)
  | "class_literal" => .name (Text.trimSuffix ".class" (p.text n))
  | _ => valueTarget p n

/-- The request method and path that a declaration maps by an annotation (`route_annotation`). -/
def routeAnnotation? (p : Position) (n : Node) : Option (String × String) :=
  (annotations n).findSome? fun a =>
    (routeAnnotations.find? fun r => r.1 == annotationName p a).map fun r =>
      (r.2, ((annotationValue? p a).bind (stringLiteral? p)).getD "")

/-- A route under the route of the enclosing type (`join_route`). -/
def joinRoute (outer : Option String) (path : String) : String :=
  match outer with
  | some o =>
    if o.isEmpty then path
    else Text.trimSuffix "/" (Text.trimSuffix "/" o ++ "/" ++ Text.trimPrefix "/" path)
  | none => path

def arguments (n : Node) : List Node :=
  match n.childBy? "arguments" with
  | some args => args.namedChildren
  | none => []

/-! ## Declarations -/

/-- A reference from the innermost definition, or from the one given (`reference`). -/
def refer (p : Position) (kind : ReferenceKind) (target : Target) (source : Option String)
    (n : Node) : Note :=
  .reference (referenceAt n kind target (source.or p.within))

/-- References to the types of a clause. -/
def referTypes (p : Position) (kind : ReferenceKind) (source : String) (clause : Node) :
    List Note :=
  (typeNames p clause).map fun name => refer p kind (.name name) (some source) clause

def walkChildren (walk : Walk) (p : Position) (n : Node) : List Note :=
  n.namedChildren.flatMap (walk p)

/-- The namespace of the file (`extract_package`). -/
def readPackage (p : Position) (n : Node) : List Note :=
  [.package ((n.namedChildren.find? fun c =>
    c.kind == "scoped_identifier" || c.kind == "identifier").map p.text)]

/-- An import (`extract_import`). Of a static member its type is imported. -/
def readImport (p : Position) (n : Node) : List Note :=
  match n.namedChildren.find? fun c => c.kind == "scoped_identifier" || c.kind == "identifier" with
  | none => []
  | some name =>
    let wildcard := n.namedChildren.any fun c => c.kind == "asterisk"
    let isStatic := n.children.any fun c => c.kind == "static"
    let target := p.text name
    let target := if isStatic && !wildcard then
        match Text.splitOnceLast? "." target with
        | some (owner, _) => owner
        | none => target
      else target
    [.imported { target, localName := none, wildcard, line := n.line }]

/-- The clauses of a type declaration that name supertypes, with the kinds of their references (in
`extract_type`). -/
def supertypeClauses (n : Node) : List (ReferenceKind × Node) :=
  ((n.childBy? "superclass").map fun c => (.extendsType, c)).toList
    ++ ((n.childBy? "interfaces").map fun c => (.implements, c)).toList
    ++ (n.namedChildren.filter fun c => c.kind == "extends_interfaces").map fun c =>
      (.extendsType, c)

/-- The definition of a class, interface or enum (in `extract_type`). -/
def typeSketch (p : Position) (n nameNode : Node) : SymbolSketch :=
  let kind := if n.kind == "interface_declaration" then SymbolKind.interfaceType else .classType
  let supertypes := (supertypeClauses n).flatMap fun (_, c) => typeNames p c
  let facts : Metadata := if n.kind == "enum_declaration" then
      SortedMap.ofList [("enum", .bool true)]
    else ∅
  let facts := if supertypes.isEmpty then facts
    else facts.insert "supertypes" (.strings supertypes)
  { name := p.text nameNode, parent := p.type, kind, line := n.line, column := n.column
    exported := hasModifier n "public", metadata := facts }

/-- A type with its members (`extract_type`). -/
def readType (walk : Walk) (p : Position) (n : Node) : List Note :=
  match n.childBy? "name" with
  | none => []
  | some nameNode =>
    let sketch := typeSketch p n nameNode
    let relative := sketch.relativePath "."
    let inner := { p with
      type := some relative, callable := none, member := true
      routePrefix := (routeAnnotation? p n).map (·.2) }
    (supertypeClauses n).flatMap (fun (k, c) => referTypes p k relative c)
      ++ .definition sketch
      :: (n.childBy? "body").toList.flatMap fun body => body.namedChildren.flatMap (walk inner)

/-- The definition of a constant of an enum (in `extract_enum_constant`). -/
def constantSketch (p : Position) (n nameNode : Node) : SymbolSketch :=
  { name := p.text nameNode, parent := p.type, kind := .constant, line := n.line
    column := n.column }

/-- A constant of an enum (`extract_enum_constant`). -/
def readEnumConstant (walk : Walk) (p : Position) (n : Node) : List Note :=
  (n.childBy? "name").toList.map (fun name => .definition (constantSketch p n name))
    ++ walkChildren walk p n

def parameters (n : Node) : List Node :=
  match n.childBy? "parameters" with
  | some params => params.namedChildren.filter fun c =>
      c.kind == "formal_parameter" || c.kind == "spread_parameter"
  | none => []

def parameterType? (p : Position) (param : Node) : Option String :=
  (param.childBy? "type").bind (typeName? p)

/-- The route that an annotation of a method maps (in `method_annotations`). -/
def readRoute (p : Position) (n : Node) (name relative : String) : List Note :=
  (routeAnnotation? p n).toList.map fun (method, path) =>
    .reference ((((referenceAt n .route (.name name) (some relative)).withExtra "annotation"
      (.bool true)).withExtra "method" (.string method)).withExtra "path"
      (.string (joinRoute p.routePrefix path)))

/-- The event that an annotation of a method listens to (in `method_annotations`). -/
def readListener (p : Position) (n : Node) (relative : String) (note : Node) : List Note :=
  if annotationName p note != "EventListener" then []
  else
    let event := match annotationValue? p note with
      | some value => some (eventTarget p value)
      | none => ((parameters n).filterMap (parameterType? p)).head?.map Target.name
    event.toList.map fun target => refer p .eventListen target (some relative) note

/-- The types that the signature of a callable names, and its annotations (in
`extract_callable`). -/
def readSignature (p : Position) (n : Node) (name relative : String) : List Note :=
  (parameters n).flatMap (fun param => (parameterType? p param).toList.map fun t =>
      refer p .acceptsType (.name t) (some relative) param)
    ++ ((n.childBy? "type").bind (typeName? p)).toList.map (fun t =>
      refer p .returnsType (.name t) (some relative) n)
    ++ (n.namedChildren.filter fun c => c.kind == "throws").flatMap (referTypes p .throws relative)
    ++ readRoute p n name relative
    ++ (annotations n).flatMap (readListener p n relative)

/-- The definition of a method or constructor (in `extract_callable`). -/
def callableSketch (p : Position) (n nameNode : Node) : SymbolSketch :=
  let names := (parameters n).filterMap fun c => (c.childBy? "name").map p.text
  let facts : List (String × Json) :=
    (if n.kind == "constructor_declaration" then [("constructor", .bool true)] else [])
      ++ (if hasModifier n "static" then [("static", .bool true)] else [])
      ++ [("parameters", .strings names)]
  { name := p.text nameNode, parent := p.type, kind := .method, line := n.line, column := n.column
    exported := hasModifier n "public", metadata := SortedMap.ofList facts }

/-- A method or constructor (`extract_callable`). -/
def readCallable (walk : Walk) (p : Position) (n : Node) : List Note :=
  match n.childBy? "name" with
  | none => []
  | some nameNode =>
    let sketch := callableSketch p n nameNode
    let relative := sketch.relativePath "."
    readSignature p n sketch.name relative
      ++ .definition sketch
      :: (n.childBy? "body").toList.flatMap
        (walk { p with callable := some relative, member := false })

/-- The definition of one variable of a field declaration (in `extract_field`). -/
def fieldSketch (p : Position) (n declarator nameNode : Node) : SymbolSketch :=
  let kind := if hasModifier n "static" && hasModifier n "final" then SymbolKind.constant
    else .property
  let facts : Metadata := match (n.childBy? "type").bind (typeName? p) with
    | some t => SortedMap.ofList [("type", .string t)]
    | none => ∅
  { name := p.text nameNode, parent := p.type, kind, line := declarator.line
    column := declarator.column, exported := hasModifier n "public", metadata := facts }

/-- One variable of a field declaration (in `extract_field`). -/
def readField (walk : Walk) (p : Position) (n : Node) (declarator : Node) : List Note :=
  match declarator.childBy? "name" with
  | none => []
  | some nameNode =>
    let sketch := fieldSketch p n declarator nameNode
    .definition sketch :: (declarator.childBy? "value").toList.flatMap fun value =>
      (stringLiteral? p value).toList.map (fun literal =>
        .assignment ⟨p.type, sketch.name, literal, declarator.line⟩)
      ++ walk p value

/-- One variable of a local declaration (in `extract_local`). -/
def readLocal (walk : Walk) (p : Position) (declarator : Node) : List Note :=
  match declarator.childBy? "value" with
  | none => []
  | some value =>
    let literals := match declarator.childBy? "name", stringLiteral? p value with
      | some name, some literal =>
        [.assignment ⟨p.within, p.text name, literal, declarator.line⟩]
      | _, _ => []
    literals ++ walk p value

/-! ## Expressions -/

/-- Access to a field (`extract_field_access`): through `this` it reads or writes the field. -/
def readFieldAccess (walk : Walk) (p : Position) (kind : ReferenceKind) (n : Node) : List Note :=
  match n.childBy? "object", n.childBy? "field" with
  | some object, some field =>
    if object.kind == "this" then [refer p kind (.name (p.text field)) none field]
    else walk p object
  | some object, none => walk p object
  | none, _ => []

/-- An assignment (`extract_assignment`). -/
def readAssignment (walk : Walk) (p : Position) (n : Node) : List Note :=
  let left := n.childBy? "left"
  let written := match left with
    | some l => if l.kind == "field_access" then readFieldAccess walk p .writes l else walk p l
    | none => []
  match n.childBy? "right" with
  | none => written
  | some right =>
    let literals := match left, stringLiteral? p right with
      | some l, some literal =>
        if l.kind == "identifier" then [.assignment ⟨p.within, p.text l, literal, n.line⟩] else []
      | _, _ => []
    written ++ literals ++ walk p right

/-- The creation of an object (`extract_creation`). -/
def readCreation (walk : Walk) (p : Position) (n : Node) : List Note :=
  ((n.childBy? "type").bind (typeName? p)).toList.map (fun t =>
      refer p .instantiate (.name t) none n)
    ++ walkChildren walk p n

/-- The registration of a route (`route_registration`): a path and its handler. -/
def routeRegistration? (p : Position) (verb : String) (args : List Node) (n : Node) :
    Option ReferenceSketch :=
  match args with
  | [path, handler] =>
    (stringLiteral? p path).map fun route =>
      let target : Target := match handler.kind with
        | "method_reference" => .name (Text.replace "::" "." (p.text handler))
        | "identifier" => .name (p.text handler)
        | _ => .dynamic (p.text handler)
      ((referenceAt n .route target p.within).withExtra "method"
        (.string (Text.toUpper verb))).withExtra "path" (.string route)
  | _ => none

/-- The reference of a call that looks up a service, concerns an event or registers a route (in
`extract_invocation`). -/
def wellKnownCall? (p : Position) (name : String) (object : Option Node) (args : List Node)
    (n : Node) : Option ReferenceSketch :=
  let objectText := (object.map p.text).getD ""
  let at' (kind : ReferenceKind) (t : Target) := referenceAt n kind t p.within
  let service := args.head?.bind fun a =>
    if a.kind == "class_literal" then none else some (at' .serviceLookup (valueTarget p a))
  let event (kind : ReferenceKind) := args.head?.map fun a => at' kind (eventTarget p a)
  let inContainer := Text.occurs "container" (Text.toLower objectText)
  let onRegistrar := object.isNone || routeRegistrars.contains (Text.toLower objectText)
  if name == "forName" && objectText == "Class" then
    some (at' .instantiate (match args.head? with
      | some a => valueTarget p a
      | none => .dynamic (p.text n)))
  else if name == "getBean" then service
  else if (name == "get" || name == "resolve") && inContainer then service
  else if ["publishEvent", "emit", "dispatch", "fire"].contains name then event .eventEmit
  else if ["on", "addListener", "subscribe", "listen"].contains name then event .eventListen
  else if ["get", "post", "put", "delete", "patch"].contains name && onRegistrar then
    routeRegistration? p name args n
  else none

/-- What a call is made on (in `extract_invocation`). -/
def receiverOf (p : Position) : Option Node → Receiver
  | none => .unqualified
  | some o =>
    if o.kind == "this" || o.kind == "super" then .selfRef
    else if o.kind == "identifier" && Text.isCapitalised (p.text o) then .typeName (p.text o)
    else .expression (p.text o)

/-- A call (`extract_invocation`). -/
def readInvocation (walk : Walk) (p : Position) (n : Node) : List Note :=
  match n.childBy? "name" with
  | none => walkChildren walk p n
  | some nameNode =>
    let name := p.text nameNode
    let object := n.childBy? "object"
    let args := arguments n
    let reference := match wellKnownCall? p name object args n with
      | some r => r
      | none =>
        { referenceAt nameNode .call (.name name) p.within with receiver := receiverOf p object }
    .reference reference :: (object.toList.flatMap (walk p) ++ args.flatMap (walk p))

/-! ## The walk -/

def step (walk : Walk) (p : Position) (n : Node) : List Note :=
  let inner := { p with member := false }
  match n.kind with
  | "package_declaration" => readPackage p n
  | "import_declaration" => readImport p n
  | "class_declaration" | "interface_declaration" | "enum_declaration" => readType walk inner n
  | "method_declaration" | "constructor_declaration" => readCallable walk inner n
  | "field_declaration" => (n.childrenBy "declarator").flatMap (readField walk inner n)
  | "local_variable_declaration" => (n.childrenBy "declarator").flatMap (readLocal walk inner)
  | "method_invocation" => readInvocation walk inner n
  | "object_creation_expression" => readCreation walk inner n
  | "assignment_expression" => readAssignment walk inner n
  | "field_access" => readFieldAccess walk inner .reads n
  | "enum_constant" =>
    if p.member then readEnumConstant walk inner n else walkChildren walk inner n
  | "enum_body_declarations" =>
    if p.member then walkChildren walk p n else walkChildren walk inner n
  | _ => walkChildren walk inner n

/-- Walk a tree of at most this height (`extract`). -/
def extract : Nat → Walk
  | 0, _, _ => []
  | fuel + 1, p, n => step (extract fuel) p n

/-! ## Recording -/

/-- How often a definition has been seen. -/
def overloads (s : SymbolSketch) : Nat := ((s.metadata.get? "overloads").bind Json.nat?).getD 1

/-- Count one more definition of the same path (in `define`). -/
def countOverload (s : SymbolSketch) : SymbolSketch :=
  { s with metadata := s.metadata.insert "overloads" (.nat (overloads s + 1)) }

/-- The sketches of a file in the making. -/
structure Draft where
  file : FileSketch
  /-- The place of every defined path among the symbols. -/
  places : SortedMap String Nat := ∅

namespace Draft

/-- Add a definition, or count it if its path is defined already (`define`). -/
def define (d : Draft) (s : SymbolSketch) : Draft :=
  match d.places.get? (s.relativePath ".") with
  | some i => { d with file := { d.file with symbols := d.file.symbols.modify i countOverload } }
  | none =>
    { file := d.file.addSymbol s
      places := d.places.insert (s.relativePath ".") d.file.symbols.length }

/-- Record something that the walk came across. -/
def record (d : Draft) : Note → Draft
  | .package name => { d with file := { d.file with moduleName := name } }
  | .imported i => { d with file := d.file.addImport i }
  | .definition s => d.define s
  | .reference r => { d with file := d.file.addReference r }
  | .assignment a => { d with file := d.file.addAssignment a }

end Draft

def ofTree (path : String) (source : Source) (root : Node) : FileSketch :=
  ((extract root.height { source } root).foldl Draft.record
    { file := { path, language := "java", separator := "." } }).file

def collector : Collector where
  language := "java"
  extensions := [".java"]
  collect path content :=
    let source := Source.ofString content
    let root := Java.tree source
    judgeSketches root (ofTree path source root)

end CodeAtlas.JavaSketches
