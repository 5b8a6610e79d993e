import CodeAtlas.Collector.Reading
import CodeAtlas.Syntax.Known

/-!
# Sketches of Go files

A walk over the syntax tree of a Go file. Functions, methods, types, their fields and methods, and
constants are definitions; embedded types, signatures, calls, composite literals, and well-known
container, event and routing calls are references.
-/

namespace CodeAtlas.GoSketches

open Syntax

/-- Predeclared names; they never refer to the project. -/
def builtins : List String :=
  ["append", "cap", "clear", "close", "complex", "copy", "delete", "imag", "len", "make", "max",
    "min", "new", "panic", "print", "println", "real", "recover", "any", "bool", "byte",
    "comparable", "complex64", "complex128", "error", "float32", "float64", "int", "int8",
    "int16", "int32", "int64", "rune", "string", "uint", "uint8", "uint16", "uint32", "uint64",
    "uintptr"]

def requestMethods : List String := ["GET", "POST", "PUT", "DELETE", "PATCH", "HEAD", "OPTIONS"]

/-- Where the walk is. -/
structure Position where
  source : Source
  /-- Relative path of the enclosing function or method. -/
  callable : Option String := none
  /-- Variable of the receiver of the enclosing method. -/
  receiver : Option String := none
  deriving Inhabited

/-- A walk into a node. -/
abbrev Walk := Position → Node → FileSketch → FileSketch

def Position.text (p : Position) (n : Node) : String := p.source.text n

/-! ## Reading nodes -/

/-- The name of a type, looking through pointers, slices, arrays and type arguments
(`type_name`). -/
def typeName? (p : Position) (n : Node) : Option String :=
  go n.height n
where
  /-- The name, looking through so many types. -/
  go : Nat → Node → Option String
    | 0, _ => none
    | fuel + 1, n =>
      match n.kind with
      | "type_identifier" | "qualified_type" => some (p.text n)
      | "pointer_type" | "slice_type" | "array_type" | "parenthesized_type" =>
        ((n.childBy? "element").or n.namedChildren.getLast?).bind (go fuel)
      | "generic_type" => (n.childBy? "type").bind (go fuel)
      | _ => none

/-- Whether a name is visible outside its package (`is_exported`). -/
def isExported (name : String) : Bool := Text.isCapitalised name

def isBuiltin (name : String) : Bool := builtins.contains name

/-- Whether a name is that of an imported package. -/
def isPackage (f : FileSketch) (name : String) : Bool :=
  f.imports.any fun i => !i.wildcard && i.localName.getD i.target == name

def stringLiteral? (p : Position) (n : Node) : Option String :=
  if n.kind == "interpreted_string_literal" || n.kind == "raw_string_literal" then
    unquote? (p.text n)
  else none

/-- A literal, a variable, or anything else (`value_target`). -/
def valueTarget (p : Position) (n : Node) : Target :=
  match stringLiteral? p n with
  | some literal => .name literal
  | none => if n.kind == "identifier" then .viaVariable (p.text n) else .dynamic (p.text n)

/-- The expressions of a list, or a single one (`expression_list`). -/
def expressions : Option Node → List Node
  | none => []
  | some n => if n.kind == "expression_list" then n.namedChildren else [n]

def arguments (n : Node) : List Node :=
  match n.childBy? "arguments" with
  | some args => args.namedChildren
  | none => []

/-- The names and the type of every parameter (`parameter_declarations`); predeclared types are left
out. -/
def parameterDeclarations (p : Position) (params : Node) : List (List String × Option String) :=
  (params.namedChildren.filter fun c =>
    c.kind == "parameter_declaration" || c.kind == "variadic_parameter_declaration").map fun c =>
      ((c.childrenBy "name").map p.text,
        ((c.childBy? "type").bind (typeName? p)).filter fun t => !isBuiltin t)

/-! ## Recording -/

/-- Add a reference from the enclosing callable, or from the definition given (`reference`). -/
def refer (p : Position) (kind : ReferenceKind) (target : Target) (source : Option String)
    (n : Node) (f : FileSketch) : FileSketch :=
  f.addReference (referenceAt n kind target (source.or p.callable))

/-- Note the literals that variables are set to (`bind_literals`). -/
def bindLiterals (p : Position) (names values : List Node) (line : UInt32) (f : FileSketch) :
    FileSketch :=
  inOrder (fun (name, value) f =>
    match stringLiteral? p value with
    | some literal => f.addAssignment ⟨p.callable, p.text name, literal, line⟩
    | none => f) (names.zip values) f

/-! ## Declarations -/

def walkChildren (walk : Walk) (p : Position) (n : Node) (f : FileSketch) : FileSketch :=
  inOrder (walk p) n.namedChildren f

/-- The namespace of the file (`extract_package`). -/
def readPackage (p : Position) (n : Node) (f : FileSketch) : FileSketch :=
  { f with moduleName :=
      (n.namedChildren.find? fun c => c.kind == "package_identifier").map p.text }

/-- An import (`extract_import_spec`). An import for its side effects binds nothing. -/
def readImport (p : Position) (n : Node) (f : FileSketch) : FileSketch :=
  match (n.childBy? "path").bind fun c => unquote? (p.text c) with
  | none => f
  | some path =>
    let target := Text.lastSegment path "/"
    let add (localName : Option String) (wildcard : Bool) : FileSketch :=
      f.addImport { target, localName, wildcard, line := n.line }
    match n.childBy? "name" with
    | none => add none false
    | some name =>
      match name.kind with
      | "dot" => add none true
      | "blank_identifier" => f
      | _ => add (if p.text name == target then none else some (p.text name)) false

def resultTypes (p : Position) (result : Node) : List String :=
  if result.kind == "parameter_list" then
    (parameterDeclarations p result).filterMap (·.2)
  else (typeName? p result).toList.filter fun t => !isBuiltin t

/-- The signature and the body of a function or method (`extract_callable`). -/
def readCallable (walk : Walk) (p : Position) (n : Node) (sketch : SymbolSketch)
    (receiver : Option String) (f : FileSketch) : FileSketch :=
  let relative := sketch.relativePath "."
  let declared := match n.childBy? "parameters" with
    | some params => (parameterDeclarations p params).map fun d => (d.1, d.2, params)
    | none => []
  let f := inOrder (fun (_, type, params) f =>
    match type with
    | some t => refer p .acceptsType (.name t) (some relative) params f
    | none => f) declared f
  let names := declared.flatMap (·.1)
  let sketch := { sketch with
    metadata := sketch.metadata.insert "parameters" (.strings names) }
  let f := match n.childBy? "result" with
    | some result => inOrder
        (fun t => refer p .returnsType (.name t) (some relative) result) (resultTypes p result) f
    | none => f
  let f := f.addSymbol sketch
  match n.childBy? "body" with
  | some body => walk { p with callable := some relative, receiver } body f
  | none => f

/-- A function (`extract_function`). -/
def readFunction (walk : Walk) (p : Position) (n : Node) (f : FileSketch) : FileSketch :=
  match n.childBy? "name" with
  | none => f
  | some nameNode =>
    let name := p.text nameNode
    readCallable walk p n
      { name, kind := .function, line := n.line, column := n.column, exported := isExported name }
      none f

def receiverDeclaration? (n : Node) : Option Node :=
  (n.childBy? "receiver").bind fun r =>
    r.namedChildren.find? fun c => c.kind == "parameter_declaration"

/-- Whether a receiver is a pointer (`receiver_is_pointer`). -/
def hasPointerReceiver (n : Node) : Bool :=
  match n.childBy? "receiver" with
  | some r => (r.namedChildren.filterMap fun c => c.childBy? "type").any fun t =>
      t.kind == "pointer_type"
  | none => false

/-- A method (`extract_method`). -/
def readMethod (walk : Walk) (p : Position) (n : Node) (f : FileSketch) : FileSketch :=
  match n.childBy? "name" with
  | none => f
  | some nameNode =>
    let name := p.text nameNode
    let declaration := receiverDeclaration? n
    readCallable walk p n
      { name, parent := declaration.bind fun d => (d.childBy? "type").bind (typeName? p)
        kind := .method, line := n.line, column := n.column, exported := isExported name
        metadata := if hasPointerReceiver n then
            SortedMap.ofList [("pointer_receiver", .bool true)]
          else ∅ }
      (declaration.bind fun d => (d.childBy? "name").map p.text) f

def fieldNames (field : Node) : List Node := field.childrenBy "name"

def fields (n : Node) : List Node :=
  match n.namedChildren.find? fun c => c.kind == "field_declaration_list" with
  | some l => l.namedChildren.filter fun c => c.kind == "field_declaration"
  | none => []

/-- One field (in `extract_struct`): an embedded type is mixed in, named fields are properties. -/
def readField (p : Position) (owner : String) (field : Node) (f : FileSketch) : FileSketch :=
  let type := field.childBy? "type"
  if (fieldNames field).isEmpty then
    match type.bind (typeName? p) with
    | some t => refer p .usesMixin (.name t) (some owner) field f
    | none => f
  else
    inOrder (fun nameNode f =>
      let name := p.text nameNode
      f.addSymbol
        { name, parent := some owner, kind := .property, line := nameNode.line
          column := nameNode.column, exported := isExported name
          metadata := match type with
            | some t => SortedMap.ofList [("type", .string (p.text t))]
            | none => ∅ }) (fieldNames field) f

def embeddedTypes (p : Position) (n : Node) : List String :=
  (fields n).filterMap fun field =>
    if (fieldNames field).isEmpty then (field.childBy? "type").bind (typeName? p) else none

/-- Whether a node of an interface embeds types. -/
def embedsTypes (element : Node) : Bool :=
  ["type_elem", "constraint_elem", "interface_type_name", "type_identifier",
    "qualified_type"].contains element.kind

/-- The types that an element of an interface names (in `extract_interface`). -/
def elementTypes (p : Position) (element : Node) : List String :=
  match typeName? p element with
  | some t => [t]
  | none => element.namedChildren.filterMap (typeName? p)

/-- One element of an interface (in `extract_interface`): a method, or embedded types. -/
def readElement (p : Position) (owner : String) (element : Node) (f : FileSketch) : FileSketch :=
  if element.kind == "method_elem" || element.kind == "method_spec" then
    match element.childBy? "name" with
    | none => f
    | some nameNode =>
      let name := p.text nameNode
      f.addSymbol
        { name, parent := some owner, kind := .method, line := element.line
          column := element.column, exported := isExported name
          metadata := SortedMap.ofList [("abstract", .bool true)] }
  else if embedsTypes element then
    inOrder (fun t => refer p .extendsType (.name t) (some owner) element)
      (elementTypes p element) f
  else f

/-- Put a type before its first member. -/
def insertBeforeMembers (s : SymbolSketch) (f : FileSketch) : FileSketch :=
  let isMember (x : SymbolSketch) : Bool := x.parent == some s.name
  { f with symbols :=
      f.symbols.takeWhile (fun x => !isMember x) ++ s :: f.symbols.dropWhile fun x => !isMember x }

/-- A type (`extract_type_spec`). -/
def readType (p : Position) (n : Node) (f : FileSketch) : FileSketch :=
  match n.childBy? "name", n.childBy? "type" with
  | some nameNode, some type =>
    let name := p.text nameNode
    let sketch : SymbolSketch :=
      { name, kind := if type.kind == "interface_type" then .interfaceType else .classType
        line := n.line, column := n.column, exported := isExported name }
    let (supertypes, facts, f) : List String × Metadata × FileSketch := match type.kind with
      | "struct_type" => (embeddedTypes p type, ∅, inOrder (readField p name) (fields type) f)
      | "interface_type" =>
        ((type.namedChildren.filter embedsTypes).flatMap (elementTypes p), ∅,
          inOrder (readElement p name) type.namedChildren f)
      | _ => ([], SortedMap.ofList [("underlying", .string (p.text type))], f)
    let facts := if supertypes.isEmpty then facts
      else facts.insert "supertypes" (.strings supertypes)
    insertBeforeMembers { sketch with metadata := facts } f
  | _, _ => f

/-- Constants (`extract_const_spec`). Outside callables they are definitions. -/
def readConstants (walk : Walk) (p : Position) (n : Node) (f : FileSketch) : FileSketch :=
  let values := expressions (n.childBy? "value")
  let f := inOrder (fun (nameNode, index) f =>
    let name := p.text nameNode
    let f := if p.callable.isNone then
        f.addSymbol { name, kind := .constant, line := nameNode.line, column := nameNode.column
                      exported := isExported name }
      else f
    match values[index]?.bind (stringLiteral? p) with
    | some literal => f.addAssignment ⟨p.callable, name, literal, nameNode.line⟩
    | none => f) (n.childrenBy "name").zipIdx f
  inOrder (walk p) values f

/-- Variables (`extract_var_spec`). -/
def readVariables (walk : Walk) (p : Position) (n : Node) (f : FileSketch) : FileSketch :=
  let values := expressions (n.childBy? "value")
  let f := bindLiterals p (n.childrenBy "name") values n.line f
  let f := match n.childBy? "type" with
    | some t => walk p t f
    | none => f
  inOrder (walk p) values f

/-- An assignment, or a declaration of variables by their values (`extract_assignment`). -/
def readAssignment (walk : Walk) (p : Position) (n : Node) (f : FileSketch) : FileSketch :=
  let left := expressions (n.childBy? "left")
  let right := expressions (n.childBy? "right")
  let f := if left.all fun c => c.kind == "identifier" then bindLiterals p left right n.line f
    else f
  inOrder (walk p) right f

/-! ## Calls -/

/-- The event that an argument stands for (in `event`): a literal, or the type of an event value. -/
def eventTarget (p : Position) (n : Node) : Target :=
  let ofLiteral (literal : Node) : Target :=
    match (literal.childBy? "type").bind (typeName? p) with
    | some t => .name t
    | none => .dynamic (p.text n)
  match n.kind with
  | "composite_literal" => ofLiteral n
  | "unary_expression" =>
    match n.childBy? "operand" with
    | some inner => if inner.kind == "composite_literal" then ofLiteral inner else valueTarget p n
    | none => valueTarget p n
  | _ => valueTarget p n

/-- The name of the handler of a route (in `route`). -/
def handlerTarget (p : Position) (f : FileSketch) (n : Node) : Target :=
  match n.kind with
  | "identifier" => .name (p.text n)
  | "selector_expression" =>
    let operand := ((n.childBy? "operand").map p.text).getD ""
    let field := ((n.childBy? "field").map p.text).getD ""
    if isPackage f operand then .name (operand ++ "." ++ field) else .name field
  | _ => .dynamic (p.text n)

/-- The registration of a route (`route`): a path and its handler. -/
def routeRegistration? (p : Position) (f : FileSketch) (method : String) (args : List Node)
    (n : Node) : Option ReferenceSketch :=
  match args with
  | path :: handler :: _ =>
    (stringLiteral? p path).map fun route =>
      ((referenceAt n .route (handlerTarget p f handler) p.callable).withExtra "method"
        (.string method)).withExtra "path" (.string route)
  | _ => none

/-- The reference of a call that looks up a service, concerns an event or registers a route
(`enrichment_call`). -/
def wellKnownCall? (p : Position) (f : FileSketch) (operand method : String) (args : List Node)
    (n : Node) : Option ReferenceSketch :=
  let object := Text.toLower operand
  let isContainer := Text.occurs "container" object || object == "di"
    || Text.occurs "injector" object
  let event (kind : ReferenceKind) := args.head?.map fun a =>
    referenceAt n kind (eventTarget p a) p.callable
  if ["Get", "Resolve", "MustGet", "MustResolve"].contains method && isContainer then
    args.head?.map fun a => referenceAt n .serviceLookup (valueTarget p a) p.callable
  else if ["Publish", "Emit", "Dispatch", "Fire"].contains method then event .eventEmit
  else if ["Subscribe", "On", "Listen", "AddListener"].contains method then event .eventListen
  else if method == "HandleFunc" || method == "Handle" then routeRegistration? p f "ANY" args n
  else
    let verb := Text.toUpper method
    if requestMethods.contains verb && args.length == 2 then routeRegistration? p f verb args n
    else none

/-- The reference of a call of a method or of a function of a package (in `extract_call`). -/
def selectorCall (p : Position) (f : FileSketch) (operand method : String) (at' : Node) :
    ReferenceSketch :=
  if isPackage f operand then
    referenceAt at' .call (.name (operand ++ "." ++ method)) p.callable
  else
    { referenceAt at' .call (.name method) p.callable with
      receiver := if p.receiver == some operand then .selfRef else .expression operand }

/-- A call (`extract_call`). -/
def readCall (walk : Walk) (p : Position) (n : Node) (f : FileSketch) : FileSketch :=
  match n.childBy? "function" with
  | none => walkChildren walk p n f
  | some function =>
    let args := arguments n
    let f := match function.kind with
      | "identifier" =>
        let name := p.text function
        if isBuiltin name then f
        else f.addReference (referenceAt function .call (.name name) p.callable)
      | "selector_expression" =>
        match function.childBy? "operand", function.childBy? "field" with
        | some operand, some field =>
          let object := p.text operand
          let method := p.text field
          let reference := (wellKnownCall? p f object method args n).getD
            (selectorCall p f object method field)
          walk p operand (f.addReference reference)
        | _, _ => f
      | _ => walk p function f
    inOrder (walk p) args f

/-- A composite literal (`extract_composite`). -/
def readComposite (walk : Walk) (p : Position) (n : Node) (f : FileSketch) : FileSketch :=
  let f := match (n.childBy? "type").bind (typeName? p) with
    | some t => if isBuiltin t then f else refer p .instantiate (.name t) none n f
    | none => f
  match n.childBy? "body" with
  | some body => walk p body f
  | none => f

/-! ## The walk -/

def step (walk : Walk) (p : Position) (n : Node) (f : FileSketch) : FileSketch :=
  match n.kind with
  | "package_clause" => readPackage p n f
  | "import_spec" => readImport p n f
  | "function_declaration" => readFunction walk p n f
  | "method_declaration" => readMethod walk p n f
  | "type_spec" => readType p n f
  | "const_spec" => readConstants walk p n f
  | "var_spec" => readVariables walk p n f
  | "short_var_declaration" | "assignment_statement" => readAssignment walk p n f
  | "call_expression" => readCall walk p n f
  | "composite_literal" => readComposite walk p n f
  | _ => walkChildren walk p n f

/-- Walk a tree of at most this height (`extract`). -/
def extract : Nat → Walk
  | 0, _, _, f => f
  | fuel + 1, p, n, f => step (extract fuel) p n f

def ofTree (path : String) (source : Source) (root : Node) : FileSketch :=
  extract root.height { source } root { path, language := "go", separator := "." }

def collector : Collector where
  language := "go"
  extensions := [".go"]
  collect path content :=
    let source := Source.ofString content
    let root := Go.tree source
    judgeSketches root (ofTree path source root)

end CodeAtlas.GoSketches
