import CodeAtlas.Enrich.Plugin

/-!
# Services

Keys looked up in a service container, and constructor parameters whose type the service map knows,
lead to the implementation that the settings name.
-/

namespace CodeAtlas.Services

/-- An edge to an implementation (`injection`); one outside the project scores half. -/
def injection (v : View) (o : Origin) (implementation : String) (base : Float) : Finding :=
  match SymbolLookup.findDefined? v.snapshot implementation with
  | some s => o.toSymbol s base
  | none => (o.toPlaceholder implementation (base * 0.5)).withMeta "external_implementation"
      (.bool true)

/-- An edge to the service with a key (in `lookup`). -/
def keyed (e : EnrichmentSettings) (v : View) (o : Origin) (key : String) (base : Float) :
    Finding :=
  match e.services.get? key with
  | some implementation => injection v o implementation base
  | none =>
    (o.toPlaceholder ("service:" ++ key) Confidence.computed).withMeta "dynamic" (.bool true)

/-- The edge of a look-up in a service container (`lookup`). -/
def lookup (e : EnrichmentSettings) (v : View) (f : FileSketch) (r : ReferenceSketch) : Finding :=
  let o : Origin := ⟨.injects, f.sourceId r.source, f.path, r.line⟩
  match r.target with
  | .name key => (keyed e v o key Confidence.exact).withMeta "service_key" (.string key)
  | .viaVariable x =>
    match (f.scopeAt r).literal? x r.line with
    | some key =>
      let found := (keyed e v o key Confidence.propagatedKey).withMeta "service_key" (.string key)
      if e.services.contains key then found.withMeta "via_propagation" (.bool true) else found
    | none => o.toComputed x
  | .dynamic text => o.toComputed text

/-- Whether a reference stands in a constructor (`in_constructor`). -/
def inConstructor (f : FileSketch) (r : ReferenceSketch) : Bool :=
  match (r.source.bind f.symbolAt?).bind fun s => s.metadata.get? "constructor" with
  | some (.bool b) => b
  | _ => false

/-- The edge of a constructor parameter whose type the service map knows
(`constructor_injection`). -/
def constructorInjection? (e : EnrichmentSettings) (v : View) (f : FileSketch)
    (r : ReferenceSketch) : Option Finding :=
  match r.target with
  | .name typeName =>
    let c := f.scopeAt r
    let interface := match SymbolLookup.resolve? v.snapshot typeName c .types with
      | some s => s.fqn
      | none => c.placeholderName typeName
    ((e.services.get? interface).or (e.services.get? (c.shortName interface))).map
      fun implementation =>
        let source := match c.enclosingType with
          | some t => .ofFqn t
          | none => f.sourceId r.source
        ((injection v ⟨.injects, source, f.path, r.line⟩ implementation Confidence.exact).withMeta
          "interface" (.string interface)).withMeta "via" (.string "constructor")
  | _ => none

/-- The edge of one reference, if it concerns services (in `analyze_file`). -/
def finding? (e : EnrichmentSettings) (v : View) (f : FileSketch) (r : ReferenceSketch) :
    Option Finding :=
  match r.kind with
  | .serviceLookup => some (lookup e v f r)
  | .acceptsType => if inConstructor f r then constructorInjection? e v f r else none
  | _ => none

/-- The edges of services (`ServiceContainerPlugin`). -/
def plugin : Plugin where
  name := "services"
  detect e := !e.services.isEmpty
  analyzeFile e v f := .done (f.references.filterMap (finding? e v f))

end CodeAtlas.Services
