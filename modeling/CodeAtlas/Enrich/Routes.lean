import CodeAtlas.Enrich.Plugin
import CodeAtlas.Text.Case

/-!
# Routes

A route leads to what handles it. In code the handler is the annotated definition or a name that is
registered; the settings can declare routes, too.
-/

namespace CodeAtlas.Routes

/-- Whether the reference annotates its own handler (in `route_edge`). -/
def isAnnotation (r : ReferenceSketch) : Bool :=
  match r.extra.get? "annotation" with
  | some (.bool b) => b
  | _ => false

/-- The edge from a file to the handler of a route (in `route_edge`). -/
def handlerEdge (v : View) (f : FileSketch) (r : ReferenceSketch) : Finding :=
  let o : Origin := ⟨.routesTo, .ofFqn f.path, f.path, r.line⟩
  if isAnnotation r then
    match SymbolLookup.findId? v.snapshot (f.sourceId r.source) with
    | some s => o.toSymbol s Confidence.exact
    | none => o.toPlaceholder f.path Confidence.exact
  else
    match r.target with
    | .name name => v.named o (f.scopeAt r) .callables name
    | .viaVariable text | .dynamic text =>
      (o.toPlaceholder (dynamicMark ++ text) Confidence.computed).withMeta "dynamic" (.bool true)

/-- The edge of a route in code (`route_edge`). -/
def finding (v : View) (f : FileSketch) (r : ReferenceSketch) : Finding :=
  let method := Text.toUpper ((r.extraText? "method").getD "ANY")
  let e := (handlerEdge v f r).withMeta "method" (.string method)
  match r.extraText? "path" with
  | some path => e.withMeta "path" (.string path)
  | none => e

/-- The placeholder that a declared route needs (in `analyze_config`). -/
def missingHandler? (v : View) (r : Route) : Option Symbol :=
  match SymbolLookup.findDefined? v.snapshot r.handler with
  | some _ => none
  | none => some (.placeholder r.handler (shortName r.handler))

/-- The edge of the route that the settings declare at an index (in `analyze_config`). -/
def declaredEdge (v : View) (r : Route) (index : Nat) : Edge :=
  let (target, confidence) := match missingHandler? v r with
    | none => (SymbolId.ofFqn r.handler, Confidence.exact)
    | some s => (s.id, Confidence.placeholder)
  let e := Edge.ofScore .routesTo (.ofFqn settingsFile) target confidence settingsFile
    (index.toUInt32 + 1)
  (e.withMeta "method" (.string (Text.toUpper r.method))).withMeta "path" (.string r.path)

/-- The edges of routes (`RoutePlugin`). -/
def plugin : Plugin where
  name := "routes"
  detect e := e.routeAnnotations || !e.routes.isEmpty
  analyzeFile e v f := .done <|
    if e.routeAnnotations then (f.references.filter fun r => r.kind == .route).map (finding v f)
    else []
  analyzeSettings e v :=
    { placeholders := e.routes.filterMap (missingHandler? v)
      edges := e.routes.mapIdx fun i r => declaredEdge v r i }

end CodeAtlas.Routes
