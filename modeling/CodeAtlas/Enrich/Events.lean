import CodeAtlas.Enrich.Plugin

/-!
# Events

Who emits an event and who listens to it both point at the node of the event, so that the two sides
meet whichever is seen first.
-/

namespace CodeAtlas.Events

/-- The placeholder of an event (`event_node`). -/
def eventNode (event : String) : Symbol :=
  { Symbol.placeholder ("event:" ++ event) event with
    metadata := SortedMap.ofList [("event", .bool true)] }

/-- The type of the edge of a reference, if it concerns events (in `analyze_file`). -/
def edgeType? : ReferenceKind → Option EdgeType
  | .eventEmit => some .emits
  | .eventListen => some .listens
  | _ => none

/-- The edge of a reference to an event (`event_edge`). -/
def finding (f : FileSketch) (r : ReferenceSketch) (type : EdgeType) : Finding :=
  let o : Origin := ⟨type, f.sourceId r.source, f.path, r.line⟩
  match r.target with
  | .name event =>
    (o.toTemplate (eventNode event) Confidence.exact).withMeta "event" (.string event)
  | .viaVariable x =>
    match (f.scopeAt r).literal? x r.line with
    | some event =>
      ((o.toTemplate (eventNode event) Confidence.propagatedKey).withMeta "event"
        (.string event)).withMeta "via_propagation" (.bool true)
    | none => o.toComputed x
  | .dynamic text => o.toComputed text

/-- The edge of a listener that the settings declare (in `analyze_config`). -/
def listenerEdge (v : View) (event listener : String) : Edge :=
  let target := (eventNode event).id
  let e := match SymbolLookup.findDefined? v.snapshot listener with
    | some handler => Edge.ofScore .listens handler.id target Confidence.exact settingsFile 0
    | none =>
      Edge.ofScore .listens (.ofFqn settingsFile) target Confidence.placeholder settingsFile 0
  e.withMeta "listener" (.string listener)

/-- The edges of events (`EventPlugin`). -/
def plugin : Plugin where
  name := "events"
  detect e := e.events.enabled
  analyzeFile _ _ f := .done (f.references.filterMap fun r => (edgeType? r.kind).map (finding f r))
  analyzeSettings e v :=
    { placeholders := e.events.listeners.keys.map eventNode
      edges := e.events.listeners.entries.flatMap fun (event, listeners) =>
        listeners.map (listenerEdge v event) }

end CodeAtlas.Events
