import CodeAtlas.Digest
import CodeAtlas.Json.Printer
import CodeAtlas.Path

/-!
# Settings

What a project may set: how files are worked through, where the graph is stored, logging, and the
facts that enrichment reads. Every setting has a default.
-/

namespace CodeAtlas

/-- The file at the root of a project that holds its settings. -/
def settingsFile : String := "symgraph.toml"

/-- How files are worked through and stored (`PipelineConfig`). -/
structure PipelineSettings where
  /-- Pieces of work at a time; `0` leaves the choice to the machine. -/
  workerThreads : Nat := 0
  /-- Time limit for one file in one pass, in milliseconds. -/
  fileTimeoutMs : Nat := 30000
  /-- Number of nodes and edges from which a batch is full. -/
  batchSize : Nat := 1000
  /-- How often a refused batch is offered again. -/
  sinkRetries : Nat := 3
  /-- Wait before the first repeat, in milliseconds; each further wait is twice as long. -/
  sinkBackoffMs : Nat := 200
  deriving DecidableEq, Repr, Inhabited

/-- How the program reports on its work (`LoggingConfig`). -/
structure LoggingSettings where
  level : String := "info"
  format : String := "pretty"
  deriving DecidableEq, Repr, Inhabited

/-- A route that the settings declare (`RouteEntry`). -/
structure Route where
  method : String := "GET"
  path : String
  /-- Fully-qualified name of what handles the route. -/
  handler : String
  deriving DecidableEq, Repr, Inhabited

/-- What the settings say on events (`EventsConfig`). -/
structure EventSettings where
  enabled : Bool := true
  /-- Event to the fully-qualified names of its listeners. -/
  listeners : SortedMap String (List String) := ∅
  deriving DecidableEq, Repr, Inhabited

/-- Project facts that enrichment reads (`EnrichmentConfig`). -/
structure EnrichmentSettings where
  /-- Whether routes found in code count. -/
  routeAnnotations : Bool := true
  /-- Key or interface to the fully-qualified name of the implementation. -/
  services : SortedMap String String := ∅
  routes : List Route := []
  events : EventSettings := {}
  deriving DecidableEq, Repr, Inhabited

/-- All settings of a project (`Config`). -/
structure Settings where
  pipeline : PipelineSettings := {}
  /-- Path of the stored graph, relative to the project root. -/
  databasePath : String := ".symgraph/graph.db"
  logging : LoggingSettings := {}
  enrichment : EnrichmentSettings := {}
  deriving DecidableEq, Repr, Inhabited

namespace EnrichmentSettings

/-- Whether some setting gives an edge by itself (`has_config_edges`). -/
def hasOwnEdges (e : EnrichmentSettings) : Bool :=
  !e.routes.isEmpty || !e.events.listeners.isEmpty

def toJson (e : EnrichmentSettings) : Json :=
  .object [("route_annotations", .bool e.routeAnnotations),
    ("services", .object (e.services.entries.map fun (k, v) => (k, .string v))),
    ("routes", .array (e.routes.map fun r =>
      .object [("method", .string r.method), ("path", .string r.path),
        ("handler", .string r.handler)])),
    ("events", .object [("enabled", .bool e.events.enabled),
      ("listeners", .object (e.events.listeners.entries.map fun (k, v) => (k, .strings v)))])]

/-- A digest of all that enrichment reads (`fingerprint`). -/
def fingerprint (e : EnrichmentSettings) : String := Digest.ofString e.toJson.compact

end EnrichmentSettings

/-- The path of the stored graph of a project (`database_path`). -/
def Settings.databaseLocation (s : Settings) (root : String) : String :=
  Path.join root s.databasePath

end CodeAtlas
