import CodeAtlas.Resolve.File
import CodeAtlas.Settings.Basic
import CodeAtlas.Task

/-!
# Enrichment

A plugin adds edges that need knowledge of the project beyond the language: from the sketches of a
file, owned by that file, and from the settings, owned by the settings file.
-/

namespace CodeAtlas

/-- Edges, and the placeholders that they need. -/
structure SettingsFindings where
  placeholders : List Symbol := []
  edges : List Edge := []
  deriving Inhabited

/-- A source of further edges (`EnrichmentPlugin`). -/
structure Plugin where
  name : String
  /-- Whether the plugin applies under these settings. -/
  detect : EnrichmentSettings → Bool
  /-- The edges of a file. -/
  analyzeFile : EnrichmentSettings → View → FileSketch → Attempt (List Finding)
  /-- The edges of the settings themselves. -/
  analyzeSettings : EnrichmentSettings → View → SettingsFindings := fun _ _ => {}
  deriving Inhabited

/-- The node of the settings file, which owns the edges of the settings (`config_owner_symbol`). -/
def settingsSymbol : Symbol :=
  { Symbol.ofFile settingsFile with
    metadata := SortedMap.ofList [("language", .string "toml")] }

/-- The score of a key that was read from a variable. -/
def Confidence.propagatedKey : Float := 0.8

/-- The scope of the definition that holds a reference (`context`). -/
def FileSketch.scopeAt (f : FileSketch) (r : ReferenceSketch) : Scope :=
  (View.scopeOf f).enter f r.source

namespace Plugin

/-- The plugins that apply under these settings (`active`). -/
def active (plugins : List Plugin) (e : EnrichmentSettings) : List Plugin :=
  plugins.filter fun p => p.detect e

/-- Run plugins over a file one after the other (in `enrich_files`); the table learns what each one
found. -/
def runOn (e : EnrichmentSettings) (v : View) (f : FileSketch) :
    List Plugin → Table → Attempt (List Edge) × Table
  | [], t => (.done [], t)
  | p :: rest, t =>
    let a := p.analyzeFile e v f
    match a.outcome with
    | .done found =>
      let (b, t) := runOn e v f rest (found.foldl Finding.teach t)
      (a.andThen fun _ => b.andThen fun edges => .done (found.map (·.edge) ++ edges), t)
    | _ => (a.andThen fun _ => .done [], t)

/-- The edges of the settings, in order (`PluginRegistry::analyze_config`); the table learns the
placeholders. -/
def settingsEdges (plugins : List Plugin) (e : EnrichmentSettings) (v : View) (t : Table) :
    List Edge × Table :=
  let found := (active plugins e).map fun p => p.analyzeSettings e v
  (Edge.sort (found.flatMap (·.edges)),
    (found.flatMap (·.placeholders)).foldl (fun t s => (t.ensurePlaceholder s).2) t)

end Plugin

end CodeAtlas
