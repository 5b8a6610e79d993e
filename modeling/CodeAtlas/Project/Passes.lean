import CodeAtlas.Project.Changes

/-!
# The passes of a run

Collection turns sources into sketches and commits them. Resolution computes the edges of every
affected file against one view of the project, and enrichment adds those of the plugins. A file
without a result in a later pass is left stale.
-/

namespace CodeAtlas

/-- A source with its sketches. -/
structure Collected where
  source : SourceFile
  sketches : FileSketch
  deriving Inhabited

def Collected.symbols (c : Collected) : List Symbol := c.sketches.assembleSymbols

namespace Run

variable {σ : Type}

/-! ## Collection -/

/-- The collection of a file failed (`fail`); what it contributed before stays in place. -/
def failCollection (r : Run σ) (s : SourceFile) (kind : DiagnosticKind) (e : AtlasError) : Run σ :=
  let record := (r.records.get? s.path).getD
    { path := s.path, language := s.language, fingerprint := s.fingerprint }
  { r.diagnose kind s.path e.message with
    records := r.records.insert s.path { record with state := .failed }
    touched := r.touched.add s.path
    report := r.report.fail s.path .collect e.message }

/-- Collect files, each with its result (`collect_sources`). -/
def collectSources (k : Conditions) (r : Run σ) (due : List SourceFile) :
    List (SourceFile × TaskResult FileSketch) × Run σ :=
  let (results, shift) := runAll r.settings.pipeline.fileTimeoutMs
    (fun (s : SourceFile) => (k.befalls .collect s.path).before fun u => (r.registry.collect s, u))
    (due.map fun s => (s.path, s)) { state := (), closed := r.cancelled }
  (due.zip (results.map (·.2)), { r with cancelled := shift.cancelled })

/-- Take in the result of one collection (in `run`). -/
def takeCollected (acc : List Collected × Run σ) (x : SourceFile × TaskResult FileSketch) :
    List Collected × Run σ :=
  let (collected, r) := acc
  let (s, result) := x
  match result with
  | .done sketches => (collected ++ [⟨s, sketches⟩], r)
  | .failed e => (collected, r.failCollection s .parseFailure e)
  | .timedOut =>
    (collected, r.failCollection s .timeout (.timeout s.path r.settings.pipeline.fileTimeoutMs))
  | .cancelled => (collected, r.reportCancelled)

/-- Identifiers that the sketches of a file may affect (in `run`): its old and new symbols, and
every symbol with the short name of a new one. -/
def concerned (t : Table) (c : Collected) : IdSet :=
  let incoming := c.symbols
  IdSet.ofList ((t.symbolsInFile c.source.path).map (·.id) ++ incoming.map (·.id)
    ++ incoming.flatMap fun s => (SymbolLookup.named t s.name).map (·.id))

/-- Queue a collected file and all files with an edge to a symbol that it may affect (in `run`). -/
def announce (r : Run σ) (c : Collected) : Run σ :=
  let r := { r with affected := r.affected.add c.source.path }
  r.markAllStale
    (StringSet.ofList ((concerned r.table c).keys.flatMap r.table.dependentFiles))

/-- Delete the edges of a file that will be resolved (in `run`). -/
def clearFile (r : Run σ) (path : String) : Run σ :=
  { r with
    table := r.table.clearEdges path
    records := r.records.modify path fun x =>
      if x.state == .resolved then { x with state := .stale } else x }

/-- Delete the edges that will be computed anew (in `run`). -/
def clearAffected (r : Run σ) : Run σ :=
  let r := r.affected.toList.foldl clearFile r
  if r.settingsAffected then { r with table := r.table.clearEdges settingsFile } else r

def reportIssues (r : Run σ) (c : Collected) : Run σ :=
  let issues := c.sketches.issues.length
  if issues == 0 then r
  else r.diagnose .syntaxError c.source.path
    (toString issues ++ " syntax issue(s), collected what parsed")

def recordCollected (r : Run σ) (c : Collected) : Run σ :=
  let s := c.source
  let seq := r.seq + 1
  let resolvedAt := (r.records.get? s.path).bind (·.resolvedAt)
  { r with
    seq
    records := r.records.insert s.path
      { path := s.path, language := s.language, fingerprint := s.fingerprint, state := .collected
        resolvedAt, seq, sketches := some c.sketches }
    touched := r.touched.add s.path
    report := { r.report with filesCollected := r.report.filesCollected + 1 } }

/-- Commit the symbols of a collected file (in `run`). -/
def commit (r : Run σ) (c : Collected) : Except (Halt σ) (Run σ) :=
  match r.table.commitFile c.source.path c.symbols with
  | (.ok summary, table) =>
    let r := { r with table }
    .ok ((((r.markAllStale summary.stale).drop summary.removed).reportIssues c).recordCollected c)
  | (.error e, table) =>
    let r := { r with table }
    if e.isFatal then r.halt e else .ok (r.failCollection c.source .parseFailure e)

/-- The first pass (in `run`): collect files, delete the edges that this affects, commit the
symbols. -/
def collect (k : Conditions) (due : List SourceFile) (r : Run σ) : Except (Halt σ) (Run σ) :=
  let (results, r) := r.collectSources k due
  let (collected, r) := results.foldl takeCollected ([], r)
  let r := (collected.foldl announce r).clearAffected
  collected.foldlM commit r

/-! ## Resolution and enrichment -/

/-- A file without a result stays stale (in `pass_incomplete`). -/
def leaveStale (r : Run σ) (path : String) (pass : Pass) (kind : DiagnosticKind)
    (e : AtlasError) : Run σ :=
  let message := pass.name ++ ": " ++ e.message
  let r := r.diagnose kind path message
  { r with
    records := r.records.modify path FileRecord.outdated
    report := r.report.fail path pass message }

/-- Store the edges of a file (`commit_edges`); edges that are refused count as a failure of the
pass. -/
def commitEdges (r : Run σ) (path : String) (edges : List Edge) (pass : Pass) :
    Except (Halt σ) (Run σ) :=
  let committed := match pass with
    | .enrich => r.table.appendEdges path edges
    | _ => r.table.replaceEdges path edges
  match committed with
  | .ok table => .ok { r with table }
  | .error e =>
    if e.isFatal then r.halt e else .ok { r with report := r.report.fail path pass e.message }

/-- Take in the result of a pass for one file (`pass_incomplete`); the answer holds the files with a
result. -/
def takeResult {α : Type} (pass : Pass) (edges : α → List Edge) (unresolved : α → Nat)
    (acc : List String × Run σ) (x : String × TaskResult α) :
    Except (Halt σ) (List String × Run σ) :=
  let (finished, r) := acc
  let (path, result) := x
  match result with
  | .done a => do
    let r := { r with report := { r.report with unresolved := r.report.unresolved + unresolved a } }
    let r ← r.commitEdges path (edges a) pass
    return (finished ++ [path], r)
  | .failed e => .ok (finished, r.leaveStale path pass .taskFailure e)
  | .timedOut =>
    .ok (finished,
      r.leaveStale path pass .timeout (.timeout path r.settings.pipeline.fileTimeoutMs))
  | .cancelled => .ok (finished, r.reportCancelled)

/-- Run a pass over files (in `run`). -/
def runPass {α : Type} (k : Conditions) (pass : Pass)
    (work : FileSketch → Table → Attempt α × Table) (files : List FileSketch) (r : Run σ) :
    List (String × TaskResult α) × Run σ :=
  let (results, shift) := runAll r.settings.pipeline.fileTimeoutMs
    (fun (f : FileSketch) => (k.befalls pass f.path).before (work f))
    (files.map fun f => (f.path, f)) { state := r.table, closed := r.cancelled }
  (results, { r with table := shift.state, cancelled := shift.cancelled })

/-- The second pass (`resolve_files`): resolve the affected files. -/
def resolve (k : Conditions) (r : Run σ) : Except (Halt σ) (List String × Run σ) :=
  let v := r.view
  let (results, r) := r.runPass k .resolve
    (fun f t =>
      let (resolution, t) := t.resolveFile v f
      (.done resolution, t))
    (r.affected.toList.filterMap v.sketches.get?)
  results.foldlM (takeResult .resolve FileResolution.edges FileResolution.unresolved) ([], r)

/-- The third pass (`enrich_files`): run the active plugins over the resolved files. -/
def enrich (k : Conditions) (resolved : List String) (r : Run σ) :
    Except (Halt σ) (List String × Run σ) :=
  let enrichment := r.settings.enrichment
  let active := Plugin.active r.plugins enrichment
  if active.isEmpty then .ok (resolved, r)
  else
    let v := r.view
    let (results, r) := r.runPass k .enrich (fun f t => Plugin.runOn enrichment v f active t)
      (resolved.filterMap v.sketches.get?)
    results.foldlM (takeResult .enrich id fun _ => 0) ([], r)

/-! ## Settings -/

/-- Compute the edges of the settings (`refresh_config_edges`). The settings file is known to the
table as long as it owns an edge. -/
def refreshSettings (r : Run σ) : Except (Halt σ) (Run σ) :=
  let (edges, table) := Plugin.settingsEdges r.plugins r.settings.enrichment r.view r.table
  let r := { r with table }
  if edges.isEmpty then
    if r.table.containsFile settingsFile then
      let (summary, table) := r.table.removeFile settingsFile
      .ok ({ r with table }.drop summary.removed)
    else .ok r
  else do
    let r ← if r.table.containsFile settingsFile then .ok r
      else match r.table.commitFile settingsFile [settingsSymbol] with
        | (.ok _, table) => .ok { r with table }
        | (.error e, table) => halt { r with table } e
    match r.table.replaceEdges settingsFile edges with
    | .ok table => .ok { r with table }
    | .error e => r.halt e

/-- Compute the edges of the settings if something asks for them (in `run`); the answer extends the
list of finished files. -/
def settle (finished : List String) (r : Run σ) : Except (Halt σ) (List String × Run σ) := do
  let (finished, r) ← if r.settingsAffected && !r.cancelled then do
      let r ← r.refreshSettings
      pure (finished ++ [settingsFile], r)
    else pure (finished, r)
  return (finished, if r.cancelled then r.reportCancelled else r)

end Run

end CodeAtlas
