import CodeAtlas.Project.Controller

/-!
# What a run has to do

The beginning of a run: work left over from earlier runs, changed settings, removed files, and which
of the modified files have to be collected.
-/

namespace CodeAtlas

/-- The net effect of a list of changes (in `run`): the last change of a path counts. -/
structure Plan where
  removals : StringSet := ∅
  modified : SortedMap String SourceFile := ∅
  deriving Inhabited

namespace Plan

def add (p : Plan) : FileChange → Plan
  | .removed path => { removals := p.removals.add path, modified := p.modified.erase path }
  | .modified s => { removals := p.removals.erase s.path, modified := p.modified.insert s.path s }

end Plan

/-- What a modified file needs. -/
inductive Need where
  /-- Nothing: it is resolved with the same content. -/
  | nothing
  /-- Its sketches are known, it has to be resolved. -/
  | resolution
  | collection
  deriving DecidableEq, Repr, Inhabited

/-- What a file with a fingerprint needs, given its record (in `run`). -/
def FileRecord.need (fingerprint : String) : Option FileRecord → Need
  | none => .collection
  | some r =>
    if r.fingerprint == fingerprint && r.sketches.isSome then
      match r.state with
      | .resolved => .nothing
      | .failed => .collection
      | _ => .resolution
    else .collection

/-- Whether a file waits for its resolution (in `run`). -/
def FileRecord.isPending (r : FileRecord) : Bool :=
  (r.state == .stale || r.state == .collected) && r.sketches.isSome

namespace Run

variable {σ : Type}

/-- A run over what is left from earlier runs (in `run`); a full run computes the edges of the
settings, and leaves it to the next one to do so again if they were damaged. -/
def start (c : Controller σ) (full : Bool) : Run σ :=
  { c with
    settingsDirty := full && c.settingsDirty
    settingsAffected := full || c.settingsDirty
    affected := StringSet.ofList (c.records.filter fun _ r => r.isPending).keys }

/-- The fingerprint of the enrichment settings of the last run (in `check_enrichment_settings`). -/
def previousSettings (r : Run σ) : String :=
  match r.records.get? settingsFile with
  | some record => record.fingerprint
  | none => EnrichmentSettings.fingerprint {}

/-- Remember the fingerprint of the enrichment settings (in `check_enrichment_settings`); the
defaults need no record. -/
def recordSettings (now : Timestamp) (r : Run σ) : Run σ :=
  let current := r.settings.enrichment.fingerprint
  if current == EnrichmentSettings.fingerprint {} then
    { r with
      records := r.records.erase settingsFile
      forgotten := r.forgotten ++ [settingsFile] }
  else
    { r with
      records := r.records.insert settingsFile
        { path := settingsFile, language := "config", fingerprint := current, state := .resolved
          resolvedAt := some now }
      touched := r.touched.add settingsFile }

/-- Queue every file if the enrichment settings differ from those of the last run
(`check_enrichment_settings`). -/
def checkSettings (now : Timestamp) (r : Run σ) : Run σ :=
  if r.previousSettings == r.settings.enrichment.fingerprint then r
  else
    let everything := StringSet.ofList (r.records.filter fun _ x => x.sketches.isSome).keys
    recordSettings now { r.markAllStale everything with settingsAffected := true }

/-- The changes, together with the removals that a store has not taken yet (in `run`). -/
def plan (r : Run σ) (changes : List FileChange) : Plan :=
  changes.foldl Plan.add
    { removals := StringSet.ofList (r.records.filter fun _ x => x.isTombstone).keys }

/-- Remove a file with all that it contributed (in `run`). -/
def removeFile (r : Run σ) (path : String) : Run σ :=
  if path == settingsFile || (!r.records.contains path && !r.table.containsFile path) then r
  else
    let (summary, table) := r.table.removeFile path
    let r := { r with table, records := r.records.erase path }
    let r := (r.markAllStale summary.stale).drop summary.removed
    { r with
      affected := r.affected.erase path
      removed := r.removed ++ [path]
      report := { r.report with filesRemoved := r.report.filesRemoved + 1 } }

/-- Decide on one modified file (in `run`); the answer holds the files to be collected. -/
def examine (acc : Run σ × List SourceFile) (s : SourceFile) : Run σ × List SourceFile :=
  let (r, due) := acc
  match FileRecord.need s.fingerprint (r.records.get? s.path) with
  | .nothing =>
    ({ r with report := { r.report with filesSkipped := r.report.filesSkipped + 1 } }, due)
  | .resolution => ({ r with affected := r.affected.add s.path }, due)
  | .collection => (r, due ++ [s])

/-- Take in the changes (in `run`). Removals go first; the answer holds the files to be
collected. -/
def takeChanges (r : Run σ) (changes : List FileChange) : Run σ × List SourceFile :=
  let plan := r.plan changes
  let r := plan.removals.toList.foldl removeFile r
  plan.modified.values.foldl examine (r, [])

end Run

end CodeAtlas
