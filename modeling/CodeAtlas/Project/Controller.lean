import CodeAtlas.Collector.Standard
import CodeAtlas.Enrich.Standard
import CodeAtlas.FileRecord
import CodeAtlas.Project.Report
import CodeAtlas.Store.Batch
import CodeAtlas.Table.Symbols

/-!
# The state of a project

A controller holds the table of a project, the records of its files and the store that receives the
graph. A `Run` is a controller at work, with the sets of files that the run still has to care for.
-/

namespace CodeAtlas

/-- A project between runs (`IncrementalController`). -/
structure Controller (σ : Type) where
  /-- The folder of the project. -/
  root : String
  settings : Settings
  registry : Registry := .standard
  plugins : List Plugin := Plugin.standard
  sink : σ
  table : Table := .empty
  records : SortedMap String FileRecord := ∅
  /-- Whether this run and all later ones are cancelled. -/
  cancelled : Bool := false
  /-- The place of the last collection in their order. -/
  seq : Nat := 0
  /-- Whether the edges of the settings have to be computed anew. -/
  settingsDirty : Bool := false

/-- One observed change of a project. -/
inductive FileChange where
  | modified (source : SourceFile)
  | removed (path : String)
  deriving DecidableEq, Repr, Inhabited

/-- What is outside the control of a run. -/
structure Conditions where
  now : Timestamp := {}
  /-- What befalls the work on a file in a pass before it begins. -/
  befalls : Pass → String → Attempt Unit := fun _ _ => .done ()

/-- A project at work (`RunState`). -/
structure Run (σ : Type) extends Controller σ where
  /-- Files to be resolved. -/
  affected : StringSet := ∅
  /-- Whether the edges of the settings are to be computed. -/
  settingsAffected : Bool := false
  /-- Files removed by this run, in order. -/
  removed : List String := []
  /-- Records to be deleted from the store without retracting rows. -/
  forgotten : List String := []
  /-- Symbols that are gone. -/
  droppedIds : IdSet := ∅
  /-- Files whose records are to be saved. -/
  touched : StringSet := ∅
  report : RunReport := {}

/-- A run that had to stop. -/
structure Halt (σ : Type) where
  error : AtlasError
  /-- The project as the run left it. -/
  controller : Controller σ

namespace Controller

variable {σ : Type}

/-- The sketches of all files (`sketch_index`). -/
def sketches (c : Controller σ) : SortedMap String FileSketch :=
  c.records.filterMap fun _ r => r.sketches

/-- What resolution sees of the project now. -/
def view (c : Controller σ) : View := ⟨c.table.snapshot, c.sketches⟩

/-- The same project with another store. -/
def withSink {τ : Type} (c : Controller σ) (sink : τ) : Controller τ := { c with sink }

end Controller

/-- The record when work on its file has to be repeated (in `mark_stale`); a failed file stays
failed. -/
def FileRecord.outdated (r : FileRecord) : FileRecord :=
  if r.state == .failed then r else { r with state := .stale }

namespace Run

variable {σ : Type}

/-- Add a report. -/
def diagnose (r : Run σ) (kind : DiagnosticKind) (path message : String) : Run σ :=
  { r with table := r.table.record ⟨kind, path, message⟩ }

def reportCancelled (r : Run σ) : Run σ := { r with report := { r.report with cancelled := true } }

/-- Queue one dependent for resolution (in `mark_stale`). -/
def markStale (r : Run σ) (path : String) : Run σ :=
  if path == settingsFile then { r with settingsAffected := true }
  else if r.records.contains path then
    { r with
      records := r.records.modify path FileRecord.outdated
      affected := r.affected.add path
      touched := r.touched.add path }
  else r

/-- Queue dependents for resolution (`mark_stale`). -/
def markAllStale (r : Run σ) (paths : StringSet) : Run σ := paths.toList.foldl markStale r

/-- Note symbols that are gone. -/
def drop (r : Run σ) (ids : IdSet) : Run σ := { r with droppedIds := r.droppedIds.union ids }

def halt {α : Type} (r : Run σ) (e : AtlasError) : Except (Halt σ) α :=
  .error ⟨e, r.toController⟩

end Run

end CodeAtlas
