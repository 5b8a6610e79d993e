import CodeAtlas.Project.Restore
import CodeAtlas.Project.Workspace

/-!
# Opening a project

A project keeps its graph in a database inside its workspace. Opening the project creates the
database if there is none and restores what it holds.
-/

namespace CodeAtlas

/-- Why a project cannot be opened. -/
inductive OpenError where
  /-- The folder of the database cannot be created. -/
  | noFolder (path : String)
  /-- There is a folder in the place of the database. -/
  | noFile (path : String)
  | noDatabase
  /-- The stored graph cannot be read. -/
  | unreadable (path : String) (error : DatabaseError)
  /-- The stored graph contradicts itself. -/
  | inconsistent (error : AtlasError)
  deriving DecidableEq, Repr, Inhabited

def OpenError.message : OpenError → String
  | noFolder path => "Failed to create database directory: " ++ Text.quote (Path.parent path)
  | noFile path => "Failed to open database: " ++ Text.quote path
  | noDatabase => "file is not a database"
  | unreadable path _ => "Failed to load graph state from " ++ Text.quote path
  | inconsistent e => e.message

namespace Workspace

/-- The database in a file (`Database::open`); a missing or empty file becomes one. -/
def openDatabase (w : Workspace) (path : String) : Except OpenError Database :=
  if w.isFolder path then .error (.noFile path)
  else
    match w.prepare? path with
    | none => .error (.noFolder path)
    | some (w, key) =>
      match w.databases.get? key, w.files.get? key with
      | some d, _ => .ok d
      | none, some (_ :: _) => .error .noDatabase
      | none, _ => .ok {}

/-- Open the project in a folder (`open_project`). The workspace then has its database. -/
def openProject (w : Workspace) (root : String) (settings : Settings) :
    Except OpenError (Controller Database × Workspace) := do
  let path := settings.databaseLocation root
  let d ← w.openDatabase path
  let d := d.createTables
  let stored ← d.load.mapError (.unreadable path)
  let c : Controller Database := { root, settings, sink := d }
  let c ← if stored.records.isEmpty then pure c
    else (c.restore stored).mapError fun h => .inconsistent h.error
  return (c, w.putDatabase path d)

/-- Keep what a project has stored. -/
def keep (w : Workspace) (c : Controller Database) : Workspace :=
  w.putDatabase (c.settings.databaseLocation c.root) c.sink

end Workspace

end CodeAtlas
