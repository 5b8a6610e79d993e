import CodeAtlas.Command.Program
import CodeAtlas.Store.Archive

/-!
# The command line

The outer layer of the program: it reads the part of the file system that a call may look at into a
workspace, runs the program, stores the database and prints.
-/

namespace CodeAtlas

/-- Add the bytes of a file. A file that cannot be read is left out. -/
def addFile (w : Workspace) (path : String) : IO Workspace := do
  try
    return w.write path (← IO.FS.readBinFile path).toList
  catch _ => return w

/-- Add a folder with the sources below it. Links are followed, but not back to a folder that is
already being read. -/
partial def addTree (w : Workspace) (above : List String) (path : String) : IO Workspace := do
  try
    let real ← IO.FS.realPath path
    match (← real.metadata).type with
    | .dir =>
      if above.contains real.toString then return w
      let mut w := w.addFolder path
      for entry in ← real.readDir do
        if !Text.hasPrefix "." entry.fileName then
          w ← addTree w (real.toString :: above) (Path.join path entry.fileName)
      return w
    | .file => if (Registry.standard.forPath? path).isSome then addFile w path else return w
    | _ => return w
  catch _ => return w

/-- Add the database in a file; any other content is added as it is. -/
def addDatabase (w : Workspace) (path : String) : IO Workspace := do
  try
    let bytes := (← IO.FS.readBinFile path).toList
    match Database.parse? (Text.ofBytes bytes) with
    | some d => return w.putDatabase path d
    | none => return w.write path bytes
  catch _ => return w

/-- The files that hold the settings of a call. -/
def Call.settingsFiles (c : Call) : List String :=
  match c.config, c.action.root? with
  | some path, _ => [path]
  | none, some root => [Path.join root settingsFile]
  | none, none => []

/-- The sources of a call that are named in it. -/
def Action.namedFiles : Action → List String
  | .update root paths => paths.map fun p => Path.join root (Path.normalize p)
  | _ => []

/-- Where a call keeps its database. -/
def Call.database? (c : Call) (w : Workspace) : Option String := do
  let root ← c.action.root?
  let settings ← (c.settings w).toOption
  return settings.databaseLocation root

/-- The part of the file system that a call may look at. -/
def readWorkspace (c : Call) : IO Workspace := do
  let w ← c.settingsFiles.foldlM addFile {}
  match c.action.root?, c.database? w with
  | some root, some database =>
    let w ← addTree w [] root
    let w ← c.action.namedFiles.foldlM addFile w
    addDatabase w database
  | _, _ => return w

/-- The time of the clock, as files are stamped with it. -/
def clock : IO Timestamp := do
  let (_, file) ← IO.FS.createTempFile
  let stamp := (← file.metadata).modified
  IO.FS.removeFile file
  return { second := stamp.sec, nano := stamp.nsec.toNat }

def writeDatabase (c : Call) (w : Workspace) : IO Unit := do
  match (c.database? w).bind fun path => (w.database? path).map (path, ·) with
  | some (path, d) =>
    IO.FS.createDirAll (Path.parent path)
    IO.FS.writeFile path d.render
  | none => return

end CodeAtlas

open CodeAtlas in
def main (args : List String) : IO UInt32 := do
  let w ← match Call.ofArgs args with
    | .ok c => readWorkspace c
    | .error _ => pure {}
  let (printed, w) := runProgram { now := ← clock } args w
  if let .ok c := Call.ofArgs args then writeDatabase c w
  IO.print printed.stdout
  IO.eprint printed.stderr
  return printed.exit.toUInt32
