import CodeAtlas.Project.Update
import CodeAtlas.Store.Database
import CodeAtlas.Text.Quoted
import CodeAtlas.Text.Utf8

/-!
# Workspaces

The files and folders that a project lives in, as a value. A project reads its sources from the
folder that is its root; hidden files and folders do not belong to it. Stored graphs are files of
the workspace, too.
-/

namespace CodeAtlas

/-- Files and folders. Paths are lists of names, written with slashes. -/
structure Workspace where
  files : SortedMap String (List UInt8) := ∅
  /-- Stored graphs by their paths. -/
  databases : SortedMap String Database := ∅
  /-- Folders that exist even if nothing is in them. -/
  folders : StringSet := ∅
  deriving Inhabited

namespace Workspace

/-! ## Places -/

def filePaths (w : Workspace) : List String := w.files.keys ++ w.databases.keys

/-- Whether a place is a folder. -/
def isFolderAt (w : Workspace) (place : List String) : Bool :=
  place.isEmpty || w.folders.contains (Path.ofParts place)
    || w.filePaths.any fun p =>
      match Path.below? place (Path.parts p) with
      | some (_ :: _) => true
      | _ => false

/-- The place that one part of a path leads to from another. Places are given in reverse. -/
def step (place : List String) (part : String) : List String :=
  if part == "" || part == "." then place
  else if part == ".." then place.drop 1
  else part :: place

/-- Where the parts of a path lead from a place, given in reverse; each step needs a folder to start
from. -/
def walk (w : Workspace) : List String → List String → Option (List String)
  | place, [] => some place.reverse
  | place, part :: rest =>
    if w.isFolderAt place.reverse then w.walk (step place part) rest else none

/-- Where a path leads. -/
def locate? (w : Workspace) (path : String) : Option String :=
  (w.walk [] (Text.split '/' path)).map Path.ofParts

def isFile (w : Workspace) (path : String) : Bool :=
  (w.locate? path).any w.filePaths.contains

def isFolder (w : Workspace) (path : String) : Bool :=
  (w.walk [] (Text.split '/' path)).any w.isFolderAt

/-- The content of the file that a path leads to. -/
def read? (w : Workspace) (path : String) : Option (List UInt8) :=
  (w.locate? path).bind w.files.get?

/-! ## Changes -/

/-- Follow the parts of a path from a place, given in reverse, and create the folders on the way. A
file in the way makes it fail. -/
def createFolders (w : Workspace) : List String → List String → Option (Workspace × List String)
  | place, [] => some (w, place)
  | place, part :: rest =>
    let next := step place part
    let key := Path.ofParts next.reverse
    if w.filePaths.contains key then none
    else ({ w with folders := if next.isEmpty then w.folders else w.folders.add key }).createFolders
      next rest

/-- Create the folders above a path; the result has the place of the path in them. -/
def prepare? (w : Workspace) (path : String) : Option (Workspace × String) := do
  let name ← Path.fileName? path
  let (w, place) ← w.createFolders [] (Text.split '/' (Path.parent path))
  return (w, Path.ofParts (name :: place).reverse)

/-- Create a folder, with the folders above it. -/
def addFolder (w : Workspace) (path : String) : Workspace :=
  match w.createFolders [] (Text.split '/' path) with
  | some (w, _) => w
  | none => w

/-- Write a file, with the folders above it. -/
def write (w : Workspace) (path : String) (content : List UInt8) : Workspace :=
  match w.prepare? path with
  | some (w, key) =>
    { w with files := w.files.insert key content, databases := w.databases.erase key }
  | none => w

def delete (w : Workspace) (path : String) : Workspace :=
  match w.locate? path with
  | some key => { w with files := w.files.erase key, databases := w.databases.erase key }
  | none => w

/-- Store a graph in a file. -/
def putDatabase (w : Workspace) (path : String) (d : Database) : Workspace :=
  match w.prepare? path with
  | some (w, key) => { w with databases := w.databases.insert key d, files := w.files.erase key }
  | none => w

/-- The graph that is stored in a file. -/
def database? (w : Workspace) (path : String) : Option Database :=
  (w.locate? path).bind w.databases.get?

/-! ## Sources -/

/-- Whether a name is hidden (`is_hidden`). -/
def isHidden (parts : List String) : Bool := parts.any (Text.hasPrefix ".")

/-- The source file at a relative path below a root, read as text (`read_source`). -/
def source? (w : Workspace) (root path language : String) : Option SourceFile :=
  (w.read? (Path.join root path)).map fun bytes => .ofContent path language (Text.ofBytes bytes)

/-- The files below a place that belong to a project, with their languages, in order (in
`collect_files`). -/
def filesBelow (w : Workspace) (r : Registry) (place : String) : List (String × String) :=
  let found := w.filePaths.filterMap fun path => do
    let parts ← Path.below? (Path.parts place) (Path.parts path)
    if isHidden parts then none
    else
      let relative := Path.ofParts parts
      (r.forPath? relative).map fun c => (relative, c.language)
  found.mergeSort fun a b => a.1 ≤ b.1

/-- The files of the project with a root, if it leads anywhere (`collect_files`). A root that is a
file has no name below itself. -/
def projectFiles? (w : Workspace) (r : Registry) (root : String) :
    Option (List (String × String)) :=
  if w.isFile root then some ((r.forPath? root).toList.map fun c => ("", c.language))
  else if w.isFolder root then (w.locate? root).map (w.filesBelow r)
  else none

end Workspace

/-! ## Projects in a workspace -/

/-- Why a run over a workspace has no result. -/
inductive ProjectFault (σ : Type) where
  /-- The root leads nowhere. -/
  | noRoot (root : String)
  | halted (halt : Halt σ)

def ProjectFault.message {σ : Type} : ProjectFault σ → String
  | .noRoot root => "Failed to walk " ++ Text.quote root
  | .halted h => h.error.message

namespace Controller

variable {σ : Type} [Sink σ]

/-- The wording of a file that cannot be read, which is below a file (in `read_source`). -/
def unreadable (root path : String) : String :=
  "Failed to read file: " ++ Text.quote (Path.join root path) ++ ": Not a directory (os error 20)"

/-- The changes of some paths, and the paths that cannot be read. -/
structure Observed where
  changes : List FileChange := []
  unreadable : List FileFailure := []
  deriving Inhabited

def observeSource (w : Workspace) (c : Controller σ) (o : Observed) (x : String × String) :
    Observed :=
  match w.source? c.root x.1 x.2 with
  | some s => { o with changes := o.changes ++ [.modified s] }
  | none =>
    { o with unreadable := o.unreadable ++ [⟨x.1, .collect, Controller.unreadable c.root x.1⟩] }

/-- Look at one path again (in `update_paths`): it is gone, of no known language, or a source. -/
def observePath (w : Workspace) (c : Controller σ) (o : Observed) (path : String) : Observed :=
  let path := Path.normalize path
  if w.isFile (Path.join c.root path) then
    match c.registry.forPath? path with
    | none => o
    | some collector => observeSource w c o (path, collector.language)
  else { o with changes := o.changes ++ [.removed path] }

/-- Run over what was observed. -/
def runObserved (k : Conditions) (o : Observed) (full : Bool) (c : Controller σ) :
    Except (ProjectFault σ) (RunReport × Controller σ) :=
  match c.run k o.changes full with
  | .ok (report, c) => .ok ({ report with failures := report.failures ++ o.unreadable }, c)
  | .error h => .error (.halted h)

/-- Bring the whole project up to date (`sync_project`). -/
def sync (k : Conditions) (w : Workspace) (c : Controller σ) :
    Except (ProjectFault σ) (RunReport × Controller σ) :=
  match w.projectFiles? c.registry c.root with
  | some present =>
    let o := present.foldl (observeSource w c) {}
    let gone := c.records.keys.filter fun p => p != settingsFile && !(present.map (·.1)).contains p
    c.runObserved k { o with changes := o.changes ++ gone.map .removed } true
  | none => .error (.noRoot c.root)

/-- Look at some paths again (`update_paths`). -/
def update (k : Conditions) (w : Workspace) (paths : List String) (c : Controller σ) :
    Except (ProjectFault σ) (RunReport × Controller σ) :=
  c.runObserved k (paths.foldl (observePath w c) {}) false

end Controller

end CodeAtlas
