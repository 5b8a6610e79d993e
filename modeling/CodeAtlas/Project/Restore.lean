import CodeAtlas.Project.Controller
import CodeAtlas.Store.Database

/-!
# Restoring a project

The table is built anew from what a store kept, without a run. Edges are taken over only for files
whose rows the store acknowledged, and only if both ends of each still exist; the other owners are
left for the next run, which also retracts the rows of owners without a record.
-/

namespace CodeAtlas

/-- Whether the store had taken the rows of a file (in `restore`). -/
def FileRecord.isAcknowledged (r : FileRecord) : Bool :=
  r.sketches.isSome && (r.state == .resolved || r.state == .failed)

namespace Controller

variable {σ : Type}

def collectedBefore (a b : FileRecord) : Bool :=
  ((compare a.seq b.seq).then (compare a.path b.path)) != .gt

/-- Take over one record and its symbols (in `restore`). -/
def restoreRecord (c : Controller σ) (x : FileRecord) : Except (Halt σ) (Controller σ) :=
  let remember (c : Controller σ) : Controller σ :=
    { c with seq := max c.seq x.seq, records := c.records.insert x.path x }
  match x.sketches with
  | none => .ok (remember c)
  | some sketches =>
    match c.table.commitFile x.path sketches.assembleSymbols with
    | (.ok _, table) => .ok (remember { c with table })
    | (.error e, table) => .error ⟨e, { c with table }⟩

def restorePlaceholder (c : Controller σ) (s : Symbol) : Controller σ :=
  if s.isExternal then { c with table := (c.table.ensurePlaceholder s).2 } else c

def byOwner (edges : List Edge) : SortedMap String (List Edge) :=
  edges.foldl (fun m e => m.insert e.owner (m.getD e.owner [] ++ [e])) ∅

/-- Make the settings file known if it owns edges (in `restore`). -/
def restoreSettings (owned : SortedMap String (List Edge)) (c : Controller σ) :
    Except (Halt σ) (Controller σ) :=
  if owned.contains settingsFile then
    match c.table.commitFile settingsFile [settingsSymbol] with
    | (.ok _, table) => .ok { c with table }
    | (.error e, table) => .error ⟨e, { c with table }⟩
  else .ok c

/-- Whether both ends of an edge exist (in `restore`). -/
def isIntact (t : Table) (e : Edge) : Bool :=
  (SymbolLookup.findId? t e.source).isSome && (SymbolLookup.findId? t e.target).isSome

/-- Take over the edges of an owner (in `restore`). -/
def takeEdges (c : Controller σ) (owner : String) (edges : List Edge) :
    Except (Halt σ) (Controller σ) :=
  match c.table.replaceEdges owner edges with
  | .ok table => .ok { c with table }
  | .error e => .error ⟨e, c⟩

/-- Take over the edges of an owner, or leave them for the next run (in `restore`). -/
def restoreOwner (c : Controller σ) (x : String × List Edge) : Except (Halt σ) (Controller σ) :=
  let (owner, edges) := x
  let intact := edges.all (isIntact c.table)
  if owner == settingsFile then
    if intact then c.takeEdges owner edges else .ok { c with settingsDirty := true }
  else
    match c.records.get? owner with
    | none => .ok { c with records := c.records.insert owner (.tombstone owner) }
    | some record =>
      if record.isAcknowledged && intact then c.takeEdges owner edges
      else if record.state == .resolved then
        .ok { c with records := c.records.insert owner { record with state := .stale } }
      else .ok c

/-- Build the table from what a store kept (`restore`). -/
def restore (stored : StoredState) (c : Controller σ) : Except (Halt σ) (Controller σ) := do
  let c ← (stored.records.mergeSort collectedBefore).foldlM restoreRecord c
  let c := stored.placeholders.foldl restorePlaceholder c
  let owned := byOwner stored.edges
  let c ← c.restoreSettings owned
  let c ← owned.entries.foldlM restoreOwner c
  match c.table.inconsistency? with
  | some e => .error ⟨e, c⟩
  | none => return { c with table := c.table.takeDiagnostics.2 }

end Controller

end CodeAtlas
