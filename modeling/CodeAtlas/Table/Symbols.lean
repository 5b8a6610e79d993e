import CodeAtlas.Table.Edges

/-!
# Symbols in the table

Files commit the set of symbols that they define, and are removed again. A later commit of a name
wins over the definition of another file; the loser is kept and resurfaces when the winner goes.
A declared namespace has a symbol of its own as long as a file declares it. Placeholders stand for
names that the project does not define.
-/

namespace CodeAtlas

/-- What a commit changed (`UpsertSummary`). -/
structure CommitSummary where
  inserted : Nat := 0
  /-- Identifiers of the symbols that are gone. -/
  removed : IdSet := ∅
  /-- Other files that lost an edge, or whose shadowed definition resurfaced. -/
  stale : StringSet := ∅
  /-- How many definitions of other files were shadowed. -/
  duplicates : Nat := 0
  deriving Inhabited

/-- What the removal of a file changed (`RemovedFile`). -/
structure RemovalSummary where
  removed : IdSet := ∅
  stale : StringSet := ∅
  deriving Inhabited

namespace Table

/-! ## Indexes -/

/-- List a symbol under its identifier and its short name (`index`). -/
def index (t : Table) (s : Symbol) : Table :=
  { t with
    ids := t.ids.insert s.id s.fqn
    names := t.names.insert s.name ((t.names.getD s.name ∅).add s.fqn) }

/-- Remove `x` from the set under `key`; an empty set is not kept. -/
def eraseFrom (m : SortedMap String StringSet) (key x : String) : SortedMap String StringSet :=
  let s := (m.getD key ∅).erase x
  if s.isEmpty then m.erase key else m.insert key s

/-- Remove a fully-qualified name from those of a short name (`unindex_name`). -/
def unindexName (t : Table) (name fqn : String) : Table :=
  { t with names := eraseFrom t.names name fqn }

/-- Store a symbol that the table did not have. -/
def insertNew (t : Table) (s : Symbol) : Table :=
  { t.index s with symbols := t.symbols.insert s.fqn s }

/-- The symbol of a declared namespace (`module_symbol`). -/
def moduleSymbol (ns : String) : Symbol := Symbol.ofName ns (shortName ns) .moduleNode

/-! ## Shadowed definitions -/

def setShadowed (t : Table) (fqn : String) (stack : List Symbol) : Table :=
  { t with shadowed :=
      if stack.isEmpty then t.shadowed.erase fqn else t.shadowed.insert fqn stack }

/-- Forget the shadowed definition of a name in a file (`purge_shadowed`). -/
def purgeShadowed (t : Table) (fqn file : String) : Table :=
  t.setShadowed fqn ((t.shadowed.getD fqn []).filter fun s => s.file != file)

/-! ## Namespaces -/

/-- Note that a file declares a namespace (`acquire_module`). -/
def acquireModule (t : Table) (ns file : String) : Table :=
  let t := { t with modules := t.modules.insert ns ((t.modules.getD ns ∅).add file) }
  if t.symbols.contains ns then t else t.insertNew (moduleSymbol ns)

/-- Note that a file no longer declares a namespace (`release_module`). With its last file the
symbol of the namespace goes, and its identifier is the answer. -/
def releaseModule (t : Table) (ns file : String) : Option SymbolId × Table :=
  match t.modules.get? ns with
  | none => (none, t)
  | some declaring =>
    let t := { t with modules := eraseFrom t.modules ns file }
    if (declaring.erase file).isEmpty then
      match t.symbols.get? ns with
      | some s =>
        if s.kind == .moduleNode && s.file.isEmpty then
          let t := { t with symbols := t.symbols.erase ns }
          let t := t.unindexName s.name ns
          (some s.id, { t with ids := t.ids.erase s.id })
        else (none, t)
      | none => (none, t)
    else (none, t)

/-! ## Withdrawing definitions -/

/-- What became of a definition that its file gave up (`Removal`). -/
inductive Withdrawal where
  /-- The symbol is gone. -/
  | gone (id : SymbolId)
  /-- A shadowed definition of this file took its place. -/
  | restored (file : String)
  /-- The symbol was not this file's, or the symbol of a namespace took its place. -/
  | kept
  deriving DecidableEq, Repr, Inhabited

/-- Withdraw the definition of a name by a file (`remove_owned`). -/
def withdraw (t : Table) (fqn file : String) : Withdrawal × Table :=
  let t := t.purgeShadowed fqn file
  match t.symbols.get? fqn with
  | none => (.kept, t)
  | some s =>
    if s.file != file || s.isExternal then (.kept, t)
    else
      match t.shadowed.getD fqn [] with
      | previous :: rest =>
        let t := t.setShadowed fqn rest
        (.restored previous.file, { t with symbols := t.symbols.insert fqn previous })
      | [] =>
        let t := { t with symbols := t.symbols.erase fqn }
        let t := t.unindexName s.name fqn
        if t.modules.contains fqn then (.kept, t.insertNew (moduleSymbol fqn))
        else (.gone s.id, { t with ids := t.ids.erase s.id })

/-- The running result of withdrawing several definitions. -/
structure Withdrawn where
  table : Table
  removed : IdSet := ∅
  restored : StringSet := ∅
  deriving Inhabited

/-- Withdraw one more definition. -/
def Withdrawn.step (file : String) (w : Withdrawn) (fqn : String) : Withdrawn :=
  match w.table.withdraw fqn file with
  | (.gone id, t) => { w with table := t, removed := w.removed.insert id () }
  | (.restored owner, t) => { w with table := t, restored := w.restored.add owner }
  | (.kept, t) => { w with table := t }

/-- Withdraw the definitions of several names by a file. -/
def withdrawAll (t : Table) (file : String) (fqns : List String) : Withdrawn :=
  fqns.foldl (Withdrawn.step file) { table := t }

/-- Give up the declaration of a namespace. -/
def Withdrawn.release (w : Withdrawn) (ns file : String) : Withdrawn :=
  match w.table.releaseModule ns file with
  | (some id, t) => { w with table := t, removed := w.removed.insert id () }
  | (none, t) => { w with table := t }

/-- Drop the edges to symbols that are gone (`cascade_removed`). The answer lists the owners that
lost an edge, except `file` itself. -/
def cascade (t : Table) (removed : IdSet) (file : String) : StringSet × Table :=
  let owners := removed.keys.foldl (fun s id => StringSet.addAll s (t.dependentFiles id)) ∅
  (owners.erase file, owners.toList.foldl (dropEdgesTo removed) t)

/-! ## Committing a file -/

/-- Why a symbol cannot be committed by a file (in `validate_symbols`). -/
def symbolRefusal? (t : Table) (file : String) (s : Symbol) : Option AtlasError :=
  if s.fqn.isEmpty then some (.invalidSymbols file "symbol with empty FQN")
  else if s.file != file then
    some (.invalidSymbols file (s.fqn ++ " is attributed to " ++ s.file))
  else if s.isExternal then some (.invalidSymbols file (s.fqn ++ " is an external placeholder"))
  else if s.id != .ofFqn s.fqn then
    some (.invalidSymbols file (s.fqn ++ " carries a foreign id"))
  else
    match t.ids.get? s.id with
    | some fqn =>
      if fqn != s.fqn then
        some (.tableCorruption
          ("id " ++ s.id.hex ++ " maps to both " ++ fqn ++ " and " ++ s.fqn))
      else none
    | none => none

/-- The report of a name that a file defines twice (in `validate_symbols`). -/
def repeatedDefinition (file fqn : String) : Diagnostic :=
  ⟨.duplicateFqn, file, fqn ++ " is defined more than once; the later definition wins"⟩

/-- The report of a name that another file defines, too (in `insert_symbol`). -/
def shadowingDefinition (file fqn other : String) : Diagnostic :=
  ⟨.duplicateFqn, file,
    fqn ++ " also defined in " ++ other ++ "; most recently collected definition wins"⟩

/-- Check a set of symbols (`validate_symbols`). Of several definitions of a name the last counts,
in the place of the first; each repeat is reported, also when a later symbol is refused. -/
def admitSymbols (t : Table) (file : String) :
    List Symbol → List Symbol → List Diagnostic →
      Except AtlasError (List Symbol) × List Diagnostic
  | [], admitted, reports => (.ok admitted, reports)
  | s :: rest, admitted, reports =>
    match t.symbolRefusal? file s with
    | some e => (.error e, reports)
    | none =>
      if admitted.any fun x => x.fqn == s.fqn then
        admitSymbols t file rest (admitted.map fun x => if x.fqn == s.fqn then s else x)
          (reports ++ [repeatedDefinition file s.fqn])
      else admitSymbols t file rest (admitted ++ [s]) reports

/-- The namespace that a set of symbols declares (in `upsert_symbols`): that of its file node, else
the first one. -/
def declaredModule? (symbols : List Symbol) : Option String :=
  ((symbols.find? fun s => s.kind == .file).bind (·.moduleName)).or
    (symbols.findSome? (·.moduleName))

/-- Store one symbol of a commit (`insert_symbol`). The answer tells whether it shadows another
file's definition. -/
def insertSymbol (t : Table) (s : Symbol) : Bool × Table :=
  match t.symbols.get? s.fqn with
  | none => (false, t.insertNew s)
  | some existing =>
    let foreign := !existing.isExternal && !existing.file.isEmpty && existing.file != s.file
    let t :=
      if foreign then
        (t.record (shadowingDefinition s.file s.fqn existing.file)).setShadowed s.fqn
          (existing :: t.shadowed.getD s.fqn [])
      else t
    let t := if existing.name != s.name then t.unindexName existing.name existing.fqn else t
    (foreign, t.insertNew s)

/-- Store one symbol of a commit and count it (in `upsert_symbols`). -/
def commitSymbol (file : String) (acc : CommitSummary × Table) (s : Symbol) :
    CommitSummary × Table :=
  let (shadows, t) := (acc.2.purgeShadowed s.fqn file).insertSymbol s
  ({ acc.1 with
      inserted := acc.1.inserted + 1
      duplicates := acc.1.duplicates + if shadows then 1 else 0 }, t)

/-- Declare `ns` for a file that declared `old`. -/
def Withdrawn.declare (w : Withdrawn) (file : String) (old ns : Option String) : Withdrawn :=
  if old = ns then w
  else
    let w := match old with
      | some o => w.release o file
      | none => w
    match ns with
    | some n => { w with table := w.table.acquireModule n file }
    | none => w

/-- Replace all symbols of a file by an admitted set (in `upsert_symbols`). -/
def commitAdmitted (t : Table) (file : String) (symbols : List Symbol) : CommitSummary × Table :=
  let entry := t.files.getD file {}
  let fqns := symbols.map (·.fqn)
  let ns := declaredModule? symbols
  let w := t.withdrawAll file (entry.fqns.filter fun f => !fqns.contains f)
  let w := w.declare file entry.moduleName ns
  let (summary, t) := symbols.foldl (commitSymbol file) ({}, w.table)
  let t := { t with files := t.files.insert file ⟨fqns, ns⟩ }
  let (owners, t) := t.cascade w.removed file
  ({ summary with
      removed := w.removed
      stale := (owners.addAll w.restored.toList).erase file }, t)

/-- Replace all symbols of a file (`upsert_symbols`). A refused set changes nothing but the
reports. -/
def commitFile (t : Table) (file : String) (symbols : List Symbol) :
    Except AtlasError CommitSummary × Table :=
  let (admitted, reports) := t.admitSymbols file symbols [] []
  let t := { t with diagnostics := t.diagnostics ++ reports }
  match admitted with
  | .error e => (.error e, t)
  | .ok symbols =>
    let (summary, t) := t.commitAdmitted file symbols
    (.ok summary, t)

/-- Remove a file with all its symbols and edges (`remove_file`). -/
def removeFile (t : Table) (file : String) : RemovalSummary × Table :=
  let w : Withdrawn := match t.files.get? file with
    | some entry =>
      let w := { t with files := t.files.erase file }.withdrawAll file entry.fqns
      match entry.moduleName with
      | some ns => w.release ns file
      | none => w
    | none => { table := t }
  let (owners, t) := (w.table.clearEdges file).cascade w.removed file
  (⟨w.removed, owners.addAll w.restored.toList⟩, t)

/-! ## Placeholders -/

/-- The symbol of a name, which becomes a placeholder with the template's name, place and metadata
if the table does not know it (`get_or_create_placeholder`). -/
def ensurePlaceholder (t : Table) (template : Symbol) : Symbol × Table :=
  match t.symbols.get? template.fqn with
  | some s => (s, t)
  | none =>
    let s := { template with kind := .external, file := "", id := .ofFqn template.fqn }
    (s, t.insertNew s)

/-- The symbol of a name, which becomes a placeholder if the table does not know it
(`get_or_create_external`). -/
def ensureExternal (t : Table) (fqn : String) : Symbol × Table :=
  t.ensurePlaceholder (.placeholder fqn (shortName fqn))

/-- Whether a symbol is a placeholder that no edge targets (in `prune_externals`). -/
def isOrphan (t : Table) (s : Symbol) : Bool := s.isExternal && !t.dependents.contains s.id

/-- Remove one symbol and its index entries. -/
def dropSymbol (t : Table) (s : Symbol) : Table :=
  let t := { t with symbols := t.symbols.erase s.fqn, ids := t.ids.erase s.id }
  t.unindexName s.name s.fqn

/-- Remove the placeholders that no edge targets (`prune_externals`). -/
def pruneExternals (t : Table) : IdSet × Table :=
  let orphans := t.allSymbols.filter t.isOrphan
  (SortedMap.ofList (orphans.map fun s => (s.id, ())), orphans.foldl dropSymbol t)

end Table

end CodeAtlas
