import CodeAtlas.Project.Passes

/-!
# Handing a run to the store

Finished files go to the store in batches of bounded size. A file counts as resolved once the store
has taken its batch. A removed file is forgotten only when its rows are gone; until then its record
is a tombstone.
-/

namespace CodeAtlas

/-- The nodes and edges that are written for a file (`file_rows`): its symbols, the symbol of its
namespace, and every placeholder or namespace that its edges point at. -/
def Table.fileRows (t : Table) (path : String) : List Symbol × List Edge :=
  let edges := t.edgesOf path
  let nodes := t.symbolsInFile path
  let ns := (nodes.findSome? (·.moduleName)).toList.map SymbolId.ofFqn
  let shared := (IdSet.ofList (ns ++ edges.map (·.target))).keys.filterMap fun id =>
    (SymbolLookup.findId? t id).filter fun s =>
      s.file.isEmpty && (s.kind == .external || s.kind == .moduleNode)
  (nodes ++ shared, edges)

/-- Full batches, and the one that is being filled (in `flush`). -/
structure Packing where
  full : List Batch := []
  current : Batch := {}
  deriving Inhabited

namespace Packing

/-- Add the rows of a file (in `flush`); a batch of at least `limit` rows is full. -/
def addFile (t : Table) (limit : Nat) (p : Packing) (path : String) : Packing :=
  let (nodes, edges) := t.fileRows path
  let b := { p.current with
    retract := p.current.retract ++ [path]
    nodes := p.current.nodes ++ nodes
    edges := p.current.edges ++ edges }
  if limit ≤ b.size then { full := p.full ++ [b] } else { p with current := b }

/-- All batches (in `flush`); the last one drops nodes. -/
def finish (p : Packing) (dropNodes : List SymbolId) : List Batch :=
  let last := { p.current with dropNodes }
  if last.isEmpty then p.full else p.full ++ [last]

end Packing

/-- The batches for removed and finished files (in `flush`). -/
def Table.batches (t : Table) (limit : Nat) (removed finished : List String)
    (dropNodes : List SymbolId) : List Batch :=
  (finished.foldl (Packing.addFile t limit) { current := { retract := removed } }).finish dropNodes

namespace Run

variable {σ : Type}

/-- Note that the rows of a finished file are ready for the store (in `run`). -/
def markReady (r : Run σ) (path : String) : Run σ :=
  { r with
    records := r.records.modify path fun x =>
      if x.state == .failed then x else { x with state := .collected }
    touched := r.touched.add path }

/-- Drop the placeholders that nothing needs, and check the table (in `run`). -/
def tidy (r : Run σ) : Except (Halt σ) (Run σ) :=
  let (pruned, table) := r.table.pruneExternals
  let r := { r with table }.drop pruned
  match r.table.inconsistency? with
  | some e => r.halt e
  | none => .ok r

/-- Note that the store has the rows of a file (in `flush`). -/
def markStored (now : Timestamp) (r : Run σ) (path : String) : Run σ :=
  { r with
    records := r.records.modify path fun x =>
      if x.state == .collected then { x with state := .resolved, resolvedAt := some now } else x }

/-- Offer one batch to the store (in `flush`); the answer extends the set of files whose rows are
still there. -/
def flushBatch [Sink σ] (now : Timestamp) (acc : StringSet × Run σ) (b : Batch) :
    StringSet × Run σ :=
  let (unretracted, r) := acc
  match Sink.writeRetrying b r.settings.pipeline.sinkRetries r.sink with
  | (.ok _, sink) => (unretracted, b.retract.foldl (markStored now) { r with sink })
  | (.error e, sink) =>
    let r := { r with
      sink, report := { r.report with sinkFailures := r.report.sinkFailures + 1 } }
    (unretracted.addAll (b.retract.filter r.removed.contains),
      b.retract.foldl (fun r path => r.diagnose .sinkWriteFailure path e.message) r)

/-- Hand finished and removed files to the store (`flush`). The answer is the set of removed files
whose rows are still there. -/
def flush [Sink σ] (now : Timestamp) (finished : List String) (r : Run σ) : StringSet × Run σ :=
  let gone := r.droppedIds.keys.filter fun id => (SymbolLookup.findId? r.table id).isNone
  let limit := max r.settings.pipeline.batchSize 1
  (r.table.batches limit r.removed finished gone).foldl (flushBatch now) (∅, r)

/-- Keep a tombstone for a removed file (in `run`). -/
def bury (r : Run σ) (path : String) : Run σ :=
  { r with
    records := r.records.insert path (.tombstone path)
    touched := r.touched.add path }

/-- Save the touched records, and forget the removed files whose rows are gone (in `run`). -/
def saveRecords [Sink σ] (unretracted : StringSet) (r : Run σ) : Run σ :=
  let (kept, gone) := r.removed.partition unretracted.contains
  let r := kept.foldl bury r
  let records := r.touched.toList.filterMap r.records.get?
  match Sink.save records (r.forgotten ++ gone) r.sink with
  | (.ok (), sink) => { r with sink }
  | (.error e, sink) =>
    { r with sink }.diagnose .sinkWriteFailure "" ("file records not persisted: " ++ e.message)

/-- The final report (in `run`). -/
def conclude (finished : List String) (r : Run σ) : RunReport × Controller σ :=
  let (diagnostics, table) := r.table.takeDiagnostics
  let resolved := (finished.filter fun p => p != settingsFile).mergeSort fun a b => a ≤ b
  ({ r.report with
      resolved, symbols := table.symbolCount, edges := table.edgeCount, diagnostics },
    { r.toController with table })

end Run

end CodeAtlas
