import Mathlib
import CodeAtlas.Proofs.Project.Synchrony
import CodeAtlas.Proofs.Table.Cascades
import CodeAtlas.Proofs.Table.Listing

/-!
# The size of batches

Finished files are packed into batches of bounded size. A batch retracts before it writes, so it
matters in general what stands in one batch and what in two. For the files of one run it does not:
two batches do what one does if the second takes away nothing that the first one wrote, and a file
takes away rows of its own only. So the packing comes to the same as one batch with everything.

Main results:

* `MemoryStore.apply_append`: when two batches do what one does.
* `owned_after`, `ownRows_after`: the rows that a table has for a file are of that file or shared.
* `rows_batches`: the batches of a run do what one batch with everything does.
* `flush_withBatchSize`: the size of batches changes neither rows nor records.
-/

namespace CodeAtlas

open SortedMap

/-! ## Two batches as one -/

namespace Batch

instance : Append Batch where
  append b b' :=
    { retract := b.retract ++ b'.retract
      dropNodes := b.dropNodes ++ b'.dropNodes
      nodes := b.nodes ++ b'.nodes
      edges := b.edges ++ b'.edges }

variable (a b : Batch)

@[simp] theorem append_retract : (a ++ b).retract = a.retract ++ b.retract := rfl

@[simp] theorem append_dropNodes : (a ++ b).dropNodes = a.dropNodes ++ b.dropNodes := rfl

@[simp] theorem append_nodes : (a ++ b).nodes = a.nodes ++ b.nodes := rfl

@[simp] theorem append_edges : (a ++ b).edges = a.edges ++ b.edges := rfl

/-- A batch takes away no row that another one writes. -/
structure Spares (b a : Batch) : Prop where
  nodes : ∀ n ∈ a.nodes, n.file ∉ b.retract ∧ n.id ∉ b.dropNodes
  edges : ∀ e ∈ a.edges, e.owner ∉ b.retract

theorem eq_empty_of_isEmpty {b : Batch} (h : b.isEmpty = true) : b = {} := by
  simp only [isEmpty, Bool.and_eq_true, List.isEmpty_iff] at h
  obtain ⟨⟨⟨hretract, hdrops⟩, hnodes⟩, hedges⟩ := h
  cases b
  simp_all

end Batch

namespace MemoryStore

variable {a b : Batch}

theorem get?_nodes_apply_append (h : b.Spares a) (s : MemoryStore) (id : SymbolId) :
    ((s.apply a).apply b).nodes.get? id = (s.apply (a ++ b)).nodes.get? id := by
  rw [get?_nodes_apply, get?_nodes_apply, get?_nodes_apply, Batch.append_nodes,
    List.reverse_append, List.find?_append, Option.or_assoc]
  congr 1
  cases hf : a.nodes.reverse.find? fun n => n.id == id with
  | some n =>
    have hid : n.id = id := by simpa using List.find?_some hf
    obtain ⟨hfile, hdrop⟩ := h.nodes n (List.mem_reverse.1 (List.mem_of_find?_eq_some hf))
    rw [hid] at hdrop
    simp [hdrop, hfile]
  | none =>
    cases hs : s.nodes.get? id with
    | none => simp
    | some n =>
      by_cases ha : id ∈ a.dropNodes <;> by_cases hb : id ∈ b.dropNodes <;>
        by_cases hfa : n.file ∈ a.retract <;> simp [Option.filter, ha, hb, hfa]

theorem get?_edges_apply_append (h : b.Spares a) (s : MemoryStore) (o : String) :
    ((s.apply a).apply b).edges.get? o = (s.apply (a ++ b)).edges.get? o := by
  -- an owner with an edge of the first batch is not retracted by the second one
  have hspared : a.edges.filter (fun e => e.owner == o) ≠ [] → o ∉ b.retract := by
    intro hne
    obtain ⟨e, he⟩ := List.exists_mem_of_ne_nil _ hne
    obtain ⟨hmem, howner⟩ := List.mem_filter.1 he
    exact beq_iff_eq.1 howner ▸ h.edges e hmem
  simp only [get?_edges_apply, edgesOf_apply, Batch.append_edges, Batch.append_retract,
    List.filter_append, List.append_eq_nil_iff, List.mem_append]
  by_cases ha : a.edges.filter (fun e => e.owner == o) = []
  · by_cases hb : b.edges.filter (fun e => e.owner == o) = [] <;>
      by_cases hra : o ∈ a.retract <;> by_cases hrb : o ∈ b.retract <;> simp [ha, hb, hra, hrb]
  · by_cases hb : b.edges.filter (fun e => e.owner == o) = [] <;> simp [ha, hb, hspared ha]

/-- Two batches do what one does, if the second takes away nothing that the first one wrote. -/
theorem apply_append (h : b.Spares a) (s : MemoryStore) :
    SameRows (s.apply (a ++ b)) ((s.apply a).apply b) :=
  ⟨SortedMap.ext (get?_nodes_apply_append h s), SortedMap.ext (get?_edges_apply_append h s)⟩

end MemoryStore

/-! ## Rows of a file -/

namespace Table

variable {names : Set String} {t t' : Table} {owner : String}

/-- Every edge stands with its owner. -/
def Owned (t : Table) : Prop := ∀ o, ∀ e ∈ t.edgesOf o, e.owner = o

namespace Owned

theorem of_subset (h : Owned t) (hsub : ∀ o e, e ∈ t'.edgesOf o → e ∈ t.edgesOf o) : Owned t' :=
  fun o e he => h o e (hsub o e he)

theorem of_same (h : Owned t) (hs : SameEdges t t') : Owned t' :=
  h.of_subset fun o _ he => hs.edgesOf o ▸ he

theorem rewires (h : Owned t) {edges : List Edge} (hr : Rewires owner edges t t')
    (hedges : ∀ e ∈ edges, e.owner = owner) : Owned t' := by
  intro o e he
  rw [hr.edgesOf] at he
  split at he
  · next ho => exact (hedges e he).trans ho.symm
  · exact h o e he

theorem apply (h : Owned t) (hintact : Intact t) (hproper : t.Proper) (hhome : t.AtHome)
    (op : Operation) : Owned (t.apply op) := by
  cases op with
  | commit file symbols =>
    change Owned (t.commitFile file symbols).2
    rcases hc : t.commitFile file symbols with ⟨_ | summary, t'⟩
    · exact h.of_same (commitFile_eq_error hc).edges
    · refine h.of_subset fun o e he => ?_
      rw [(commitFile_reports hintact hproper hc).1] at he
      exact (List.mem_filter.1 he).1
  | remove file =>
    change Owned (t.removeFile file).2
    rcases hr : t.removeFile file with ⟨summary, t'⟩
    refine h.of_subset fun o e he => ?_
    rw [(removeFile_reports hintact hproper hhome hr).2.1] at he
    split at he
    · cases he
    · exact (List.mem_filter.1 he).1
  | external fqn | placeholder template =>
    exact h.of_same (ensurePlaceholder_anchored hintact.anchored _).2.1
  | replace owner edges =>
    change Owned ((t.replaceEdges owner edges).toOption.getD t)
    cases hr : t.replaceEdges owner edges with
    | error e => exact h
    | ok t' =>
      obtain ⟨hadm, hrewires⟩ := replaceEdges_rewires hr
      exact h.rewires hrewires fun e he => (hadm e (mem_sort.1 (mem_of_mem_dropRepeats he))).1
  | append owner edges =>
    change Owned ((t.appendEdges owner edges).toOption.getD t)
    cases hr : t.appendEdges owner edges with
    | error e => exact h
    | ok t' =>
      obtain ⟨hadm, edges', hrewires, hmem⟩ := appendEdges_rewires hr
      exact h.rewires hrewires fun e he =>
        (hmem e he).elim (h owner e) fun he => (hadm e he).1
  | clear owner => exact h.rewires (clearEdges_rewires t owner) (by simp)
  | prune => exact h.of_same (foldl_dropSymbol (t.allSymbols.filter t.isOrphan) t).1
  | report d => exact h.of_same (SameGraph.record t d).edges
  | takeReports => exact h.of_same (SameGraph.setDiagnostics t []).edges

end Owned

theorem owned_after (ops : List Operation) : Owned (after ops) := by
  induction ops using List.reverseRecOn with
  | nil => exact fun o e he => by cases he
  | append_singleton ops op ih =>
    rw [after_append]
    exact ih.apply (intact_after ops) (proper_after ops) (homed_after ops) op

/-- What a table has for a file: known symbols of the file or of no file, and edges of the file. -/
structure OwnRows (t : Table) : Prop where
  nodes : ∀ {p n}, n ∈ (t.fileRows p).1 →
    (n.file = p ∨ n.file = "") ∧ (SymbolLookup.findId? t n.id).isSome = true
  edges : ∀ {p e}, e ∈ (t.fileRows p).2 → e.owner = p

/-- The identifier of a known name leads to its symbol. -/
theorem Listed.findId?_eq_some (h : Listed names t) (ha : Anchored t)
    (hinj : Set.InjOn SymbolId.ofFqn names) {fqn : String} {s : Symbol}
    (hs : t.symbols.get? fqn = some s) : SymbolLookup.findId? t s.id = some s := by
  obtain ⟨g, hg⟩ := contains_iff.1 (h.ids (contains_of_get? hs))
  obtain ⟨hknown, hid⟩ := ha.ids hg
  obtain rfl := hinj (h.known hknown) (h.known (contains_of_get? hs)) hid
  change (t.ids.get? s.id).bind t.symbols.get? = some s
  rw [(ha.symbol hs).2, hg]
  exact hs

theorem ownRows_after (hinj : Set.InjOn SymbolId.ofFqn names) {ops : List Operation}
    (hops : ∀ op ∈ ops, op.UsesNames names) : OwnRows (after ops) := by
  have hanchored := (intact_after ops).anchored
  refine ⟨fun {p n} hn => ?_, fun he => owned_after ops _ _ he⟩
  rcases List.mem_append.1 hn with hn | hn
  · obtain ⟨hfile, fqn, -, hget⟩ := mem_symbolsInFile hn
    rw [(listed_after hinj hops).findId?_eq_some hanchored hinj hget]
    exact ⟨.inl hfile, rfl⟩
  · obtain ⟨id, -, hid⟩ := List.mem_filterMap.1 hn
    obtain ⟨hfind, hshared⟩ := Option.filter_eq_some_iff.1 hid
    rw [Bool.and_eq_true, String.isEmpty_iff] at hshared
    obtain ⟨fqn, hlisted, hget⟩ := Option.bind_eq_some_iff.1 hfind
    have hn : n.id = id := (hanchored.symbol hget).2.trans (hanchored.ids hlisted).2
    rw [hn, hfind]
    exact ⟨.inr hshared.1, rfl⟩

end Table

/-! ## Packing -/

namespace Table

variable {t : Table} {files : List String} {drops : List SymbolId} {path : String}

/-- What takes away some files spares the rows of other files. -/
theorem OwnRows.spares (h : OwnRows t) (hdrops : ∀ id ∈ drops, SymbolLookup.findId? t id = none)
    (hfresh : path ∉ files) (hpaths : "" ∉ files) :
    (Group.batch t { files, drops }).Spares (Group.batch t { files := [path] }) := by
  refine ⟨fun n hn => ?_, fun e he => ?_⟩
  · obtain ⟨hfile, hknown⟩ := h.nodes (p := path) (by simpa [Group.batch] using hn)
    constructor
    · rcases hfile with hfile | hfile <;> rw [hfile]
      · exact hfresh
      · exact hpaths
    · intro hd
      rw [hdrops _ hd] at hknown
      cases hknown
  · rw [h.edges (p := path) (by simpa [Group.batch] using he)]
    exact hfresh

end Table

namespace Batch

variable {a b c : Batch}

theorem Spares.append (ha : c.Spares a) (hb : c.Spares b) : c.Spares (a ++ b) :=
  ⟨fun n hn => (List.mem_append.1 hn).elim (ha.nodes n) (hb.nodes n),
    fun e he => (List.mem_append.1 he).elim (ha.edges e) (hb.edges e)⟩

theorem Spares.mono (h : c.Spares a) (hretract : b.retract ⊆ c.retract)
    (hdrops : b.dropNodes ⊆ c.dropNodes) : b.Spares a :=
  ⟨fun n hn => (h.nodes n hn).imp (mt (@hretract _)) (mt (@hdrops _)),
    fun e he => mt (@hretract _) (h.edges e he)⟩

theorem append_assoc (a b c : Batch) : a ++ b ++ c = a ++ (b ++ c) :=
  show Batch.mk .. = Batch.mk .. by simp

end Batch

theorem Group.batch_cons (t : Table) (path : String) (rest : List String) (drops : List SymbolId) :
    Group.batch t { files := path :: rest, drops } =
      Group.batch t { files := [path] } ++ Group.batch t { files := rest, drops } :=
  show Batch.mk .. = Batch.mk .. by simp [Group.batch]

namespace Packing

variable {t : Table} {drops : List SymbolId}

theorem addFile_eq (t : Table) (limit : Nat) (p : Packing) (path : String) :
    p.addFile t limit path =
      if limit ≤ (p.current ++ Group.batch t { files := [path] }).size then
        { full := p.full ++ [p.current ++ Group.batch t { files := [path] }] }
      else { p with current := p.current ++ Group.batch t { files := [path] } } := by
  have hcurrent : { p.current with
      retract := p.current.retract ++ [path]
      nodes := p.current.nodes ++ (t.fileRows path).1
      edges := p.current.edges ++ (t.fileRows path).2 } =
        p.current ++ Group.batch t { files := [path] } :=
    show Batch.mk .. = Batch.mk .. by simp [Group.batch]
  unfold addFile
  simp only [hcurrent]

/-- However files are packed, the batches do what the full ones and a single one for all the rest
do. -/
theorem rows_foldl_addFile (h : t.OwnRows)
    (hdrops : ∀ id ∈ drops, SymbolLookup.findId? t id = none) (limit : Nat) (s : MemoryStore)
    (files : List String) (hnodup : files.Nodup) (hpaths : "" ∉ files) (p : Packing)
    (hcurrent : p.current.dropNodes = [])
    (hspares : (Group.batch t { files, drops }).Spares p.current) :
    ((p.full ++ [p.current ++ Group.batch t { files, drops }]).foldl .apply s).SameRows
      (((files.foldl (addFile t limit) p).finish drops).foldl .apply s) := by
  induction files generalizing p with
  | nil =>
    have hlast : p.current ++ Group.batch t { files := [], drops } =
        { p.current with dropNodes := drops } :=
      show Batch.mk .. = Batch.mk .. by simp [Group.batch, hcurrent]
    rw [hlast, List.foldl_nil, finish]
    dsimp only
    split
    · next hempty =>
      rw [Batch.eq_empty_of_isEmpty hempty, List.foldl_append]
      rfl
    · rfl
  | cons path rest ih =>
    obtain ⟨hfresh, hrest⟩ := List.nodup_cons.1 hnodup
    have hpaths' : "" ∉ rest := fun hmem => hpaths (List.mem_cons_of_mem _ hmem)
    set b := p.current ++ Group.batch t { files := [path] } with hb
    set last := Group.batch t { files := rest, drops } with hlast
    have hwhole : p.current ++ Group.batch t { files := path :: rest, drops } = b ++ last := by
      rw [hb, Batch.append_assoc, Group.batch_cons]
    have hdrop : b.dropNodes = [] := by simp [hb, hcurrent, Group.batch]
    have hbefore : last.Spares p.current :=
      hspares.mono (List.subset_cons_self ..) (List.Subset.refl _)
    have hspares' : last.Spares b := hbefore.append (h.spares hdrops hfresh hpaths')
    rw [List.foldl_cons, addFile_eq, hwhole]
    split
    · -- the batch is full, and the rest starts with an empty one
      refine .trans ?_ (ih hrest hpaths' { full := p.full ++ [b] } rfl ⟨by simp, by simp⟩)
      have hempty : ({} : Batch) ++ last = last := rfl
      simp only [List.foldl_append, List.foldl_cons, List.foldl_nil, hempty]
      exact MemoryStore.apply_append hspares' _
    · exact ih hrest hpaths' { p with current := b } hdrop hspares'

end Packing

/-- The batches of a run do what one batch with everything does. -/
theorem Table.OwnRows.rows_batches {t : Table} (h : t.OwnRows) {drops : List SymbolId}
    (hdrops : ∀ id ∈ drops, SymbolLookup.findId? t id = none) {finished : List String}
    (hnodup : finished.Nodup) (hpaths : "" ∉ finished) (limit : Nat) (removed : List String)
    (s : MemoryStore) : (s.apply (Group.batch t { removed, files := finished, drops })).SameRows
      ((t.batches limit removed finished drops).foldl .apply s) :=
  Packing.rows_foldl_addFile h hdrops limit s finished hnodup hpaths
    { current := { retract := removed } } rfl ⟨by simp, by simp⟩

/-! ## Delivery -/

/-- A run finishes no file with an empty path. -/
theorem Controller.Ran.nonempty_finished {σ : Type} [Sink σ] {names : Set String} {k : Conditions}
    {changes : List FileChange} {full : Bool} {c c' : Controller σ} {finished : List String}
    {r : Run σ} {report : RunReport} (hran : Ran names k changes full c finished r report c') :
    "" ∉ finished := by
  intro hmem
  obtain ⟨f, hf⟩ := Option.isSome_iff_exists.1
    (sketches_of_worked hran.worked "" hmem (by decide))
  rw [Run.get?_sketches] at hf
  obtain ⟨x, hx, hsk⟩ := Option.bind_eq_some_iff.1 hf
  exact ((hran.orderly.record hx).sketches hsk).2 rfl

/-- A record without its time of resolution. -/
def FileRecord.untimed (x : FileRecord) : FileRecord := { x with resolvedAt := none }

@[simp] theorem FileRecord.untimed_stored (now now' : Timestamp) (x : FileRecord) :
    (x.stored now).untimed = (x.stored now').untimed := by
  unfold FileRecord.stored
  split <;> rfl

namespace Run

variable {σ : Type}

/-- The run under another size of batches. -/
def withBatchSize (n : Nat) (r : Run σ) : Run σ :=
  { r with settings := { r.settings with
    pipeline := { r.settings.pipeline with batchSize := n } } }

variable {r : Run MemoryStore} {finished : List String}

/-- The nodes that are gone from the table, and that the store is to drop. -/
def gone (r : Run σ) : List SymbolId :=
  r.droppedIds.keys.filter fun id => (SymbolLookup.findId? r.table id).isNone

/-- What a delivery that the store takes as a whole leaves in it, and the records. -/
theorem flush_taken (hrows : r.table.OwnRows) (hnodup : finished.Nodup) (hpaths : "" ∉ finished)
    {now : Timestamp}
    (htaken : (r.flush now finished).2.report.sinkFailures = r.report.sinkFailures) :
    (r.sink.apply (Group.batch r.table
      { removed := r.removed, files := finished, drops := r.gone })).SameRows
        (r.flush now finished).2.sink ∧
      ∀ p, (r.flush now finished).2.records.get? p = if p ∈ r.removed ∨ p ∈ finished then
        (r.records.get? p).map (FileRecord.stored now) else r.records.get? p := by
  set limit := max r.settings.pipeline.batchSize 1 with hlimit
  obtain ⟨gs, hbs, -⟩ := r.table.batches_eq limit r.removed finished r.gone
  obtain ⟨taken, refused, hsub, hlen, -, hout⟩ := foldl_flushBatch_outcome now r.table gs (∅, r)
  have hflush : (gs.map (Group.batch r.table)).foldl (flushBatch now) (∅, r) =
      r.flush now finished := by
    rw [← hbs]
    rfl
  rw [hflush] at hout
  have hnone : refused.length = 0 := by
    have := hout.failures.symm.trans htaken
    simpa using this
  obtain rfl : taken = gs := hsub.eq_of_length (by omega)
  have hdrops : ∀ id ∈ r.gone, SymbolLookup.findId? r.table id = none := by
    intro id hid
    simpa using (List.mem_filter.1 hid).2
  constructor
  · refine (hrows.rows_batches hdrops hnodup hpaths limit r.removed r.sink).trans ?_
    have hheld := hout.rows (MemoryStore.hasRows_iff.2 (.refl r.sink))
    rw [hbs, List.foldl_map]
    exact hheld
  · intro p
    have hretract := mem_retract_batches r.table limit r.removed finished r.gone p
    rw [hbs, List.flatMap_map, List.mem_flatMap] at hretract
    rw [hout.records]
    simp only [hretract]

/-- The size of batches changes neither the rows of a store nor the records, apart from the times.
The table is any that operations lead to, the store may hold anything before, and it takes every
batch in the end; a run finishes no file with an empty path (`Controller.Ran.nonempty_finished`). -/
theorem flush_withBatchSize {names : Set String} (hinj : Set.InjOn SymbolId.ofFqn names)
    {ops : List Table.Operation} (hops : ∀ op ∈ ops, op.UsesNames names)
    (htable : r.table = .after ops) (hnodup : finished.Nodup) (hpaths : "" ∉ finished)
    (n n' : Nat) (now now' : Timestamp)
    (htaken : ((r.withBatchSize n).flush now finished).2.report.sinkFailures =
      r.report.sinkFailures)
    (htaken' : ((r.withBatchSize n').flush now' finished).2.report.sinkFailures =
      r.report.sinkFailures) : ((r.withBatchSize n).flush now finished).2.sink.nodes =
        ((r.withBatchSize n').flush now' finished).2.sink.nodes ∧
      ((r.withBatchSize n).flush now finished).2.sink.edges =
        ((r.withBatchSize n').flush now' finished).2.sink.edges ∧
      ∀ p, (((r.withBatchSize n).flush now finished).2.records.get? p).map FileRecord.untimed =
        (((r.withBatchSize n').flush now' finished).2.records.get? p).map FileRecord.untimed := by
  have hrows : r.table.OwnRows := htable ▸ Table.ownRows_after hinj hops
  obtain ⟨hsame, hget⟩ := flush_taken (r := r.withBatchSize n) hrows hnodup hpaths htaken
  obtain ⟨hsame', hget'⟩ := flush_taken (r := r.withBatchSize n') hrows hnodup hpaths htaken'
  refine ⟨hsame.nodes.trans hsame'.nodes.symm, hsame.edges.trans hsame'.edges.symm, fun p => ?_⟩
  rw [hget, hget']
  change (if p ∈ r.removed ∨ p ∈ finished then (r.records.get? p).map _ else r.records.get? p).map _
    = (if p ∈ r.removed ∨ p ∈ finished then (r.records.get? p).map _ else r.records.get? p).map _
  split
  · rw [Option.map_map, Option.map_map]
    exact congrArg (Option.map · _) (funext fun x => x.untimed_stored now now')
  · rfl

/-- An edge of a file: a class of the shop extends one that no file defines. -/
def extendsBase (file : String) : Edge :=
  .ofScore .extendsType (.ofFqn "shop.Cart") (.ofFqn "lib.Base") Confidence.exact file 1

/-- A file defines the class, and two files have the edge. -/
def movedCart : List Table.Operation :=
  [.commit "a.go" [Table.shopClass "Cart" "a.go"], .external "lib.Base",
    .replace "a.go" [extendsBase "a.go"], .replace "b.go" [extendsBase "b.go"]]

/-- The class was in another file, which the run removes; the store knows it from there. -/
def movingRun : Run MemoryStore where
  root := ""
  settings := {}
  sink := MemoryStore.putNode {} (Table.shopClass "Cart" "old.go")
  table := .after movedCart
  removed := ["old.go"]
  droppedIds := .ofList [.ofFqn "shop.Cart"]

theorem flush_withBatchSize_moving :
    ((movingRun.withBatchSize 1).flush {} ["a.go", "b.go"]).2.sink.batches = 2 ∧
      ((movingRun.withBatchSize 100).flush {} ["a.go", "b.go"]).2.sink.batches = 1 ∧
      ((movingRun.withBatchSize 1).flush {} ["a.go", "b.go"]).2.sink.nodes =
        ((movingRun.withBatchSize 100).flush {} ["a.go", "b.go"]).2.sink.nodes := by
  have hcomputed : SymbolId.ofFqn "shop.Cart" ≠ .ofFqn "lib.Base" ∧
      ((movingRun.withBatchSize 1).flush {} ["a.go", "b.go"]).2.sink.batches = 2 ∧
      ((movingRun.withBatchSize 100).flush {} ["a.go", "b.go"]).2.sink.batches = 1 := by
    decide +kernel
  obtain ⟨hne, hone, hhundred⟩ := hcomputed
  have hinj : Set.InjOn SymbolId.ofFqn {"shop.Cart", "lib.Base"} := by
    intro a ha b hb hid
    simp only [Set.mem_insert_iff, Set.mem_singleton_iff] at ha hb
    rcases ha with rfl | rfl <;> rcases hb with rfl | rfl <;> simp_all
  have huses : ∀ op ∈ movedCart, op.UsesNames {"shop.Cart", "lib.Base"} := by
    simp [movedCart, Table.Operation.UsesNames, Table.UsesNames, Table.shopClass, Symbol.ofName]
  -- the store refuses nothing
  have hnodes := (flush_withBatchSize hinj huses rfl (r := movingRun) (by decide) (by decide) 1 100
    {} {} (flush_sinkFailures rfl {} ["a.go", "b.go"]) (flush_sinkFailures rfl {} _)).1
  exact ⟨hone, hhundred, hnodes⟩

end Run

end CodeAtlas
