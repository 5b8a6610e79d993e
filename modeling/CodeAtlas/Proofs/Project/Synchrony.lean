import Mathlib
import CodeAtlas.Proofs.Resolve.Sources
import CodeAtlas.Proofs.Project.Histories

/-!
# Resolved files are in the store

A file whose record says resolved is in the store as it is in the table: with its edges in order,
and with its symbols. Between two runs the table does not change, and in a run a file keeps its
record only if it keeps its edges and gets no symbols. So only the batches have to be looked at: a
batch that is taken brings the rows of its files, and leaves those of the others alone.

Main results:

* `Table.ShownIn.apply`: what one batch does.
* `Run.deliver_delivered`: what a delivery comes to, whichever batches are refused.
* `Controller.resolved_in_store_of_reaches`: resolved files are in the store in every state.
-/

namespace CodeAtlas

open SortedMap

variable {σ : Type} {names : Set String}

/-! ## The rows of a file -/

/-- A store has the edges of a file in order, and its symbols. -/
structure Table.ShownIn (m : MemoryStore) (t : Table) (file : String) : Prop where
  edges : m.edgesOf file = t.edgesOf file
  nodes : ∀ s ∈ t.symbolsInFile file, m.nodes.get? s.id = some s

namespace Table

variable {t t' : Table} {m m' : MemoryStore} {file : String} {g : Group}

theorem ShownIn.of_same (h : t.ShownIn m file) (ht : SameGraph t t') (hm : m.SameRows m') :
    t'.ShownIn m' file := by
  refine ⟨?_, fun s hs => ?_⟩
  · rw [hm.edgesOf, ht.edges.edgesOf, h.edges]
  · rw [ht.symbols.symbolsInFile] at hs
    rw [hm.nodes, h.nodes s hs]

theorem mem_symbolsInFile {s : Symbol} (hs : s ∈ t.symbolsInFile file) :
    s.file = file ∧ ∃ fqn ∈ (t.files.getD file {}).fqns, t.symbols.get? fqn = some s := by
  unfold symbolsInFile symbolsNamed at hs
  rw [List.mem_mergeSort, List.mem_filter, List.mem_filterMap] at hs
  exact ⟨by simpa using hs.2, hs.1⟩

theorem Sound.get?_of_mem_symbolsInFile (h : Sound names t) {s : Symbol}
    (hs : s ∈ t.symbolsInFile file) : t.symbols.get? s.fqn = some s := by
  obtain ⟨-, fqn, -, hget⟩ := mem_symbolsInFile hs
  rwa [(h.symbol hget).1]

/-- The nodes of a batch are symbols of the table. -/
theorem Sound.get?_of_mem_nodes (h : Sound names t) {n : Symbol} (hn : n ∈ (g.batch t).nodes) :
    t.symbols.get? n.fqn = some n := by
  obtain ⟨p, -, hn⟩ := List.mem_flatMap.1 hn
  rcases List.mem_append.1 hn with hn | hn
  · exact h.get?_of_mem_symbolsInFile hn
  · obtain ⟨id, -, hid⟩ := List.mem_filterMap.1 hn
    exact (h.findId?_eq_some.1 (Option.filter_eq_some_iff.1 hid).1).1

/-- A batch writes a symbol of the table at most as it is. -/
theorem Sound.find?_nodes (h : Sound names t) {s : Symbol} (hs : t.symbols.get? s.fqn = some s) :
    (g.batch t).nodes.reverse.find? (fun n => n.id == s.id) = none ∨
      (g.batch t).nodes.reverse.find? (fun n => n.id == s.id) = some s := by
  cases hf : (g.batch t).nodes.reverse.find? fun n => n.id == s.id with
  | none => exact .inl rfl
  | some n =>
    have hn := h.get?_of_mem_nodes (List.mem_reverse.1 (List.mem_of_find?_eq_some hf))
    have hid : n.id = s.id := by simpa using List.find?_some hf
    have hn' := h.findId?_eq_some.2 ⟨hn, hid⟩
    rw [h.findId?_eq_some.2 ⟨hs, rfl⟩] at hn'
    exact .inr hn'.symm

/-- The edges that a batch writes for an owner. -/
theorem edges_batch (howned : ∀ {o e}, e ∈ t.edgesOf o → e.owner = o)
    (hcount : g.files.count file ≤ 1) : (g.batch t).edges.filter (fun e => e.owner == file) =
      if file ∈ g.files then t.edgesOf file else [] := by
  have hrows : ∀ p, (t.edgesOf p).filter (fun e => e.owner == file) =
      if p = file then t.edgesOf file else [] := by
    intro p
    split
    · next hp =>
      rw [hp, List.filter_eq_self]
      exact fun e he => beq_iff_eq.2 (howned he)
    · next hp =>
      rw [List.filter_eq_nil_iff]
      exact fun e he heq => hp ((howned he).symm.trans (beq_iff_eq.1 heq))
  change (g.files.flatMap fun p => t.edgesOf p).filter _ = _
  rw [List.filter_flatMap]
  simp only [hrows]
  generalize g.files = l at hcount ⊢
  induction l with
  | nil => rfl
  | cons p rest ih =>
    rw [List.flatMap_cons]
    by_cases hp : p = file
    · subst hp
      rw [List.count_cons_self] at hcount
      have hnot : p ∉ rest := List.count_eq_zero.1 (by omega)
      rw [ih (by omega)]
      simp [hnot]
    · rw [List.count_cons_of_ne hp] at hcount
      rw [ih hcount]
      simp [hp, Ne.symm hp]

/-- A batch brings the rows of its files, and leaves those of the others alone. -/
theorem ShownIn.apply (hsound : Sound names t) (howned : ∀ {o e}, e ∈ t.edgesOf o → e.owner = o)
    (hdrops : ∀ id ∈ g.drops, SymbolLookup.findId? t id = none)
    (hcount : g.files.count file ≤ 1) (hrem : file ∉ g.removed)
    (h : file ∈ g.files ∨ t.ShownIn m file) : t.ShownIn (m.apply (g.batch t)) file := by
  have hretract : file ∈ (g.batch t).retract ↔ file ∈ g.files := by
    simp [Group.batch, hrem]
  refine ⟨?_, fun s hs => ?_⟩
  · rw [MemoryStore.edgesOf_apply, edges_batch howned hcount]
    by_cases hf : file ∈ g.files
    · simp [hretract, hf]
    · simp [hretract, hf, (h.resolve_left hf).edges]
  · have hget := hsound.get?_of_mem_symbolsInFile hs
    rw [MemoryStore.get?_nodes_apply]
    rcases hsound.find?_nodes (g := g) hget with hnone | hsome
    · rw [hnone, Option.none_or]
      have hf : file ∉ g.files := by
        intro hf
        have hmem : s ∈ (g.batch t).nodes :=
          List.mem_flatMap.2 ⟨file, hf, List.mem_append_left _ hs⟩
        have := List.find?_eq_none.1 hnone s (List.mem_reverse.2 hmem)
        simp at this
      have hknown : s.id ∉ (g.batch t).dropNodes := by
        intro hd
        have hunknown := hdrops _ hd
        rw [hsound.findId?_eq_some.2 ⟨hget, rfl⟩] at hunknown
        cases hunknown
      rw [if_neg hknown, (h.resolve_left hf).nodes s hs]
      have hsf : s.file ∉ (g.batch t).retract := by
        rw [(mem_symbolsInFile hs).1, hretract]
        exact hf
      simp [Option.filter, hsf]
    · rw [hsome]
      rfl

/-! ## Batches that are taken -/

/-- The rows after batches for groups of files. -/
def rowsAfter (t : Table) (gs : List Group) (m : MemoryStore) : MemoryStore :=
  gs.foldl (fun m g => m.apply (g.batch t)) m

variable {gs : List Group}

theorem ShownIn.rowsAfter (hsound : Sound names t) (howned : ∀ {o e}, e ∈ t.edgesOf o → e.owner = o)
    (hdrops : ∀ g ∈ gs, ∀ id ∈ g.drops, SymbolLookup.findId? t id = none)
    (hcount : (gs.flatMap (·.files)).count file ≤ 1) (hrem : file ∉ gs.flatMap (·.removed))
    (h : file ∈ gs.flatMap (·.files) ∨ t.ShownIn m file) : t.ShownIn (t.rowsAfter gs m) file := by
  induction gs generalizing m with
  | nil => exact h.resolve_left (by simp)
  | cons g rest ih =>
    rw [List.flatMap_cons, List.count_append] at hcount
    rw [List.flatMap_cons, List.mem_append, not_or] at hrem
    rw [List.flatMap_cons, List.mem_append, or_assoc] at h
    refine ih (fun g' hg' => hdrops g' (List.mem_cons_of_mem _ hg')) (by omega) hrem.2 ?_
    rcases or_left_comm.1 h with h | h
    · exact .inl h
    · exact .inr (.apply hsound howned (hdrops g (List.mem_cons_self ..)) (by omega) hrem.1 h)

/-- The edges of an owner that is in no batch as a finished file. -/
theorem edgesOf_rowsAfter (howned : ∀ {o e}, e ∈ t.edgesOf o → e.owner = o)
    (hfile : file ∉ gs.flatMap (·.files)) : (t.rowsAfter gs m).edgesOf file =
      if file ∈ gs.flatMap (·.removed) then [] else m.edgesOf file := by
  induction gs generalizing m with
  | nil => rfl
  | cons g rest ih =>
    rw [List.flatMap_cons, List.mem_append, not_or] at hfile
    have hone : (m.apply (g.batch t)).edgesOf file =
        if file ∈ g.removed then [] else m.edgesOf file := by
      rw [MemoryStore.edgesOf_apply, edges_batch howned (by simp [List.count_eq_zero.2 hfile.1])]
      simp [Group.batch, hfile.1]
    change (t.rowsAfter rest (m.apply (g.batch t))).edgesOf file = _
    rw [ih hfile.2, hone]
    by_cases hg : file ∈ g.removed <;> simp [hg]

/-- A node after the batches was written by one of them, or none of them dropped it. -/
theorem of_get?_nodes_rowsAfter {id : SymbolId} {n : Symbol}
    (h : (t.rowsAfter gs m).nodes.get? id = some n) :
    (∃ g ∈ gs, n ∈ (g.batch t).nodes ∧ n.id = id) ∨
      m.nodes.get? id = some n ∧ ∀ g ∈ gs, n.file ∉ (g.batch t).retract ∧ id ∉ g.drops := by
  induction gs generalizing m with
  | nil => exact .inr ⟨h, by simp⟩
  | cons g rest ih =>
    rcases ih (m := m.apply (g.batch t)) h with ⟨g', hg', hn⟩ | ⟨hn, hrest⟩
    · exact .inl ⟨g', List.mem_cons_of_mem _ hg', hn⟩
    · rw [MemoryStore.get?_nodes_apply] at hn
      rcases Option.or_eq_some_iff.1 hn with hn | ⟨-, hn⟩
      · refine .inl ⟨g, List.mem_cons_self .., ?_, by simpa using List.find?_some hn⟩
        exact List.mem_reverse.1 (List.mem_of_find?_eq_some hn)
      · split at hn
        · cases hn
        · next hd =>
          obtain ⟨hn, hfile⟩ := Option.filter_eq_some_iff.1 hn
          refine .inr ⟨hn, List.forall_mem_cons.2 ⟨⟨by simpa using hfile, hd⟩, hrest⟩⟩

end Table

/-! ## Delivery -/

section

variable [Sink σ] [Mirror σ] {c : Controller σ}

/-- What offering batches came to: some groups were taken, in order, and the others refused. -/
structure Run.Outcome (now : Timestamp) (t : Table) (taken refused : List Group)
    (acc acc' : StringSet × Run σ) : Prop where
  rows : ∀ {m}, HasRows acc.2.sink m → HasRows acc'.2.sink (t.rowsAfter taken m)
  records : ∀ p, acc'.2.records.get? p =
    if ∃ g ∈ taken, p ∈ (g.batch t).retract then (acc.2.records.get? p).map (FileRecord.stored now)
    else acc.2.records.get? p
  unretracted : ∀ p, acc'.1.contains p = true ↔ acc.1.contains p = true ∨
    p ∈ acc.2.removed ∧ ∃ g ∈ refused, p ∈ (g.batch t).retract
  failures : acc'.2.report.sinkFailures = acc.2.report.sinkFailures + refused.length

/-- What a delivery came to: some groups of files were taken, in order, and the others refused. -/
structure Run.Delivered (now : Timestamp) (finished : List String) (taken refused : List Group)
    (r : Run σ) (report : RunReport) (c : Controller σ) : Prop where
  /-- If no batch is refused, all are taken. -/
  whole : refused = [] → r.table.batches (max r.settings.pipeline.batchSize 1) r.removed finished
    (r.droppedIds.keys.filter fun id => (SymbolLookup.findId? r.table id).isNone) =
      taken.map (Group.batch r.table)
  sublist : (taken.flatMap (·.files)).Sublist finished
  files : ∀ p, p ∈ finished ↔ p ∈ taken.flatMap (·.files) ∨ p ∈ refused.flatMap (·.files)
  removed : ∀ p, p ∈ r.removed ↔ p ∈ taken.flatMap (·.removed) ∨ p ∈ refused.flatMap (·.removed)
  drops : ∀ id, (id ∈ taken.flatMap (·.drops) ∨ id ∈ refused.flatMap (·.drops)) ↔
    r.droppedIds.contains id = true ∧ SymbolLookup.findId? r.table id = none
  rows : ∀ {m}, HasRows r.sink m → HasRows c.sink (r.table.rowsAfter taken m)
  records : ∀ p, c.records.get? p =
    if p ∈ refused.flatMap (·.removed) then some (.tombstone p)
    else if p ∈ taken.flatMap (·.files) then (r.records.get? p).map (FileRecord.stored now)
    else r.records.get? p
  failures : report.sinkFailures = r.report.sinkFailures + refused.length

/-- The resolved files of a project are in a store as they are in a table. -/
def Controller.Shows (m : MemoryStore) (t : Table) (c : Controller σ) : Prop :=
  ∀ p x, p ≠ settingsFile → c.records.get? p = some x → x.state = .resolved → t.ShownIn m p

namespace Run

variable {t : Table} {r : Run σ} {finished : List String}

theorem foldl_flushBatch_outcome (now : Timestamp) (t : Table) (gs : List Group)
    (acc : StringSet × Run σ) : ∃ taken refused, taken.Sublist gs ∧
      taken.length + refused.length = gs.length ∧ (∀ g, g ∈ gs ↔ g ∈ taken ∨ g ∈ refused) ∧
      Outcome now t taken refused acc ((gs.map (Group.batch t)).foldl (flushBatch now) acc) := by
  induction gs generalizing acc with
  | nil => exact ⟨[], [], .slnil, rfl, by simp, id, by simp, by simp, rfl⟩
  | cons g rest ih =>
    obtain ⟨taken, refused, hsub, hlen, hmem, hout⟩ := ih (flushBatch now acc (g.batch t))
    rcases flushBatch_cases now acc (g.batch t) with
      ⟨n, sink, records, hw, heq, hget⟩ | ⟨e, sink, t', hw, -, heq⟩
    · rw [heq] at hout
      refine ⟨g :: taken, refused, hsub.cons_cons g, ?_, fun g' => ?_, ?_⟩
      · rw [List.length_cons, List.length_cons]
        omega
      · rw [List.mem_cons, List.mem_cons, hmem, or_assoc]
      · rw [List.map_cons, List.foldl_cons, heq]
        refine ⟨fun hm => hout.rows (Mirror.rows_writeRetrying hw hm), fun p => ?_,
          hout.unretracted, hout.failures⟩
        rw [hout.records]
        change (if _ then (records.get? p).map _ else records.get? p) = _
        rw [hget]
        by_cases h₁ : p ∈ (g.batch t).retract <;>
          by_cases h₂ : ∃ g ∈ taken, p ∈ (g.batch t).retract <;>
          simp [h₁, h₂, Function.comp_def]
    · rw [heq] at hout
      refine ⟨taken, g :: refused, hsub.cons g, ?_, fun g' => ?_, ?_⟩
      · rw [List.length_cons, List.length_cons]
        omega
      · rw [List.mem_cons, List.mem_cons, hmem, or_left_comm]
      · rw [List.map_cons, List.foldl_cons, heq]
        refine ⟨fun hm => hout.rows (Mirror.rows_writeRetrying hw hm), hout.records, fun p => ?_,
          ?_⟩
        · rw [hout.unretracted, StringSet.contains_addAll, List.exists_mem_cons_iff]
          simp only [List.mem_filter, List.contains_iff_mem]
          tauto
        · rw [hout.failures, List.length_cons]
          exact Nat.succ_add_eq_add_succ ..

theorem mem_flatMap_of_split {α : Type} {gs taken refused : List Group}
    (h : ∀ g, g ∈ gs ↔ g ∈ taken ∨ g ∈ refused) (f : Group → List α) (a : α) :
    a ∈ gs.flatMap f ↔ a ∈ taken.flatMap f ∨ a ∈ refused.flatMap f := by
  simp only [List.mem_flatMap, h, or_and_right, exists_or]

theorem deliver_delivered (hf : r.Forgets) (hfin : ∀ p ∈ finished, p ∉ r.removed)
    (now : Timestamp) : ∃ taken refused, Delivered now finished taken refused r
      (r.deliver now finished).1 (r.deliver now finished).2 := by
  obtain ⟨gs, hbs, hrem, hfiles, hdrops⟩ := r.table.batches_eq
    (max r.settings.pipeline.batchSize 1) r.removed finished
    (r.droppedIds.keys.filter fun id => (SymbolLookup.findId? r.table id).isNone)
  obtain ⟨taken, refused, hsub, hlen, hsplit, hout⟩ :=
    foldl_flushBatch_outcome now r.table gs (∅, r)
  have hflush : r.flush now finished = (gs.map (Group.batch r.table)).foldl (flushBatch now) (∅, r) := by
    unfold flush
    dsimp only
    rw [hbs]
  rw [← hflush] at hout
  have hconc := deliver_concludes now finished r
  have hfiles' := mem_flatMap_of_split hsplit (·.files)
  have hrem' := mem_flatMap_of_split hsplit (·.removed)
  rw [hfiles] at hfiles'
  rw [hrem] at hrem'
  obtain ⟨records, removed, hsink, -⟩ := hconc.sink
  refine ⟨taken, refused, fun hnone => ?_, ?_, hfiles', hrem', fun id => ?_, fun hm => ?_,
    fun p => ?_, ?_⟩
  · rw [hnone, List.length_nil, add_zero] at hlen
    rw [hbs, hsub.eq_of_length hlen]
  · rw [← hfiles]
    exact hsub.flatMap _
  · rw [← mem_flatMap_of_split hsplit (·.drops), hdrops]
    simp [mem_keys]
  · rw [hsink]
    exact Mirror.rows_save _ _ (hout.rows hm)
  · have hretract : ∀ gs : List Group, (∃ g ∈ gs, p ∈ (g.batch r.table).retract) ↔
        p ∈ gs.flatMap (·.removed) ∨ p ∈ gs.flatMap (·.files) := by
      intro gs
      simp only [Group.batch, List.mem_append, List.mem_flatMap, and_or_left, exists_or]
    have hburied : p ∈ (r.flush now finished).2.removed ∧
        (r.flush now finished).1.contains p = true ↔ p ∈ refused.flatMap (·.removed) := by
      rw [(flush_flushes now finished r).removed, hout.unretracted, hretract]
      simp only [contains_emptyCollection, Bool.false_eq_true, false_or]
      constructor
      · rintro ⟨-, hmem, hr | hr⟩
        · exact hr
        · exact absurd hmem (hfin p ((hfiles' p).2 (.inr hr)))
      · intro hr
        have hmem := (hrem' p).2 (.inr hr)
        exact ⟨hmem, hmem, .inl hr⟩
    rw [hconc.records, hout.records]
    simp only [hburied, hretract]
    -- a removed file has no record that could be marked
    by_cases hr : p ∈ taken.flatMap (·.removed)
    · simp [hr, (hf p ((hrem' p).2 (.inl hr))).2]
    · simp [hr]
  · rw [hconc.sinkFailures]
    exact hout.failures

/-- Nothing is refused if the report says so. -/
theorem Delivered.refused_eq_nil {now : Timestamp} {taken refused : List Group}
    {report : RunReport} (h : Delivered now finished taken refused r report c)
    (hok : report.sinkFailures = 0) : refused = [] := by
  have := h.failures
  exact List.eq_nil_of_length_eq_zero (by omega)

/-- A delivery keeps the resolved files in the store, whichever batches are refused. -/
theorem Delivered.shows {now : Timestamp} {taken refused : List Group} {report : RunReport}
    (h : Delivered now finished taken refused r report c) (hc : r.Coherent names) (hf : r.Forgets)
    (hfin : ∀ p, p ≠ settingsFile → finished.count p ≤ 1) {m : MemoryStore}
    (hsh : r.Shows m r.table) : c.Shows (r.table.rowsAfter taken m) r.table := by
  intro p x hp hx hr
  rw [h.records] at hx
  split at hx
  · cases hx
    cases hr
  · have hrem : p ∉ taken.flatMap (·.removed) := by
      intro hmem
      rw [(hf p ((h.removed p).2 (.inl hmem))).2] at hx
      split at hx <;> cases hx
    have hdrops : ∀ g ∈ taken, ∀ id ∈ g.drops, SymbolLookup.findId? r.table id = none :=
      fun g hg id hid => ((h.drops id).1 (.inl (List.mem_flatMap.2 ⟨g, hg, hid⟩))).2
    refine Table.ShownIn.rowsAfter hc.sound hc.owned hdrops
      ((h.sublist.count_le p).trans (hfin p hp)) hrem ?_
    by_cases hmem : p ∈ taken.flatMap (·.files)
    · exact .inl hmem
    · rw [if_neg hmem] at hx
      exact .inr (hsh p x hp hx hr)

end Run

/-! ## Histories -/

namespace Controller

/-- Unless the settings declare an edge, no source is offered in their place. -/
def Unclaimed : RunKind σ := fun _ changes _ c _ =>
  ¬c.Declares → ∀ s, .modified s ∈ changes → s.path ≠ settingsFile

omit [Sink σ] [Mirror σ] in
/-- Until the first pass nothing happens to the node of the settings. -/
theorem begun_entry (hc : c.Orderly names) (k : Conditions) (changes : List FileChange)
    (full : Bool) : (c.begun k changes full).1.table.files.get? settingsFile =
      c.table.files.get? settingsFile := by
  refine Run.takeChanges_keeps (J := fun c' =>
    c'.table.files.get? settingsFile = c.table.files.get? settingsFile)
    (Run.checkSettings_orderly (Run.start_orderly hc full) k.now) changes ?_
    fun r r' path hc h hr => ?_
  · rw [Run.checkSettings_table]
    rfl
  · rw [hr.table, (Table.removeFile_update hc.table hc.counted path).1.files _ (Ne.symm hr.path_ne),
      h]

omit [Sink σ] [Mirror σ] in
theorem begun_ownsNode (hc : c.Orderly names) (h : c.OwnsNode) (k : Conditions)
    (changes : List FileChange) (full : Bool) : (c.begun k changes full).1.OwnsNode := by
  have hsetup := begun_setup hc k changes full
  intro hfile
  rw [Table.containsFile, contains, begun_entry hc] at hfile
  rw [Declares, hsetup.plugins, hsetup.settings]
  exact h hfile

omit [Sink σ] [Mirror σ] in
/-- A finished file other than the settings is finished once. -/
theorem count_finished_le {due : List SourceFile} {r r' : Run σ} {finished : List String}
    (h : Run.Worked names due r finished r') {p : String} (hp : p ≠ settingsFile) :
    finished.count p ≤ 1 := by
  obtain ⟨files, hfiles, hnodup, -⟩ := h.files
  have hcount := List.nodup_iff_count_le_one.1 hnodup p
  rcases hfiles with rfl | rfl
  · exact hcount
  · rwa [List.count_append, List.count_cons_of_ne (Ne.symm hp), List.count_nil, add_zero]

/-- What holds between runs of a project and of the rows that its store holds. -/
structure Mirrored (m : MemoryStore) (c : Controller σ) : Prop where
  rows : HasRows c.sink m
  shows : c.Shows m c.table
  ownsNode : c.OwnsNode

variable {m : MemoryStore} {taken refused : List Group} {c c' c₀ : Controller σ}
  {k : Conditions} {changes : List FileChange} {full : Bool} {finished : List String}
  {r : Run σ} {report : RunReport}

theorem Ran.delivered_groups (hran : Ran names k changes full c finished r report c') :
    ∃ taken refused, Run.Delivered k.now finished taken refused r report c' := by
  have hfin : ∀ p ∈ finished, p ∉ r.removed := by
    intro p hp hmem
    obtain ⟨hne, hnone⟩ := hran.forgets p hmem
    have hsk := sketches_of_worked hran.worked p hp hne
    rw [Run.get?_sketches, hnone] at hsk
    cases hsk
  obtain ⟨taken, refused, hdel⟩ := Run.deliver_delivered hran.forgets hfin k.now
  rw [hran.delivered] at hdel
  exact ⟨taken, refused, hdel⟩

omit [Mirror σ] in
/-- What a run carries over before it reaches the store. -/
theorem Ran.carries (hc : c.Orderly names) (hw : c.Within names k changes full)
    (hsteady : Plugin.Steady c.plugins c.settings.enrichment)
    (hun : Unclaimed k changes full c report) (hown : c.OwnsNode)
    (hran : Ran names k changes full c finished r report c') :
    Run.Carries (fun p => ∃ s ∈ (c.begun k changes full).2, s.path = p) (Run.start c full) r ∧
      r.OwnsNode := by
  have hsetup := begun_setup hc k changes full
  obtain ⟨-, hcarb⟩ := begun_orderly_carries
    (fun p => ∃ s ∈ (c.begun k changes full).2, s.path = p) hc k changes full
  obtain ⟨hcar, hown⟩ := Run.Steps.carries (hw.covered hc)
    (by rwa [hsetup.plugins, hsetup.settings])
    (fun hd s hs => hun (hd ∘ (begun_declares hc k changes full).2) s (Run.takeChanges_due hs).2)
    (begun_ownsNode hc hown k changes full) hran.worked.steps
  exact ⟨hcarb.trans hcar, hown⟩

theorem Ran.mirrored (hc : c.Coherent names) (hw : c.Within names k changes full)
    (hsteady : Plugin.Steady c.plugins c.settings.enrichment)
    (hun : Unclaimed k changes full c report) (h : c.Mirrored m)
    (hran : Ran names k changes full c finished r report c')
    (hdel : Run.Delivered k.now finished taken refused r report c') :
    c'.Mirrored (r.table.rowsAfter taken m) := by
  obtain ⟨hcar, hown⟩ := hran.carries hc hw hsteady hun h.ownsNode
  have hshows : r.Shows m r.table := by
    intro p x hp hx hr
    have hne := (hran.orderly.record hx).ne_empty hr hp
    rcases hcar.keeps p hp with hkeep | hopen
    · have hold := h.shows p x hp (hkeep.record ▸ hx) hr
      exact ⟨hold.edges.trans hkeep.edges.symm, fun s hs => hold.nodes s (hkeep.symbols hne s hs)⟩
    · exact absurd hr (hopen x hx)
  have hoffers := hran.offers
  refine ⟨hdel.rows (hcar.setup.sink ▸ h.rows), fun p x hp hx hr => ?_, fun hfile => ?_⟩
  · exact (hdel.shows (hran.orderly.coherent hc.distinct) hran.forgets
      (fun p => count_finished_le hran.worked) hshows p x hp hx hr).of_same hoffers.table (.refl _)
  · rw [Declares, hoffers.plugins, hoffers.settings]
    refine hown ?_
    rwa [Table.containsFile, contains, hoffers.table.symbols.files] at hfile

theorem Reaches.mirrored {Q : σ → σ → Prop} (hnew : c₀.IsNew) (hm : HasRows c₀.sink m)
    (hsteady : Plugin.Steady c₀.plugins c₀.settings.enrichment)
    (hinj : Set.InjOn SymbolId.ofFqn names)
    (hQ : ∀ {s s' : σ} {m}, Q s s' → HasRows s m → HasRows s' m)
    (h : Reaches names Unclaimed Q c₀ c) : ∃ m, c.Mirrored m := by
  refine h.induct (I := fun c => ∃ m, c.Mirrored m) hnew.orderly
    ⟨m, hm, fun p x _ hx => ?_, fun hfile => ?_⟩ (fun hc hsame hw hun ⟨m, hm⟩ hran => ?_)
    fun hsink ⟨m, hm⟩ => ⟨m, hQ hsink hm.rows, hm.shows, hm.ownsNode⟩
  · rw [hnew.records] at hx
    cases hx
  · rw [hnew.table] at hfile
    cases hfile
  · obtain ⟨taken, refused, hdel⟩ := hran.delivered_groups
    exact ⟨_, hran.mirrored (hc.coherent hinj) hw (by rwa [hsame.plugins, hsame.settings]) hun hm hdel⟩

end Controller

end

/-- The standard plugins find as many edges in the settings on every view. -/
theorem Plugin.steady_of_subset_standard {plugins : List Plugin} (h : plugins ⊆ standard)
    (e : EnrichmentSettings) : Steady plugins e := by
  have hlength : ∀ plugin ∈ standard, ∀ v v', (plugin.analyzeSettings e v).edges.length =
      (plugin.analyzeSettings e v').edges.length := by
    intro plugin hp v v'
    rcases mem_standard.1 hp with rfl | rfl | rfl
    · rfl
    · simp [Events.plugin, List.length_flatMap]
    · simp [Routes.plugin]
  intro v v' hsilent plugin hp
  have hempty := hlength plugin (h (List.mem_filter.1 hp).1) v' v
  rw [hsilent plugin hp] at hempty
  exact List.eq_nil_of_length_eq_zero hempty

namespace Controller

/-- In every state of a project over a store in memory, the store has the edges of each resolved
file in order, and its symbols. The project may meet failures, time-outs, cancellations and refused
batches; but no source stands in the place of settings that declare nothing. -/
theorem resolved_in_store_of_reaches {c₀ c : Controller MemoryStore} (hnew : c₀.IsNew)
    (hsteady : Plugin.Steady c₀.plugins c₀.settings.enrichment)
    (hinj : Set.InjOn SymbolId.ofFqn names)
    (h : Reaches names Unclaimed MemoryStore.SameRows c₀ c) :
    ∀ p x, p ≠ settingsFile → c.records.get? p = some x → x.state = .resolved →
      c.sink.edgesOf p = c.table.edgesOf p ∧
        ∀ s ∈ c.table.symbolsInFile p, c.sink.nodes.get? s.id = some s := by
  intro p x hp hx hr
  obtain ⟨m, hm⟩ := h.mirrored hnew (MemoryStore.hasRows_iff.2 (.refl _)) hsteady hinj
    fun hs hm => MemoryStore.hasRows_iff.2 ((MemoryStore.hasRows_iff.1 hm).trans hs)
  have hshown := (hm.shows p x hp hx hr).of_same (.refl _) (MemoryStore.hasRows_iff.1 hm.rows)
  exact ⟨hshown.edges, hshown.nodes⟩

/-- Two files that refer to the first one, and a store that refuses one batch. -/
def halfRefused : Controller MemoryStore :=
  { ofSketches [.extending "a.go" "a.go", .extending "b.go" "a.go"] with
    settings := { pipeline := { batchSize := 1, sinkRetries := 0 } }
    sink := { rejections := 1 } }

theorem run_halfRefused : ([settingsFile, "a.go", "b.go"].map SymbolId.ofFqn).Nodup ∧
    halfRefused.usesOnly [settingsFile, "a.go", "b.go"] {} [.seen "a.go", .seen "b.go"] false = true ∧
    ∃ x, halfRefused.run {} [.seen "a.go", .seen "b.go"] false = .ok x ∧
      (x.2.records.get? "a.go").map (·.state) = some .collected ∧
      (x.2.records.get? "b.go").map (·.state) = some .resolved ∧
      (x.2.table.edgesOf "b.go").length = 1 := by
  decide +kernel

/-- The first file has to wait. The second one is resolved, and its edge is in the store. -/
theorem resolved_in_store_of_reaches_halfRefused : ∃ c,
    Reaches {n | n ∈ [settingsFile, "a.go", "b.go"]} Unclaimed MemoryStore.SameRows halfRefused c ∧
    (c.records.get? "a.go").map (·.state) = some .collected ∧
    (c.records.get? "b.go").map (·.state) = some .resolved ∧
    (c.table.edgesOf "b.go").length = 1 ∧ c.sink.edgesOf "b.go" = c.table.edgesOf "b.go" ∧
    ∀ s ∈ c.table.symbolsInFile "b.go", c.sink.nodes.get? s.id = some s := by
  obtain ⟨hnodup, huses, ⟨report, c⟩, hrun, hwaits, hstate, hedges⟩ := run_halfRefused
  have hreach : Reaches {n | n ∈ [settingsFile, "a.go", "b.go"]} Unclaimed MemoryStore.SameRows
      halfRefused c :=
    .run .start (within_of_usesOnly huses) (fun _ => by decide) hrun
  obtain ⟨x, hx, hresolved⟩ := Option.map_eq_some_iff.1 hstate
  exact ⟨c, hreach, hwaits, hstate, hedges, resolved_in_store_of_reaches ⟨rfl, rfl, rfl⟩
    (Plugin.steady_of_subset_standard (List.Subset.refl _) _) (injOn_ofFqn hnodup) hreach "b.go" x
    (by decide) hx hresolved⟩

end Controller

end CodeAtlas
