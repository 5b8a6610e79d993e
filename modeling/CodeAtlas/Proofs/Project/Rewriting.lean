import Mathlib
import CodeAtlas.Proofs.Project.Synchrony
import CodeAtlas.Proofs.Table.Recomputation

/-!
# Rows that are written again

A store holds a file if it has the rows of the file as a batch writes them, and no further node of
the file. It does so behind the last batch of a run for the last file of that run, and the rows of a
file that it holds can be written again without a change.

Main results:

* `Table.heldBy_rowsAfter`: the last file of a run is held, and what the run forgets is gone.
* `Table.HeldBy.rowsAfter`: writing a file again that is held changes nothing.
* `Run.rejections_flush`: a store that took every batch refuses none of the next ones.
-/

namespace CodeAtlas

open SortedMap

variable {names : Set String}

/-- A store has the rows of a file as a batch writes them, and no further node of the file. -/
structure Table.HeldBy (m : MemoryStore) (t : Table) (file : String) : Prop where
  edges : m.edges.get? file = if t.edgesOf file = [] then none else some (t.edgesOf file)
  rows : ∀ n ∈ (t.fileRows file).1, m.nodes.get? n.id = some n
  only : ∀ {id n}, m.nodes.get? id = some n → n.file = file → n ∈ (t.fileRows file).1 ∧ n.id = id

namespace Table

variable {t t' : Table} {m m' : MemoryStore} {file : String} {g : Group} {gs : List Group}

theorem HeldBy.of_same (h : t.HeldBy m file) (ht : SameContents t t') (hm : m.SameRows m') :
    t'.HeldBy m' file := by
  have hedges := ht.edges.edgesOf file
  have hrows := ht.fileRows file
  refine ⟨?_, fun n hn => ?_, fun {id n} hn hfile => ?_⟩
  · rw [hm.edges, h.edges, hedges]
  · rw [hm.nodes]
    exact h.rows n (hrows ▸ hn)
  · rw [hm.nodes] at hn
    rw [hrows]
    exact h.only hn hfile

/-- A node of a batch that has a file is a symbol of that file, and the file is in the batch. -/
theorem mem_fileRows_of_mem_nodes {n : Symbol} (hn : n ∈ (g.batch t).nodes) (hfile : n.file ≠ "") :
    n.file ∈ g.files ∧ n ∈ (t.fileRows n.file).1 := by
  obtain ⟨p, hp, hrow⟩ := List.mem_flatMap.1 hn
  rcases List.mem_append.1 hrow with hsymbol | hshared
  · obtain rfl := (mem_symbolsInFile hsymbol).1
    exact ⟨hp, hrow⟩
  · obtain ⟨id, -, hid⟩ := List.mem_filterMap.1 hshared
    have hbare := (Option.filter_eq_some_iff.1 hid).2
    simp only [Bool.and_eq_true, String.isEmpty_iff] at hbare
    exact absurd hbare.1 hfile

/-- A batch never drops what it writes, and writes each symbol as it is in the table. -/
theorem Sound.get?_apply_of_mem (h : Sound names t) {n : Symbol} (hn : n ∈ (g.batch t).nodes) :
    (m.apply (g.batch t)).nodes.get? n.id = some n := by
  rw [MemoryStore.get?_nodes_apply]
  rcases h.find?_nodes (g := g) (h.get?_of_mem_nodes hn) with hnone | hsome
  · have := List.find?_eq_none.1 hnone n (List.mem_reverse.2 hn)
    simp at this
  · rw [hsome]
    rfl

/-- A batch removes the nodes that it drops, unless it writes them. -/
theorem Sound.get?_apply_of_drop (h : Sound names t) {id : SymbolId} (hid : id ∈ g.drops)
    (hunknown : SymbolLookup.findId? t id = none) : (m.apply (g.batch t)).nodes.get? id = none := by
  rw [MemoryStore.get?_nodes_apply]
  have hnone : (g.batch t).nodes.reverse.find? (fun n => n.id == id) = none := by
    refine List.find?_eq_none.2 fun n hn hnid => ?_
    have hget := h.get?_of_mem_nodes (List.mem_reverse.1 hn)
    rw [h.findId?_eq_some.2 ⟨hget, beq_iff_eq.1 hnid⟩] at hunknown
    cases hunknown
  have hdrop : id ∈ (g.batch t).dropNodes := hid
  rw [hnone, if_pos hdrop]
  rfl

theorem heldBy_apply (hsound : Sound names t) (howned : ∀ {o e}, e ∈ t.edgesOf o → e.owner = o)
    (hfile : file ≠ "") (hmem : file ∈ g.files) (hcount : g.files.count file ≤ 1) :
    t.HeldBy (m.apply (g.batch t)) file := by
  have hretract : file ∈ (g.batch t).retract := List.mem_append_right _ hmem
  have hedges := edges_batch (g := g) howned hcount
  rw [if_pos hmem] at hedges
  refine ⟨?_, fun n hn => ?_, fun {id n} hn hnfile => ?_⟩
  · rw [MemoryStore.get?_edges_apply, MemoryStore.edgesOf_apply, hedges, if_pos hretract,
      if_pos hretract, List.nil_append]
  · exact hsound.get?_apply_of_mem (List.mem_flatMap.2 ⟨file, hmem, hn⟩)
  · rw [MemoryStore.get?_nodes_apply] at hn
    rcases Option.or_eq_some_iff.1 hn with hn | ⟨-, hn⟩
    · have hwritten := List.mem_reverse.1 (List.mem_of_find?_eq_some hn)
      obtain ⟨-, hrow⟩ := mem_fileRows_of_mem_nodes hwritten (hnfile ▸ hfile)
      exact ⟨hnfile ▸ hrow, by simpa using List.find?_some hn⟩
    · -- what was there of the file is retracted
      split at hn
      · cases hn
      · have hkept := (Option.filter_eq_some_iff.1 hn).2
        simp [hnfile, hretract] at hkept

/-- A batch that only drops nodes. -/
theorem get?_nodes_apply_drops (drops : List SymbolId) (id : SymbolId) :
    (m.apply (Group.batch t { drops })).nodes.get? id =
      if id ∈ drops then none else m.nodes.get? id := by
  rw [MemoryStore.get?_nodes_apply]
  cases m.nodes.get? id <;> simp [Group.batch, Option.filter]

theorem HeldBy.apply_drops (h : t.HeldBy m file) (hsound : Sound names t) {drops : List SymbolId}
    (hdrops : ∀ id ∈ drops, SymbolLookup.findId? t id = none) :
    t.HeldBy (m.apply (Group.batch t { drops })) file := by
  refine ⟨?_, fun n hn => ?_, fun {id n} hn hnfile => ?_⟩
  · rw [MemoryStore.get?_edges_apply]
    exact h.edges
  · rw [get?_nodes_apply_drops, if_neg, h.rows n hn]
    intro hid
    have hmem : n ∈ (Group.batch t { files := [file] }).nodes :=
      List.mem_flatMap.2 ⟨file, List.mem_singleton_self _, hn⟩
    have hunknown := hdrops _ hid
    rw [hsound.findId?_eq_some.2 ⟨hsound.get?_of_mem_nodes hmem, rfl⟩] at hunknown
    cases hunknown
  · rw [get?_nodes_apply_drops] at hn
    split at hn
    · cases hn
    · exact h.only hn hnfile

theorem rowsAfter_append (gs' : List Group) :
    t.rowsAfter (gs ++ gs') m = t.rowsAfter gs' (t.rowsAfter gs m) :=
  List.foldl_append ..

theorem rowsAfter_congr {gs' : List Group} (h : gs.map (Group.batch t) = gs'.map (Group.batch t)) :
    t.rowsAfter gs m = t.rowsAfter gs' m := by
  have hfold : ∀ l : List Group, t.rowsAfter l m = (l.map (Group.batch t)).foldl MemoryStore.apply m :=
    fun l => List.foldl_map.symm
  rw [hfold, hfold, h]

/-- Behind all batches of a run the store holds the last file, and what the run forgets is gone. -/
theorem heldBy_rowsAfter (hsound : Sound names t)
    (howned : ∀ {o e}, e ∈ t.edgesOf o → e.owner = o) (hfile : file ≠ "") {limit : Nat}
    {removed finished : List String} {drops : List SymbolId}
    (hcount : (finished ++ [file]).count file ≤ 1)
    (hdrops : ∀ id ∈ drops, SymbolLookup.findId? t id = none)
    (hgs : t.batches limit removed (finished ++ [file]) drops = gs.map (Group.batch t)) :
    t.HeldBy (t.rowsAfter gs m) file ∧
      ∀ id ∈ drops, (t.rowsAfter gs m).nodes.get? id = none := by
  obtain ⟨before, g, hmem, hsub, hlast⟩ := t.batches_append limit removed finished file drops
  have hheld : ∀ m : MemoryStore, t.HeldBy (m.apply (g.batch t)) file := fun m =>
    heldBy_apply hsound howned hfile hmem ((hsub.count_le _).trans hcount)
  rcases hlast with ⟨hlast, rfl⟩ | hlast
  · rw [rowsAfter_congr (hgs.symm.trans hlast), rowsAfter_append]
    exact ⟨hheld _, fun id hid => hsound.get?_apply_of_drop hid (hdrops id hid)⟩
  · rw [rowsAfter_congr (hgs.symm.trans hlast), rowsAfter_append]
    refine ⟨(hheld _).apply_drops hsound hdrops, fun id hid => ?_⟩
    exact (get?_nodes_apply_drops drops id).trans (if_pos hid)

/-! ## The same rows again -/

theorem HeldBy.apply (h : t.HeldBy m file) (howned : ∀ {o e}, e ∈ t.edgesOf o → e.owner = o)
    (hremoved : g.removed = []) (hfiles : g.files = [file])
    (hdrops : ∀ id ∈ g.drops, m.nodes.get? id = none) : m.SameRows (m.apply (g.batch t)) := by
  have hretract : (g.batch t).retract = [file] := by
    rw [Group.batch, hremoved, hfiles, List.nil_append]
  have hnodes : (g.batch t).nodes = (t.fileRows file).1 := by
    rw [Group.batch, hfiles, List.flatMap_singleton]
  constructor
  · ext id : 1
    rw [MemoryStore.get?_nodes_apply]
    cases hfind : (g.batch t).nodes.reverse.find? fun n => n.id == id with
    | some n =>
      have hn := List.mem_reverse.1 (List.mem_of_find?_eq_some hfind)
      have hid : n.id = id := by simpa using List.find?_some hfind
      rw [Option.some_or, ← hid, h.rows n (hnodes ▸ hn)]
    | none =>
      rw [Option.none_or]
      split
      · next hdrop => exact (hdrops id hdrop).symm
      · cases hn : m.nodes.get? id with
        | none => rfl
        | some n =>
          -- a node of the file is among those that are written
          have hother : n.file ≠ file := by
            intro hnfile
            obtain ⟨hrow, hid⟩ := h.only hn hnfile
            have := List.find?_eq_none.1 hfind n (List.mem_reverse.2 (hnodes ▸ hrow))
            simp [hid] at this
          simp [hretract, hother]
  · ext o : 1
    have hcount : g.files.count o ≤ 1 := by
      rw [hfiles]
      exact List.nodup_iff_count_le_one.1 (List.nodup_singleton file) o
    rw [MemoryStore.get?_edges_apply, MemoryStore.edgesOf_apply, edges_batch howned hcount, hretract,
      hfiles]
    by_cases ho : o = file
    · subst ho
      simp [h.edges]
    · simp [ho]

/-- Writing a file again that the store holds changes nothing, nor does dropping nodes that it does
not have. -/
theorem HeldBy.rowsAfter (h : t.HeldBy m file) (howned : ∀ {o e}, e ∈ t.edgesOf o → e.owner = o)
    (hgs : ∀ g ∈ gs, g.removed = [] ∧ (g.files = [] ∨ g.files = [file]) ∧
      ∀ id ∈ g.drops, m.nodes.get? id = none) : m.SameRows (t.rowsAfter gs m) := by
  suffices hall : ∀ m', m.SameRows m' → m.SameRows (t.rowsAfter gs m') from hall m (.refl m)
  induction gs with
  | nil => exact fun m' hm => hm
  | cons g rest ih =>
    intro m' hm
    refine ih (fun g' hg' => hgs g' (List.mem_cons_of_mem _ hg')) _ (hm.trans ?_)
    obtain ⟨hremoved, hfiles, hdrops⟩ := hgs g (List.mem_cons_self ..)
    rw [← hm.nodes] at hdrops
    show m'.SameRows (m'.apply (g.batch t))
    rcases hfiles with hfiles | hfiles
    · have hbatch : g.batch t = Group.batch t { drops := g.drops } := by
        rw [Group.batch, Group.batch, hremoved, hfiles]
      rw [hbatch]
      constructor
      · ext id : 1
        rw [get?_nodes_apply_drops]
        split
        · next hid => exact (hdrops id hid).symm
        · rfl
      · ext o : 1
        rw [MemoryStore.get?_edges_apply]
        rfl
    · exact (h.of_same ⟨rfl, rfl, rfl, .refl t⟩ hm).apply howned hremoved hfiles hdrops

end Table

/-! ## Stores that take all batches -/

namespace Run

theorem le_sinkFailures_foldl {σ : Type} [Sink σ] (now : Timestamp) (bs : List Batch)
    (acc : StringSet × Run σ) :
    acc.2.report.sinkFailures ≤ (bs.foldl (flushBatch now) acc).2.report.sinkFailures := by
  refine List.foldlRecOn (motive := fun acc' : StringSet × Run σ =>
    acc.2.report.sinkFailures ≤ acc'.2.report.sinkFailures) bs _ le_rfl fun acc' h b _ => ?_
  rcases flushBatch_cases now acc' b with ⟨n, sink, records, -, heq, -⟩ | ⟨e, sink, t, -, -, heq⟩
  · rw [heq]
    exact h
  · rw [heq]
    exact h.trans (Nat.le_succ _)

/-- A store in memory that took the batches of a run, one at least, has no rejections left. -/
theorem rejections_flush {r : Run MemoryStore} {now : Timestamp} {finished : List String}
    (hne : finished ≠ [])
    (h : (r.flush now finished).2.report.sinkFailures = r.report.sinkFailures) :
    (r.flush now finished).2.sink.rejections = 0 := by
  obtain ⟨p, hp⟩ := List.exists_mem_of_ne_nil finished hne
  unfold flush at h ⊢
  dsimp only at h ⊢
  have hp := (mem_retract_batches r.table (max r.settings.pipeline.batchSize 1) r.removed finished
    (r.droppedIds.keys.filter fun id => (SymbolLookup.findId? r.table id).isNone) p).2 (.inr hp)
  rcases List.eq_nil_or_concat (r.table.batches (max r.settings.pipeline.batchSize 1) r.removed
    finished (r.droppedIds.keys.filter fun id => (SymbolLookup.findId? r.table id).isNone)) with
    hnil | ⟨bs, b, hbs⟩
  · rw [hnil] at hp
    cases hp
  · -- what happens to the last batch decides
    rw [hbs, List.concat_eq_append, List.foldl_append, List.foldl_cons, List.foldl_nil] at h ⊢
    have hle := le_sinkFailures_foldl now bs (∅, r)
    rcases flushBatch_cases now (bs.foldl (flushBatch now) (∅, r)) b with
      ⟨n, sink, records, hw, heq, -⟩ | ⟨e, sink, t, -, -, heq⟩
    · rw [heq]
      exact MemoryStore.rejections_of_writeRetrying hw
    · rw [heq] at h
      dsimp only at h hle
      omega

end Run

end CodeAtlas
