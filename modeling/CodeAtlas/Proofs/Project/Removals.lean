import Mathlib
import CodeAtlas.Proofs.Project.Catalogue
import CodeAtlas.Proofs.Project.Leftovers
import CodeAtlas.Proofs.Project.Synchrony

/-!
# Removed files

A run that removes a file deletes its record. If the store refuses to give up the rows, a tombstone
takes the place of the record, and the next run removes the file again. So no row is left without a
record, and a record without sketches is a tombstone unless the file failed.

Main results:

* `Step.sensible`, `Ran.sensible`: records without sketches.
* `MemoryStore.of_holds_apply`, `Table.of_holds_rowsAfter`: whose rows a store holds.
* `rows_on_record`: every file with rows has a record, and the store has saved it.
-/

namespace CodeAtlas

open SortedMap

variable {σ : Type} {names : Set String}

/-! ## Records without sketches -/

/-- A record has a state; without sketches its file failed, or waits to be removed. -/
structure FileRecord.Sensible (x : FileRecord) : Prop where
  known : x.state ≠ .unknown
  bare : x.sketches = none → x.state = .failed ∨ x.state = .stale

def Controller.Sensible (c : Controller σ) : Prop :=
  ∀ p x, p ≠ settingsFile → c.records.get? p = some x → x.Sensible

theorem FileRecord.Sensible.stored {x : FileRecord} (h : x.Sensible) (now : Timestamp) :
    (x.stored now).Sensible := by
  refine ⟨?_, fun hs => ?_⟩
  · unfold FileRecord.stored
    split
    · simp
    · exact h.known
  · rw [stored_sketches] at hs
    have hkeep : x.stored now = x := by
      refine if_neg fun hc => ?_
      rcases h.bare hs with hx | hx <;> rw [hx] at hc <;> cases hc
    rw [hkeep]
    exact h.bare hs

theorem FileRecord.sensible_outdated (x : FileRecord) : x.outdated.Sensible :=
  ⟨by rcases x.outdated_state with hs | hs <;> simp [hs], fun _ => x.outdated_state⟩

/-- Records that are left as they are, or outdated. -/
theorem Controller.Sensible.of_outdated {c c' : Controller σ} (h : c.Sensible)
    (hrec : ∀ {p x}, p ≠ settingsFile → c'.records.get? p = some x →
      c.records.get? p = some x ∨ ∃ y : FileRecord, x = y.outdated) : c'.Sensible := by
  intro p x hp hx
  rcases hrec hp hx with hx | ⟨y, rfl⟩
  · exact h p x hp hx
  · exact y.sensible_outdated

namespace Run

variable {due : List SourceFile} {r r' : Run σ}

theorem Revises.sensible {p : String} {o : Option FileRecord} {x : FileRecord}
    (h : r.Revises due p o x) (hp : p ≠ settingsFile) (ho : ∀ y, o = some y → y.Sensible) :
    x.Sensible := by
  cases h with
  | @state y s turns =>
    cases turns hp with
    | same => exact ho y rfl
    | stale => exact ⟨by simp, fun _ => .inr rfl⟩
    | ready _ hsome =>
      refine ⟨by simp, fun hs => ?_⟩
      rw [show y.sketches = none from hs] at hsome
      cases hsome
    | failed => exact ⟨by simp, fun _ => .inl rfl⟩
  | first _ _ failed => exact ⟨by simp [failed], fun _ => .inl failed⟩

theorem Step.sensible (hs : Step names due r r') (h : r.Sensible) : r'.Sensible := by
  have hsame (hrec : r'.records = r.records) : r'.Sensible :=
    h.of_outdated fun _ hx => .inl (hrec ▸ hx)
  cases hs with
  | records hs | edges hs => exact fun p x hp hx => (hs.revised hx).sensible hp fun y => h p y hp
  | @commit c summary hs =>
    intro p x hp hx
    by_cases hc : p = c.source.path
    · obtain ⟨y, hy, -, -, hstate, hsk, -⟩ := hs.record
      cases hx.symm.trans (hc ▸ hy)
      exact ⟨by simp [hstate], fun hnone => by cases hsk.symm.trans hnone⟩
    · rw [hs.records p hc] at hx
      split at hx
      · obtain ⟨y, -, rfl⟩ := Option.map_eq_some_iff.1 hx
        exact y.sensible_outdated
      · exact h p x hp hx
  | learn hs | adopt hs | retire hs | prune hs => exact hsame hs.records

theorem Steps.sensible (hs : Steps names due r r') (h : r.Sensible) : r'.Sensible := by
  induction hs with
  | refl => exact h
  | tail _ hstep ih => exact hstep.sensible ih

theorem Marked.outdates {paths : List String} (hm : Marked paths r r') {p : String} {x : FileRecord}
    (hx : r'.records.get? p = some x) :
    r.records.get? p = some x ∨ ∃ y : FileRecord, x = y.outdated := by
  rw [hm.records] at hx
  split at hx
  · obtain ⟨y, -, rfl⟩ := Option.map_eq_some_iff.1 hx
    exact .inr ⟨y, rfl⟩
  · exact .inl hx

theorem checkSettings_sensible (h : r.Sensible) (now : Timestamp) :
    (r.checkSettings now).Sensible := by
  rcases checkSettings_cases r now with heq | ⟨paths, r₁, -, hm, hr⟩
  · rwa [heq]
  · exact h.of_outdated fun hp hx => hm.outdates (hr.records _ hp ▸ hx)

theorem Removal.sensible {path : String} (h : r.Sensible) (hr : Removal path r r') :
    r'.Sensible := by
  refine h.of_outdated fun {p x} _ hx => ?_
  rw [hr.records] at hx
  split at hx
  · cases hx
  · split at hx
    · obtain ⟨y, -, rfl⟩ := Option.map_eq_some_iff.1 hx
      exact .inr ⟨y, rfl⟩
    · exact .inl hx

theorem deliver_sensible [Sink σ] (h : r.Sensible) (hf : r.Forgets) (now : Timestamp)
    (finished : List String) : (r.deliver now finished).2.Sensible := by
  intro p x hp hx
  rcases deliver_records now finished hf p with heq | ⟨-, heq⟩ | ⟨-, heq⟩ <;> rw [heq] at hx
  · exact h p x hp hx
  · obtain ⟨y, hy, rfl⟩ := Option.map_eq_some_iff.1 hx
    exact (h p y hp hy).stored now
  · cases hx
    exact ⟨by simp [FileRecord.tombstone], fun _ => .inr rfl⟩

end Run

namespace Controller

variable {c c' : Controller σ} {k : Conditions} {changes : List FileChange} {full : Bool}

theorem begun_sensible (h : c.Sensible) (k : Conditions) (changes : List FileChange)
    (full : Bool) : (c.begun k changes full).1.Sensible :=
  Run.takeChanges_induct (I := fun r : Run σ => r.Sensible) changes
    (Run.checkSettings_sensible (r := Run.start c full) h k.now)
    (fun _ _ _ h hr => hr.sensible h) fun _ _ _ h he => he.controller ▸ h

theorem Ran.sensible [Sink σ] {finished : List String} {r : Run σ} {report : RunReport}
    (h : Ran names k changes full c finished r report c') (hc : c.Sensible) : c'.Sensible := by
  have hr := Run.Steps.sensible h.worked.steps (begun_sensible hc k changes full)
  exact h.deliver_eq ▸ Run.deliver_sensible hr h.forgets k.now finished

theorem IsNew.sensible (h : c.IsNew) : c.Sensible := by
  intro p x _ hx
  rw [h.records] at hx
  cases hx

/-! ## Records of a run -/

/-- Until the first pass a file keeps its record or is removed. -/
theorem begun_kept {p : String} (hp : p ≠ settingsFile) (h : c.records.contains p = true) :
    (c.begun k changes full).1.records.contains p = true ∨
      p ∈ (c.begun k changes full).1.removed := by
  refine Run.takeChanges_induct (I := fun r : Run σ =>
    r.records.contains p = true ∨ p ∈ r.removed) changes ?_ (fun r r' path h hr => ?_)
    fun r r' s h he => ?_
  · left
    rcases Run.checkSettings_cases (Run.start c full) k.now with heq | ⟨paths, r₁, -, hm, hr⟩
    · rwa [heq]
    · rw [contains, hr.records p hp]
      exact (Run.contains_records_of_marked hm p).trans h
  · rw [hr.removed, List.mem_append, List.mem_singleton, contains, hr.records]
    by_cases hpath : p = path
    · exact .inr (.inr hpath)
    · refine h.imp (fun hc => ?_) .inl
      rw [if_neg hpath]
      split
      · rw [Option.isSome_map]
        exact hc
      · exact hc
  · rw [he.controller, he.removed]
    exact h

/-- Only the record of the settings is forgotten without a removal. -/
theorem begun_forgotten (c : Controller σ) (k : Conditions) (changes : List FileChange)
    (full : Bool) : ∀ p ∈ (c.begun k changes full).1.forgotten, p = settingsFile := by
  refine Run.takeChanges_induct (I := fun r : Run σ => ∀ p ∈ r.forgotten, p = settingsFile) changes
    (fun p hp => ?_) (fun r r' path h hr => ?_) fun r r' s h he => ?_
  · rcases Run.checkSettings_cases (Run.start c full) k.now with heq | ⟨paths, r₁, -, hm, hr⟩
    · rw [heq] at hp
      cases hp
    · refine (hr.forgotten p hp).resolve_left fun hmem => ?_
      have hforgotten : ({ r₁ with settingsAffected := true } : Run σ).forgotten = _ := hm.forgotten
      rw [hforgotten] at hmem
      cases hmem
  · rwa [hr.forgotten]
  · rwa [he.forgotten]

end Controller

/-! ## The rows of a file -/

namespace MemoryStore

variable {s : MemoryStore} {b : Batch} {p : String}

/-- The store has an entry for the edges of a file, or a node of it. -/
def Holds (s : MemoryStore) (p : String) : Prop :=
  s.edges.contains p = true ∨ ∃ id n, s.nodes.get? id = some n ∧ n.file = p

theorem SameRows.holds {s' : MemoryStore} (h : s.SameRows s') : s'.Holds p ↔ s.Holds p := by
  rw [Holds, Holds, h.edges, h.nodes]

theorem of_contains_foldl_retract {l : List String}
    (h : (l.foldl retract s).edges.contains p = true) : p ∉ l ∧ s.edges.contains p = true := by
  induction l generalizing s with
  | nil => exact ⟨List.not_mem_nil, h⟩
  | cons q rest ih =>
    obtain ⟨hrest, hc⟩ := ih h
    rw [retract, contains_erase, Bool.and_eq_true, decide_eq_true_eq] at hc
    exact ⟨List.not_mem_cons_of_ne_of_not_mem hc.1 hrest, hc.2⟩

theorem of_contains_foldl_putEdge {l : List Edge}
    (h : (l.foldl putEdge s).edges.contains p = true) :
    (∃ e ∈ l, e.owner = p) ∨ s.edges.contains p = true := by
  induction l generalizing s with
  | nil => exact .inr h
  | cons e rest ih =>
    rcases ih h with ⟨e', he', hp⟩ | hc
    · exact .inl ⟨e', List.mem_cons_of_mem _ he', hp⟩
    · rw [putEdge, contains_insert, Bool.or_eq_true, decide_eq_true_eq] at hc
      exact hc.imp (fun hp => ⟨e, List.mem_cons_self .., hp.symm⟩) id

/-- A file with rows after a batch has rows in the batch, or had them and was not retracted. -/
theorem of_holds_apply (h : (s.apply b).Holds p) :
    (∃ n ∈ b.nodes, n.file = p) ∨ (∃ e ∈ b.edges, e.owner = p) ∨ p ∉ b.retract ∧ s.Holds p := by
  rcases h with h | ⟨id, n, hn, hp⟩
  · right
    refine (of_contains_foldl_putEdge h).imp_right fun hc => ?_
    rw [(foldl_putNode b.nodes _).1, (foldl_dropNode b.dropNodes _).1] at hc
    exact (of_contains_foldl_retract hc).imp_right .inl
  · rw [get?_nodes_apply] at hn
    rcases Option.or_eq_some_iff.1 hn with hn | ⟨-, hn⟩
    · exact .inl ⟨n, List.mem_reverse.1 (List.mem_of_find?_eq_some hn), hp⟩
    · split at hn
      · cases hn
      · obtain ⟨hn, hfile⟩ := Option.filter_eq_some_iff.1 hn
        exact .inr (.inr ⟨by simpa [hp] using hfile, .inr ⟨id, n, hn, hp⟩⟩)

end MemoryStore

namespace Table

variable {t : Table} {g : Group} {gs : List Group} {m : MemoryStore} {p : String}

/-- The nodes of a batch are without a file, or belong to a file of it. -/
theorem file_of_mem_nodes {n : Symbol} (hn : n ∈ (g.batch t).nodes) :
    n.file = "" ∨ n.file ∈ g.files := by
  obtain ⟨q, hq, hn⟩ := List.mem_flatMap.1 hn
  rcases List.mem_append.1 hn with hn | hn
  · exact .inr ((mem_symbolsInFile hn).1 ▸ hq)
  · obtain ⟨id, -, hid⟩ := List.mem_filterMap.1 hn
    have hfile := (Option.filter_eq_some_iff.1 hid).2
    rw [Bool.and_eq_true] at hfile
    exact .inl (by simpa using hfile.1)

/-- A file with rows after batches is finished in one of them, or had rows and was not removed. -/
theorem of_holds_rowsAfter (howned : ∀ {o e}, e ∈ t.edgesOf o → e.owner = o) (hp : p ≠ "")
    (h : (t.rowsAfter gs m).Holds p) :
    p ∈ gs.flatMap (·.files) ∨ p ∉ gs.flatMap (·.removed) ∧ m.Holds p := by
  induction gs generalizing m with
  | nil => exact .inr ⟨List.not_mem_nil, h⟩
  | cons g rest ih =>
    rw [List.flatMap_cons, List.flatMap_cons, List.mem_append, List.mem_append]
    rcases ih (m := m.apply (g.batch t)) h with hrest | ⟨hrest, hm⟩
    · exact .inl (.inr hrest)
    · rcases MemoryStore.of_holds_apply hm with ⟨n, hn, rfl⟩ | ⟨e, he, rfl⟩ | ⟨hretract, hm⟩
      · exact .inl (.inl ((file_of_mem_nodes hn).resolve_left hp))
      · obtain ⟨q, hq, he⟩ := List.mem_flatMap.1 he
        exact .inl (.inl (howned he ▸ hq))
      · have hremoved : p ∉ g.removed := fun hmem => hretract (List.mem_append_left _ hmem)
        exact .inr ⟨not_or.2 ⟨hremoved, hrest⟩, hm⟩

end Table

/-! ## Saved files -/

theorem Run.flush_savedFiles (now : Timestamp) (finished : List String) (r : Run MemoryStore) :
    (r.flush now finished).2.sink.savedFiles = r.sink.savedFiles := by
  refine List.foldlRecOn (motive := fun acc : StringSet × Run MemoryStore =>
    acc.2.sink.savedFiles = r.sink.savedFiles) _ (flushBatch now) rfl fun acc hacc b _ => ?_
  have hsaved := MemoryStore.writeRetrying_savedFiles b acc.2.settings.pipeline.sinkRetries acc.2.sink
  rcases flushBatch_cases now acc b with ⟨n, sink, records, hw, heq, -⟩ | ⟨e, sink, t, hw, -, heq⟩
  · rw [hw] at hsaved
    rw [heq]
    exact hsaved.trans hacc
  · rw [hw] at hsaved
    rw [heq]
    exact hsaved.trans hacc

theorem MemoryStore.contains_savedFiles_save (records : List FileRecord) (removed : List String)
    (s : MemoryStore) (p : String) : (Sink.save records removed s).2.savedFiles.contains p = true ↔
      p ∉ removed ∧ (s.savedFiles.contains p = true ∨ ∃ x ∈ records, x.path = p) := by
  have herase : ∀ (l : List String) (m : StringSet), (l.foldl SortedMap.erase m).contains p = true ↔
      p ∉ l ∧ m.contains p = true := by
    intro l
    induction l with
    | nil => simp
    | cons q rest ih =>
      intro m
      rw [List.foldl_cons, ih, contains_erase, Bool.and_eq_true, decide_eq_true_eq, List.mem_cons]
      tauto
  refine (herase removed _).trans (and_congr_right fun _ => ?_)
  rw [StringSet.contains_addAll, List.mem_map]

/-! ## Every state of a project -/

namespace Controller

variable {c c₀ c' : Controller MemoryStore} {P : RunKind MemoryStore}

/-- Every file with rows has a record, which the store has saved. -/
def OnRecord (c : Controller MemoryStore) : Prop :=
  ∀ p, p ≠ "" → p ≠ settingsFile → c.sink.Holds p →
    c.records.contains p = true ∧ c.sink.savedFiles.contains p = true

theorem Ran.onRecord {k : Conditions} {changes : List FileChange} {full : Bool}
    {finished : List String} {r : Run MemoryStore} {report : RunReport} (hc : c.Orderly names)
    (hran : Ran names k changes full c finished r report c') (h : c.OnRecord) : c'.OnRecord := by
  obtain ⟨taken, refused, hdel⟩ := hran.delivered_groups
  have hstays := Run.Steps.stays hran.worked.steps
  have hsink : r.sink = c.sink := hstays.setup.sink.trans (begun_setup hc k changes full).sink
  have hrows := MemoryStore.hasRows_iff.1 (hdel.rows (MemoryStore.hasRows_iff.2 (.refl r.sink)))
  -- what is saved in the end
  have hconc := Run.deliver_concludes k.now finished r
  have hflush := Run.flush_flushes k.now finished r
  rw [hran.delivered] at hconc
  obtain ⟨records, removed, hsave, hrecords, hremoved⟩ := hconc.sink
  have hforgotten : ∀ p ∈ removed, p ≠ settingsFile →
      p ∈ r.removed ∧ (r.flush k.now finished).1.contains p = false := by
    intro p hp hne
    rw [← hflush.removed]
    refine (hremoved p hp).resolve_left fun hmem => hne (begun_forgotten c k changes full p ?_)
    rwa [hflush.forgotten, hstays.forgotten] at hmem
  have hsaved {p : String} (hne : p ≠ settingsFile)
      (hkeep : p ∈ r.removed → (r.flush k.now finished).1.contains p = true)
      (hp : c.sink.savedFiles.contains p = true ∨ ∃ x ∈ records, x.path = p) :
      c'.sink.savedFiles.contains p = true := by
    rw [hsave, MemoryStore.contains_savedFiles_save, Run.flush_savedFiles, hsink]
    refine ⟨fun hmem => ?_, hp⟩
    obtain ⟨hmem, hfalse⟩ := hforgotten p hmem hne
    rw [hkeep hmem] at hfalse
    cases hfalse
  have hpath {p : String} (hp : r.touched.contains p = true ∨
      p ∈ r.removed ∧ (r.flush k.now finished).1.contains p = true)
      (hc' : c'.records.contains p = true) : ∃ x ∈ records, x.path = p := by
    obtain ⟨x, hx⟩ := contains_iff.1 hc'
    refine ⟨x, hrecords p ?_ x hx, (hran.after.record hx).path_eq⟩
    rwa [hflush.touched, hflush.removed]
  intro p hpe hps hholds
  rw [hrows.holds] at hholds
  have hcontains (hr : r.records.contains p = true) : c'.records.contains p = true := by
    rw [contains, hdel.records]
    split
    · rfl
    · split
      · rw [Option.isSome_map]
        exact hr
      · exact hr
  rcases Table.of_holds_rowsAfter hran.orderly.owned hpe hholds with hmem | ⟨hmem, hheld⟩
  · -- the rows were written by this run
    have hfin := hdel.sublist.subset hmem
    have hsk := sketches_of_worked hran.worked p hfin hps
    have hr : r.records.contains p = true := by
      rw [Run.get?_sketches] at hsk
      obtain ⟨x, hx, -⟩ := Option.bind_eq_some_iff.1 (Option.some_get hsk).symm
      exact contains_of_get? hx
    refine ⟨hcontains hr, hsaved hps (fun hrem => ?_)
      (.inr (hpath (.inl (hran.worked.touched p hfin)) (hcontains hr)))⟩
    rw [contains, (hran.forgets p hrem).2] at hr
    cases hr
  · -- the rows were there before
    rw [hsink] at hheld
    obtain ⟨hrec, hfiles⟩ := h p hpe hps hheld
    have hkept : (c.begun k changes full).1.records.contains p = true ∨
        p ∈ (c.begun k changes full).1.removed := begun_kept hps hrec
    rcases hkept with hr | hr
    · have hr := Run.Steps.kept hran.worked.steps hr
      refine ⟨hcontains hr, hsaved hps (fun hrem => ?_) (.inl hfiles)⟩
      rw [contains, (hran.forgets p hrem).2] at hr
      cases hr
    · rw [← hstays.removed] at hr
      have hrefused := ((hdel.removed p).1 hr).resolve_left hmem
      have htomb : c'.records.get? p = some (.tombstone p) :=
        (hdel.records p).trans (if_pos hrefused)
      have hburied : (r.flush k.now finished).1.contains p = true := by
        by_contra hno
        have hget := hconc.records p
        rw [if_neg fun hb => hno hb.2, htomb] at hget
        rcases hflush.records p with heq | ⟨-, heq⟩ <;>
          rw [heq] at hget <;> simp [(hran.forgets p hr).2] at hget
      exact ⟨contains_of_get? htomb, hsaved hps (fun _ => hburied) (.inl hfiles)⟩

/-- In every state of a project over a store in memory that had no rows at first, each file with
rows in the store has a record in the project, and the store has saved one. A record without
sketches is that of a file that failed, or a tombstone of one that the table does not know. -/
theorem rows_on_record (hnew : c₀.IsNew) (hnodes : c₀.sink.nodes = ∅) (hedges : c₀.sink.edges = ∅)
    (h : Reaches Set.univ P
      (fun s s' => s.SameRows s' ∧ s'.savedFiles = s.savedFiles) c₀ c) :
    (∀ p, p ≠ "" → p ≠ settingsFile → c.sink.Holds p →
      c.records.contains p = true ∧ c.sink.savedFiles.contains p = true) ∧
    ∀ p x, p ≠ settingsFile → c.records.get? p = some x → x.sketches = none →
      x.state = .failed ∨ x.isTombstone = true ∧ c.table.containsFile p = false := by
  have horderly : c.Orderly Set.univ := (h.orderly_sameKind hnew.orderly).1
  have htallies : c.Tallies fun _ => True := h.tallies hnew fun _ _ _ => trivial
  have honRecord : c.OnRecord :=
    h.induct (I := fun c : Controller MemoryStore => c.OnRecord) hnew.orderly
      (fun p _ _ hholds => by simp [MemoryStore.Holds, hnodes, hedges] at hholds)
      (fun hc _ _ _ h hran => hran.onRecord hc h) fun hq h p hpe hps hholds => by
        obtain ⟨hrows, hsaved⟩ := hq
        dsimp only
        rw [hsaved]
        exact h p hpe hps (hrows.holds.1 hholds)
  have hsensible : c.Sensible :=
    h.induct (I := fun c : Controller MemoryStore => c.Sensible) hnew.orderly hnew.sensible
      (fun _ _ _ _ h hran => hran.sensible h) fun _ h => h
  refine ⟨honRecord, fun p x hp hx hs => ?_⟩
  refine ((hsensible p x hp hx).bare hs).imp_right fun hstate => ⟨?_, ?_⟩
  · simp [FileRecord.isTombstone, hs, hstate, (horderly.record hx).path_eq, hp]
  · rw [Bool.eq_false_iff]
    intro hfile
    have hsome := (htallies.containsFile_iff hp).1 hfile
    rw [Run.get?_sketches, hx] at hsome
    simp [hs] at hsome

/-- A file that refers to itself. Batches that are refused are not offered again. -/
def looping : Controller MemoryStore :=
  { ofSketches [.extending "a.go" "a.go"] with settings := { pipeline := { sinkRetries := 0 } } }

theorem runs_looping : ∃ x, looping.run {} [.seen "a.go"] false = .ok x ∧
    ∃ y, { x.2 with sink := { x.2.sink with rejections := 1 } }.run {} [.removed "a.go"] false =
        .ok y ∧
      y.2.sink.edges.contains "a.go" = true ∧
      (y.2.records.get? "a.go").map (fun x => (x.sketches.isNone, x.state)) = some (true, .stale) := by
  decide +kernel

/-- The file is removed, but the store refuses to forget it. Its rows stay on record: a tombstone stands
for them. -/
theorem rows_on_record_looping : ∃ c, Reaches Set.univ (fun _ _ _ _ _ => True)
      (fun s s' => s.SameRows s' ∧ s'.savedFiles = s.savedFiles) looping c ∧
    c.sink.Holds "a.go" ∧ c.records.contains "a.go" = true ∧
    c.sink.savedFiles.contains "a.go" = true ∧
    ∃ x, c.records.get? "a.go" = some x ∧ x.isTombstone = true ∧
      c.table.containsFile "a.go" = false := by
  obtain ⟨⟨report, c₁⟩, hrun, ⟨report', c⟩, hrun', hrows, hrecord⟩ := runs_looping
  have hfirst : Reaches Set.univ (fun _ _ _ _ _ => True)
      (fun s s' => s.SameRows s' ∧ s'.savedFiles = s.savedFiles) looping c₁ :=
    .run .start (within_univ ..) trivial hrun
  have hrefusing : Reaches Set.univ (fun _ _ _ _ _ => True)
      (fun s s' => s.SameRows s' ∧ s'.savedFiles = s.savedFiles) looping
      { c₁ with sink := { c₁.sink with rejections := 1 } } :=
    hfirst.outside ⟨⟨rfl, rfl⟩, rfl⟩
  have hreach := hrefusing.run (within_univ ..) trivial hrun'
  obtain ⟨honRecord, hbare⟩ := rows_on_record ⟨rfl, rfl, rfl⟩ rfl rfl hreach
  have hholds : c.sink.Holds "a.go" := .inl hrows
  obtain ⟨hknown, hsaved⟩ := honRecord _ (by decide) (by decide) hholds
  obtain ⟨x, hx, hstate⟩ := Option.map_eq_some_iff.1 hrecord
  obtain ⟨hnone, hstale⟩ := Prod.mk.inj hstate
  refine ⟨c, hreach, hholds, hknown, hsaved, x, hx, ?_⟩
  refine (hbare "a.go" x (by decide) hx (Option.isNone_iff_eq_none.1 hnone)).resolve_left ?_
  rw [hstale]
  decide

end Controller

end CodeAtlas
