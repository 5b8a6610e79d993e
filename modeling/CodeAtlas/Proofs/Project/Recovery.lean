import Mathlib
import CodeAtlas.Proofs.Project.Account
import CodeAtlas.Proofs.Project.Leftovers
import CodeAtlas.Proofs.Project.Synchrony

/-!
# Making up for refused batches

A batch that the store refuses leaves its files unresolved and its removed files as tombstones, so a
later run offers them again. Two things are not offered again: the rows of the settings, and the
retraction of nodes without a file. Where no refused batch carried those, the first run whose
batches are all taken brings the store up to date.

Main results:

* `Accountable`: what is kept while batches are refused. `Mends` collects what is known of one run.
* `store_caught_up_of_reaches`: the store after a run that it took whole.
-/

namespace CodeAtlas

open SortedMap

variable {σ : Type} {names : Set String}

namespace Controller

variable {c c' : Controller σ} {k : Conditions} {changes : List FileChange} {full : Bool}
  {finished : List String} {r : Run σ} {report : RunReport}

/-! ## Refused batches -/

section

variable [Sink σ] [Mirror σ]

/-- A run without failures that can be made up for: a batch is refused only if the run neither
computes the edges of the settings nor forgets a node without a file that the store holds. -/
structure Mendable (k : Conditions) (changes : List FileChange) (full : Bool) (c : Controller σ)
    (report : RunReport) : Prop where
  calm : report.failures = [] ∧ report.cancelled = false
  sources : ∀ s, .modified s ∈ changes → s.path ≠ settingsFile
  refused : report.sinkFailures ≠ 0 → ∀ finished r, c.work k changes full = .ok (finished, r) →
    settingsFile ∉ finished ∧ ∀ id n, r.droppedIds.contains id = true →
      SymbolLookup.findId? r.table id = none →
        ∀ rows, HasRows c.sink rows → rows.nodes.get? id = some n → n.file ≠ ""

/-- All that a store holds is of the table, or a later run will replace or retract it. -/
structure Accountable (rows : MemoryStore) (c : Controller σ) : Prop where
  mirrored : c.Mirrored rows
  tracked : c.Tracked
  ledger : ∃ l, c.table.Records l
  /-- Without a record there are no edges. -/
  orphan : ∀ {p}, p ≠ settingsFile → c.records.get? p = none → rows.edgesOf p = []
  settings : rows.edgesOf settingsFile = c.table.edgesOf settingsFile
  bare : ∀ {id n}, rows.nodes.get? id = some n → n.file = "" →
    (SymbolLookup.findId? c.table id).isSome = true
  placed : ∀ {id n}, rows.nodes.get? id = some n → n.file ≠ "" →
    id = .ofFqn n.fqn ∧ (n.file ≠ settingsFile → c.records.contains n.file = true) ∧
      (n.fqn ∈ (c.table.files.getD n.file {}).fqns ∨
        n.file ≠ settingsFile ∧ ∀ x, c.records.get? n.file = some x → x.state ≠ .resolved)

variable {rows : MemoryStore} {taken refused : List Group}

/-- A calm run, with what is known of it. -/
structure Mends (names : Set String) (k : Conditions) (changes : List FileChange) (full : Bool)
    (c : Controller σ) (finished : List String) (r : Run σ) (report : RunReport)
    (c' : Controller σ) (rows : MemoryStore) (taken refused : List Group) : Prop where
  before : c.Accountable rows
  coherent : c.Coherent names
  kind : Mendable k changes full c report
  ran : Ran names k changes full c finished r report c'
  carries : Run.Carries (fun p => ∃ s ∈ (c.begun k changes full).2, s.path = p) (Run.start c full) r
  delivered : Run.Delivered k.now finished taken refused r report c'
  calm : r.Calm
  table : r.table.SameGraph c'.table

namespace Mends

variable (m : Mends names k changes full c finished r report c' rows taken refused)

include m

theorem sound : r.table.Sound names :=
  (m.ran.orderly.coherent m.coherent.distinct).sound

/-- Who is removed is not finished. -/
theorem not_mem_files {p : String} (hp : p ≠ settingsFile) (hx : r.records.get? p = none) :
    p ∉ finished := by
  intro hmem
  have hsk := sketches_of_worked m.ran.worked p hmem hp
  rw [Run.get?_sketches, hx] at hsk
  cases hsk

/-- The records after a calm run. -/
theorem tracked : c'.Tracked := by
  have hrecord {p x} := m.ran.record_of_calm (p := p) (x := x) m.coherent m.before.tracked m.calm
  refine ⟨fun {p x} hp hx => ?_, ?_⟩
  · rw [m.delivered.records] at hx
    split at hx
    · cases hx
      exact .inr (.inr (by simp [FileRecord.tombstone, FileRecord.isTombstone, hp]))
    · split at hx
      · next hmem =>
        obtain ⟨y, hy, rfl⟩ := Option.map_eq_some_iff.1 hx
        have hfin := (m.delivered.files p).2 (.inl hmem)
        obtain ⟨-, ⟨-, hstate⟩ | ⟨hnot, -⟩⟩ := hrecord hp hy
        · exact .inl (by simp [FileRecord.stored, hstate])
        · exact absurd hfin hnot
      · obtain ⟨hsk, ⟨-, hstate⟩ | ⟨-, hstate, -⟩⟩ := hrecord hp hx
        · exact .inr (.inl (by simp [FileRecord.isPending, hstate, hsk]))
        · exact .inl hstate
  · cases hf : c'.sketches.get? settingsFile with
    | none => rfl
    | some f =>
      rcases m.ran.sketches m.coherent hf with hf | ⟨s, hs, hpath, -⟩
      · cases m.before.tracked.settings.symm.trans hf
      · exact absurd hpath (m.kind.sources s hs)

theorem orphan {p : String} (hp : p ≠ settingsFile) (hx : c'.records.get? p = none) :
    (r.table.rowsAfter taken rows).edgesOf p = [] := by
  rw [m.delivered.records] at hx
  split at hx
  · cases hx
  · next hkept =>
    have hnone : r.records.get? p = none := by
      split at hx
      · exact Option.map_eq_none_iff.1 hx
      · exact hx
    have hfiles : p ∉ taken.flatMap (·.files) := fun hmem =>
      m.not_mem_files hp hnone ((m.delivered.files p).2 (.inl hmem))
    rw [Table.edgesOf_rowsAfter m.ran.orderly.owned hfiles]
    split
    · rfl
    · next htaken =>
      refine m.before.orphan hp ((m.ran.record_eq_none m.before.tracked hp hnone).resolve_left ?_)
      exact fun hmem => ((m.delivered.removed p).1 hmem).elim htaken hkept

/-- The settings are finished once, if at all. -/
theorem count_settings : finished.count settingsFile ≤ 1 := by
  obtain ⟨files, hfiles, hnodup, hsk⟩ := m.ran.worked.files
  have hnot : settingsFile ∉ files := by
    intro hmem
    obtain ⟨f, hf⟩ := Option.isSome_iff_exists.1 (hsk _ hmem).2
    rcases Run.Steps.sketches m.ran.worked.steps hf with hf | ⟨s, hs, hpath, -⟩
    · cases m.before.tracked.settings.symm.trans (begun_sketches hf)
    · exact m.kind.sources s (Run.takeChanges_due hs).2 hpath
  rcases hfiles with rfl | rfl <;> simp [List.count_eq_zero.2 hnot]

theorem settings :
    (r.table.rowsAfter taken rows).edgesOf settingsFile = c'.table.edgesOf settingsFile := by
  have hrem : settingsFile ∉ r.removed := fun hmem => (m.ran.forgets _ hmem).1 rfl
  have htaken : settingsFile ∉ taken.flatMap (·.removed) := fun hmem =>
    hrem ((m.delivered.removed _).2 (.inl hmem))
  rw [m.table.edges.edgesOf]
  by_cases hfin : settingsFile ∈ finished
  · -- their batch was taken, since otherwise they would not be finished
    have hnil : refused = [] := m.delivered.refused_eq_nil (by
      by_contra hfail
      exact (m.kind.refused hfail finished r m.ran.work).1 hfin)
    have hmem : settingsFile ∈ taken.flatMap (·.files) := by
      simpa [hnil] using (m.delivered.files settingsFile).1 hfin
    refine (Table.ShownIn.rowsAfter m.sound m.ran.orderly.owned (fun g hg id hid => ?_)
      ((m.delivered.sublist.count_le _).trans m.count_settings) htaken (.inl hmem)).edges
    exact ((m.delivered.drops id).1 (.inl (List.mem_flatMap.2 ⟨g, hg, hid⟩))).2
  · have hfiles : settingsFile ∉ taken.flatMap (·.files) := fun hmem =>
      hfin ((m.delivered.files _).2 (.inl hmem))
    rw [Table.edgesOf_rowsAfter m.ran.orderly.owned hfiles, if_neg htaken, m.before.settings]
    refine (m.carries.settings.resolve_left ?_).symm
    have hprep : Run.Prepared c (c.begun k changes full).1 := begun_prepared m.before.tracked
    rintro (hasks | hasks)
    · exact hfin ((m.ran.worked.complete m.calm).1 hasks)
    · rcases (Run.Steps.stays m.ran.worked.steps).own hasks with hasks | ⟨s, hs, hpath⟩
      · rw [hprep.settings.1] at hasks
        cases hasks
      · exact m.kind.sources s (Run.takeChanges_due hs).2 hpath

/-- A node of the store after the run was written from the table, or has been there before. -/
theorem node {id : SymbolId} {n : Symbol}
    (hn : (r.table.rowsAfter taken rows).nodes.get? id = some n) :
    (n.id = id ∧ r.table.symbols.get? n.fqn = some n ∧
      (n.file ≠ "" → n ∈ r.table.symbolsInFile n.file ∧ n.file ∈ finished)) ∨
    rows.nodes.get? id = some n ∧ n.file ∉ taken.flatMap (·.files) ∧
      n.file ∉ taken.flatMap (·.removed) ∧ id ∉ taken.flatMap (·.drops) := by
  rcases Table.of_get?_nodes_rowsAfter hn with ⟨g, hg, hmem, hid⟩ | ⟨hold, hrest⟩
  · refine .inl ⟨hid, m.sound.get?_of_mem_nodes hmem, fun hfile => ?_⟩
    obtain ⟨p, hp, hrow⟩ := List.mem_flatMap.1 hmem
    rcases List.mem_append.1 hrow with hrow | hrow
    · obtain rfl := (Table.mem_symbolsInFile hrow).1
      exact ⟨hrow, (m.delivered.files _).2 (.inl (List.mem_flatMap.2 ⟨g, hg, hp⟩))⟩
    · -- what is shared has no file
      obtain ⟨id', -, hid'⟩ := List.mem_filterMap.1 hrow
      have hshared := (Option.filter_eq_some_iff.1 hid').2
      simp only [Bool.and_eq_true, String.isEmpty_iff] at hshared
      exact absurd hshared.1 hfile
  · refine .inr ⟨hold, ?_, ?_, ?_⟩ <;> intro hmem <;> obtain ⟨g, hg, hmem⟩ := List.mem_flatMap.1 hmem
    · exact (hrest g hg).1 (List.mem_append_right _ hmem)
    · exact (hrest g hg).1 (List.mem_append_left _ hmem)
    · exact (hrest g hg).2 hmem

theorem bare {id : SymbolId} {n : Symbol}
    (hn : (r.table.rowsAfter taken rows).nodes.get? id = some n) (hfile : n.file = "") :
    (SymbolLookup.findId? c'.table id).isSome = true := by
  rw [m.table.symbols.findId?]
  rcases m.node hn with ⟨rfl, hget, -⟩ | ⟨hold, -, -, hdrop⟩
  · rw [m.sound.findId?_eq_some.2 ⟨hget, rfl⟩]
    rfl
  · obtain ⟨s, hs⟩ := Option.isSome_iff_exists.1 (m.before.bare hold hfile)
    obtain ⟨hget, rfl⟩ := m.coherent.sound.findId?_eq_some.1 hs
    have hid := (m.coherent.sound.symbol hget).2
    by_contra hnone
    have hnone : SymbolLookup.findId? r.table s.id = none := by simpa using hnone
    have hunknown : ¬r.table.symbols.contains s.fqn = true := by
      intro hc
      obtain ⟨s', hs'⟩ := contains_iff.1 hc
      obtain ⟨hfqn, hid'⟩ := m.sound.symbol hs'
      rw [m.sound.findId?_eq_some.2 ⟨hfqn ▸ hs', hid'.trans hid.symm⟩] at hnone
      cases hnone
    have hgone : r.droppedIds.contains s.id = true := by
      rw [hid]
      exact (m.carries.known (contains_of_get? hget)).resolve_left hunknown
    -- the batch that drops it was taken
    have hnil : refused = [] := m.delivered.refused_eq_nil (by
      by_contra hfail
      exact (m.kind.refused hfail finished r m.ran.work).2 _ n hgone hnone rows
        m.before.mirrored.rows hold hfile)
    refine hdrop ?_
    simpa [hnil] using (m.delivered.drops s.id).2 ⟨hgone, hnone⟩

/-- A file with a record keeps one after the delivery. -/
theorem contains_records {p : String} (hc : r.records.contains p = true) :
    c'.records.contains p = true := by
  rw [contains, m.delivered.records]
  split
  · rfl
  · split <;> simpa [contains] using hc

theorem placed {id : SymbolId} {n : Symbol}
    (hn : (r.table.rowsAfter taken rows).nodes.get? id = some n) (hfile : n.file ≠ "") :
    id = .ofFqn n.fqn ∧ (n.file ≠ settingsFile → c'.records.contains n.file = true) ∧
      (n.fqn ∈ (c'.table.files.getD n.file {}).fqns ∨
        n.file ≠ settingsFile ∧ ∀ x, c'.records.get? n.file = some x → x.state ≠ .resolved) := by
  have hentries : c'.table.files = r.table.files := m.table.symbols.files
  rw [hentries]
  rcases m.node hn with ⟨rfl, hget, hrow⟩ | ⟨hold, hfiles, hremoved, -⟩
  · obtain ⟨hmem, hfin⟩ := hrow hfile
    obtain ⟨-, fqn, hfqn, hget'⟩ := Table.mem_symbolsInFile hmem
    obtain ⟨rfl, hid⟩ := m.sound.symbol hget'
    refine ⟨hid, fun hne => m.contains_records ?_, .inl hfqn⟩
    by_contra hnone
    exact m.not_mem_files hne (contains_eq_false_iff.1 (by simpa using hnone)) hfin
  · obtain ⟨hid, hrec, hstored⟩ := m.before.placed hold hfile
    by_cases hset : n.file = settingsFile
    · -- the entry of the settings stays
      have hfqn := hstored.resolve_right fun h => h.1 hset
      refine ⟨hid, fun hne => absurd hset hne, .inl ?_⟩
      rw [hset] at hfqn ⊢
      cases hentry : c.table.files.get? settingsFile with
      | none =>
        rw [getD_of_none hentry] at hfqn
        cases hfqn
      | some e =>
        rw [getD_of_get? hentry] at hfqn
        rcases m.carries.entry hentry with hkept | ⟨s, hs, hpath⟩
        · rwa [getD_of_get? hkept]
        · exact absurd hpath (m.kind.sources s (Run.takeChanges_due hs).2)
    · cases hx : r.records.get? n.file with
      | some x =>
        refine ⟨hid, fun _ => m.contains_records (contains_of_get? hx), ?_⟩
        obtain ⟨-, ⟨hfin, hstate⟩ | ⟨-, hstate, hx₀⟩⟩ :=
          m.ran.record_of_calm m.coherent m.before.tracked m.calm hset hx
        · -- its batch was refused
          refine .inr ⟨hset, fun y hy => ?_⟩
          rw [m.delivered.records, if_neg hfiles, hx] at hy
          split at hy <;> cases hy
          · simp [FileRecord.tombstone]
          · simp [hstate]
        · left
          have hfqn := hstored.resolve_right fun h => h.2 x hx₀ hstate
          have hkeeps := (m.carries.keeps n.file hset).resolve_right fun h => h x hx hstate
          rwa [getD, hkeeps.entry]
      | none =>
        have hmem := (m.ran.record_eq_none m.before.tracked hset hx).resolve_right fun hnone => by
          have := hrec hset
          rw [contains, hnone] at this
          cases this
        have hburied : c'.records.get? n.file = some (.tombstone n.file) := by
          rw [m.delivered.records, if_pos (((m.delivered.removed _).1 hmem).resolve_left hremoved)]
        refine ⟨hid, fun _ => contains_of_get? hburied, .inr ⟨hset, fun y hy => ?_⟩⟩
        cases hburied.symm.trans hy
        simp [FileRecord.tombstone]

/-- If no batch is refused, every file is resolved. -/
theorem resolved (hok : report.sinkFailures = 0) {p : String} {x : FileRecord}
    (hp : p ≠ settingsFile) (hx : c'.records.get? p = some x) : x.state = .resolved := by
  have hnil := m.delivered.refused_eq_nil hok
  have hrecord {y} := m.ran.record_of_calm (p := p) (x := y) m.coherent m.before.tracked m.calm hp
  have hfiles := m.delivered.files p
  rw [m.delivered.records] at hx
  simp only [hnil, List.flatMap_nil, List.not_mem_nil, if_false, or_false] at hx hfiles
  split at hx
  · next hmem =>
    obtain ⟨y, hy, rfl⟩ := Option.map_eq_some_iff.1 hx
    obtain ⟨-, ⟨-, hstate⟩ | ⟨hnot, -⟩⟩ := hrecord hy
    · simp [FileRecord.stored, hstate]
    · exact absurd (hfiles.2 hmem) hnot
  · next hmem =>
    obtain ⟨-, ⟨hfin, -⟩ | ⟨-, hstate, -⟩⟩ := hrecord hx
    · exact absurd (hfiles.1 hfin) hmem
    · exact hstate

end Mends

/-- Where all files are resolved the store has the edges of the table and no node besides. -/
theorem Accountable.caught_up (h : c.Accountable rows) (hc : c.Coherent names)
    (hresolved : ∀ {p x}, p ≠ settingsFile → c.records.get? p = some x → x.state = .resolved) :
    (∀ o, rows.edgesOf o = c.table.edgesOf o) ∧
      ∀ id, rows.nodes.contains id = true →
        (SymbolLookup.findId? c.table id).isSome = true := by
  constructor
  · intro o
    by_cases ho : o = settingsFile
    · rw [ho, h.settings]
    · cases hx : c.records.get? o with
      | some x => exact (h.mirrored.shows o x ho hx (hresolved ho hx)).edges
      | none =>
        rw [h.orphan ho hx]
        by_contra hne
        have := hc.recorded ho (Ne.symm hne)
        rw [contains, hx] at this
        cases this
  · intro id hid
    obtain ⟨n, hn⟩ := contains_iff.1 hid
    by_cases hfile : n.file = ""
    · exact h.bare hn hfile
    · obtain ⟨rfl, hrec, hlisted⟩ := h.placed hn hfile
      have hmem := hlisted.resolve_right fun hopen => by
        obtain ⟨x, hx⟩ := contains_iff.1 (hrec hopen.1)
        exact hopen.2 x hx (hresolved hopen.1 hx)
      obtain ⟨l, hl⟩ := h.ledger
      obtain ⟨s, hs⟩ := contains_iff.1 (hl.contains_of_listed hmem)
      obtain ⟨hfqn, hid⟩ := hc.sound.symbol hs
      rw [hc.sound.findId?_eq_some.2 ⟨hfqn ▸ hs, hid.trans (hfqn ▸ rfl)⟩]
      rfl

theorem Ran.accountable (hc : c.Coherent names) (hw : c.Within names k changes full)
    (hsteady : Plugin.Steady c.plugins c.settings.enrichment)
    (hkind : Mendable k changes full c report) (h : c.Accountable rows)
    (hran : Ran names k changes full c finished r report c') :
    ∃ taken refused, c'.Accountable (r.table.rowsAfter taken rows) ∧
      Mends names k changes full c finished r report c' rows taken refused := by
  have hun : Unclaimed k changes full c report := fun _ => hkind.sources
  obtain ⟨taken, refused, hdel⟩ := hran.delivered_groups
  have hoffers := hran.offers
  have m : Mends names k changes full c finished r report c' rows taken refused :=
    { before := h, coherent := hc, kind := hkind, ran := hran, delivered := hdel
      carries := (hran.carries hc hw hsteady hun h.mirrored.ownsNode).1
      calm := by
        rw [Run.Calm, ← hoffers.failures, ← hoffers.reportCancelled]
        exact hkind.calm
      table := hoffers.table }
  obtain ⟨l, hl⟩ := Run.Steps.accounted hran.worked.steps (hw.covered hc)
    (begun_accounted h.ledger k changes full)
  exact ⟨taken, refused, ⟨hran.mirrored hc hw hsteady hun h.mirrored hdel, m.tracked,
    ⟨l, hl.of_sameSymbols hoffers.table.symbols⟩, m.orphan, m.settings, m.bare, m.placed⟩, m⟩

variable {c₀ : Controller σ}

theorem Reaches.accountable {Q : σ → σ → Prop} (hnew : c₀.IsNew) (hempty : HasRows c₀.sink {})
    (hsteady : Plugin.Steady c₀.plugins c₀.settings.enrichment)
    (hinj : Set.InjOn SymbolId.ofFqn names)
    (hQ : ∀ {s s' : σ} {m}, Q s s' → HasRows s m → HasRows s' m)
    (h : Reaches names Mendable Q c₀ c) : ∃ rows, c.Accountable rows := by
  refine h.induct (I := fun c => ∃ rows, c.Accountable rows) hnew.orderly ⟨{}, ?_⟩
    (fun hc hsame hw hkind ⟨rows, h⟩ hran => ?_) fun hsink ⟨rows, h⟩ => ⟨rows, ?_⟩
  · have hrec {p x} : c₀.records.get? p ≠ some x := by
      rw [hnew.records]
      nofun
    have howns : c₀.OwnsNode := by
      intro hfile
      rw [hnew.table] at hfile
      cases hfile
    exact
      { mirrored := ⟨hempty, fun p x _ hx => (hrec hx).elim, howns⟩
        tracked := ⟨fun _ hx => (hrec hx).elim, by rw [Run.get?_sketches, hnew.records]; rfl⟩
        ledger := ⟨[], hnew.table ▸ .empty⟩
        orphan := fun _ _ => rfl
        settings := by rw [hnew.table]; rfl
        bare := nofun
        placed := nofun }
  · obtain ⟨taken, refused, hacc, -⟩ :=
      hran.accountable (hc.coherent hinj) hw (by rwa [hsame.plugins, hsame.settings]) hkind h
    exact ⟨_, hacc⟩
  · exact
      { h with
        mirrored := ⟨hQ hsink h.mirrored.rows, h.mirrored.shows, h.mirrored.ownsNode⟩
        tracked := ⟨h.tracked.record, h.tracked.settings⟩ }

end

/-- A project starts over an empty store in memory and meets no failure and no cancellation, but
batches may be refused. After the next run whose batches are all accepted the store has the edges of
every owner as the table has them, and no node that the table does not know. -/
theorem store_caught_up_of_reaches {c₀ c c' : Controller MemoryStore} {k : Conditions}
    {changes : List FileChange} {full : Bool} {report : RunReport} (hnew : c₀.IsNew)
    (hempty : c₀.sink.SameRows {}) (hsteady : Plugin.Steady c₀.plugins c₀.settings.enrichment)
    (hinj : Set.InjOn SymbolId.ofFqn names)
    (h : Reaches names Mendable MemoryStore.SameRows c₀ c) (hw : c.Within names k changes full)
    (hkind : Mendable k changes full c report) (hrun : c.run k changes full = .ok (report, c'))
    (hok : report.sinkFailures = 0) : (∀ o, c'.sink.edgesOf o = c'.table.edgesOf o) ∧
      ∀ id, c'.sink.nodes.contains id = true → (SymbolLookup.findId? c'.table id).isSome = true := by
  obtain ⟨hc, hsame⟩ := h.coherent_sameKind (hnew.coherent hinj)
  obtain ⟨finished, r, hran⟩ := ran_of_run hc hw hrun
  have hempty' : MemoryStore.SameRows {} c₀.sink := ⟨hempty.nodes.symm, hempty.edges.symm⟩
  have hsteady' : Plugin.Steady c.plugins c.settings.enrichment := by
    rwa [hsame.plugins, hsame.settings]
  obtain ⟨rows, hrows⟩ := h.accountable hnew (MemoryStore.hasRows_iff.2 hempty') hsteady hinj
    fun hs hm => MemoryStore.hasRows_iff.2 ((MemoryStore.hasRows_iff.1 hm).trans hs)
  obtain ⟨taken, refused, hacc, m⟩ := hran.accountable hc hw hsteady' hkind hrows
  have hsame := MemoryStore.hasRows_iff.1 hacc.mirrored.rows
  obtain ⟨hedges, hnodes⟩ := hacc.caught_up
    ((h.run hw hkind hrun).coherent_sameKind (hnew.coherent hinj)).1 (m.resolved hok)
  refine ⟨fun o => (hsame.edgesOf o).trans (hedges o), fun id hid => hnodes id ?_⟩
  rwa [hsame.nodes] at hid

/-- Two files that refer to the first one, and a store that refuses what the first run offers. -/
def refused : Controller MemoryStore :=
  { ofSketches [.extending "a.go" "a.go", .extending "b.go" "a.go"] with
    settings := { pipeline := { sinkRetries := 0 } }, sink := { rejections := 1 } }

theorem runs_refused : ([settingsFile, "a.go", "b.go"].map SymbolId.ofFqn).Nodup ∧
    refused.usesOnly [settingsFile, "a.go", "b.go"] {} [.seen "a.go", .seen "b.go"] false = true ∧
    (∃ x, refused.work {} [.seen "a.go", .seen "b.go"] false = .ok x ∧
      settingsFile ∉ x.1 ∧ x.2.droppedIds.keys = []) ∧
    ∃ x, refused.run {} [.seen "a.go", .seen "b.go"] false = .ok x ∧
      (x.1.failures = [] ∧ x.1.cancelled = false) ∧ x.2.sink.allEdges.length = 0 ∧
      x.2.usesOnly [settingsFile, "a.go", "b.go"] {} [.removed "a.go"] false = true ∧
      ∃ y, x.2.run {} [.removed "a.go"] false = .ok y ∧
        (y.1.failures = [] ∧ y.1.cancelled = false) ∧ y.1.sinkFailures = 0 ∧
        y.2.sink.allEdges.length = 1 := by
  decide +kernel

/-- After the first run the store has no edge. The next run, in which the first file is removed, makes
up for it: the store has the edge of the second file. -/
theorem store_caught_up_of_reaches_refused : ∃ c c' report,
    Reaches {n | n ∈ [settingsFile, "a.go", "b.go"]} Mendable MemoryStore.SameRows refused c ∧
    c.sink.allEdges.length = 0 ∧ c.run {} [.removed "a.go"] false = .ok (report, c') ∧
    report.sinkFailures = 0 ∧ c'.sink.allEdges.length = 1 ∧
    (∀ o, c'.sink.edgesOf o = c'.table.edgesOf o) ∧
      ∀ id, c'.sink.nodes.contains id = true → (SymbolLookup.findId? c'.table id).isSome = true := by
  obtain ⟨hnodup, huses, ⟨⟨finished, r⟩, hwork, hset, hdropped⟩, ⟨report, c⟩, hrun, hcalm, hempty,
    huses', ⟨report', c'⟩, hrun', hcalm', hok, hedges⟩ := runs_refused
  have hkind : Mendable {} [.seen "a.go", .seen "b.go"] false refused report := by
    refine ⟨hcalm, by decide, fun _ finished' r' hwork' => ?_⟩
    cases hwork.symm.trans hwork'
    refine ⟨hset, fun id n hid => ?_⟩
    rw [← SortedMap.mem_keys, hdropped] at hid
    cases hid
  have hreach : Reaches {n | n ∈ [settingsFile, "a.go", "b.go"]} Mendable MemoryStore.SameRows
      refused c :=
    .run .start (within_of_usesOnly huses) hkind hrun
  exact ⟨c, c', report', hreach, hempty, hrun', hok, hedges,
    store_caught_up_of_reaches ⟨rfl, rfl, rfl⟩ ⟨rfl, rfl⟩
      (Plugin.steady_of_subset_standard (List.Subset.refl _) _) (injOn_ofFqn hnodup) hreach
      (within_of_usesOnly huses') ⟨hcalm', by decide, fun hrefused => absurd hok hrefused⟩ hrun' hok⟩

end Controller

end CodeAtlas
