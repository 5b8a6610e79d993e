import Mathlib
import CodeAtlas.Proofs.Project.Closing
import CodeAtlas.Proofs.Project.Restoring
import CodeAtlas.Proofs.Project.Retries

/-!
# Repairing what was left out

A restored project leaves out the edges of an owner that it cannot trust or of which an end is
unknown. What the next run goes by is the mark that this leaves: on the settings, on the record of a
file, or in a record of its own for a file that has none. A file that failed to be collected gets no
mark, although its edges are trusted like those of a resolved file and are left out like them.

Main results:

* `Readied.orderly`, `Readied.awaits_iff`: a restored project is in order, and what is left out is
  marked unless it failed.
* `Awaits.takesUp`, `Awaits.repaired`: the next run takes up what is marked, and repairs it.
* `left_out_repaired`: so it is with all that is left out, unless it failed.
-/

namespace CodeAtlas

open SortedMap SymbolLookup

variable {σ : Type} {names : Set String}

/-! ## The restored project -/

namespace StoredState

variable {stored : StoredState} {p : String} {x : FileRecord}

/-- The last collection of a file failed, by what the store kept. -/
def Failed (stored : StoredState) (owner : String) : Prop :=
  owner ≠ settingsFile ∧ ∃ x, stored.record? owner = some x ∧ x.state = .failed

theorem mem_records_of_record? (h : stored.record? p = some x) : x ∈ stored.records :=
  List.mem_mergeSort.1 (mem_catalogue_of_record? h).1

end StoredState

namespace Controller

variable {c c' c₁ c₂ : Controller σ} {owner : String} {stored : StoredState}

/-- Restoring a new project readies it, then takes over edges. -/
theorem restore_readied (hnew : c.IsNew) (hok : c.restore stored = .ok c') : ∃ c₁ c₂,
    c₁.Readied stored ∧ (byOwner stored.edges).entries.foldlM restoreOwner c₁ = .ok c₂ ∧
      c' = { c₂ with table := c₂.table.takeDiagnostics.2 } := by
  rcases restore_cases hnew stored with ⟨halt, hhalt, -⟩ | ⟨c₁, c₂, hready, howners, hok'⟩
  · cases hok.symm.trans hhalt
  · exact ⟨c₁, c₂, hready, howners, Except.ok.inj (hok.symm.trans hok')⟩

/-- A record that restoring edges has left can stand under its path. -/
theorem Restates.ok {p : String} {o : Option FileRecord} {x : FileRecord}
    (h : Restates p o (some x)) (ho : ∀ y, o = some y → y.Ok p) : x.Ok p := by
  cases h with
  | same => exact ho x rfl
  | buried => exact ⟨rfl, fun hf => (by cases hf), fun hr => by cases hr⟩
  | @outdated y _ =>
    exact ⟨(ho y rfl).path_eq, fun hf => (ho y rfl).sketches hf, fun hr => by cases hr⟩

theorem Restates.isSome {p : String} {o o' : Option FileRecord} (h : Restates p o o')
    (ho : o.isSome = true) : o'.isSome = true := by
  cases h with
  | same => exact ho
  | buried | outdated => rfl

theorem Restates.state_eq_failed {p : String} {o : Option FileRecord} {x : FileRecord}
    (h : Restates p o (some x)) : x.state = .failed ↔ ∃ y, o = some y ∧ y.state = .failed := by
  cases h with
  | same => simp
  | buried => simp [FileRecord.tombstone]
  | outdated hres => simp [hres]

/-- A project is in order after the edges have been taken over. -/
theorem Readied.orderly (h : c₁.Readied stored)
    (hcol : ∀ x ∈ stored.records, x.path ≠ settingsFile → x.IsCollected)
    (hok : (byOwner stored.edges).entries.foldlM restoreOwner c₁ = .ok c₂) :
    c₂.Orderly Set.univ := by
  obtain ⟨c₃, hok₃, hintact, hsame, hrecords, -⟩ :=
    foldlM_restoreOwner_byOwner h.table stored.edges
  cases hok.symm.trans hok₃
  obtain ⟨c₃, hok₃, -, hrestored⟩ := restoreOwners_ok h.table h.records
  cases hok.symm.trans hok₃
  have hold : ∀ {p x}, c₁.records.get? p = some x → x.Ok p := by
    intro p x hx
    rw [h.records] at hx
    have hpath := (StoredState.mem_catalogue_of_record? hx).2
    exact ⟨hpath, h.sketches hx,
      fun _ hne => (hcol x (StoredState.mem_records_of_record? hx) (hpath ▸ hne)).1⟩
  refine ⟨h.table.orderly.of_same hsame, hintact.counted, fun {o e} he => ?_,
    fun {o} hne hedges => ?_, fun {p x} hx => ?_⟩
  · rcases hrestored.owners o with hnil | ⟨heq, -⟩
    · rw [hnil] at he
      cases he
    · rw [heq] at he
      have hmem := Table.mem_sort.1 (Table.mem_of_mem_dropRepeats he)
      exact beq_iff_eq.1 (List.mem_filter.1 hmem).2
  · obtain ⟨-, hv⟩ := (hrestored.owners o).resolve_left hedges
    obtain ⟨x, hx, -⟩ := hv.resolve_left hne
    rw [← h.records] at hx
    exact (hrecords o).isSome (by rw [hx]; rfl)
  · have hrestates := hrecords p
    rw [hx] at hrestates
    exact hrestates.ok fun y hy => hold hy

/-- An owner that kept edges in the store and has none in the table is marked, unless it failed. -/
theorem Readied.awaits_iff (h : c₁.Readied stored)
    (hcol : ∀ x ∈ stored.records, x.path ≠ settingsFile → x.IsCollected)
    (hok : (byOwner stored.edges).entries.foldlM restoreOwner c₁ = .ok c₂)
    (howns : ∃ e ∈ stored.edges, e.owner = owner) (hleft : c₂.table.edgesOf owner = []) :
    c₂.Awaits owner ↔ ¬stored.Failed owner := by
  obtain ⟨e, he, ho⟩ := howns
  have hmem : e ∈ stored.edges.filter fun e => e.owner == owner :=
    List.mem_filter.2 ⟨he, beq_iff_eq.2 ho⟩
  obtain ⟨c₃, hok₃, -, -, hrecords, howned⟩ := foldlM_restoreOwner_byOwner h.table stored.edges
  cases hok.symm.trans hok₃
  obtain ⟨htaken, -, hmarks⟩ := howned owner
  have hfailed : c₁.Failed owner ↔ stored.Failed owner := by
    unfold Failed StoredState.Failed
    rw [h.records]
  constructor
  · rintro hawaits ⟨hne, y, hy, hstate⟩
    rw [← h.records] at hy
    have hrestates := hrecords owner
    cases hawaits with
    | settings heq => exact hne heq
    | gone _ hx =>
      rw [hx] at hrestates
      cases hrestates.state_eq_failed.2 ⟨y, hy, hstate⟩
    | @pending _ x hx hp =>
      rw [hx] at hrestates
      simp [FileRecord.isPending, hrestates.state_eq_failed.2 ⟨y, hy, hstate⟩] at hp
  · intro hnot
    refine (hmarks (List.ne_nil_of_mem hmem) (fun hne x hx => ?_) fun hboth => ?_).resolve_right
      (mt hfailed.1 hnot)
    · rw [h.records] at hx
      exact hcol x (StoredState.mem_records_of_record? hx)
        ((StoredState.mem_catalogue_of_record? hx).2 ▸ hne)
    · -- edges that are taken over are not lost
      obtain ⟨e', he', -⟩ := Table.exists_target_dropRepeats (Table.mem_sort.2 hmem)
      rw [← htaken hboth.1 hboth.2, hleft] at he'
      cases he'

end Controller

/-! ## The next run -/

namespace Run

variable {k : Conditions} {r r' : Run σ}

theorem foldl_clearFile_files (l : List String) (r : Run σ) :
    (l.foldl clearFile r).table.files = r.table.files := by
  induction l generalizing r with
  | nil => rfl
  | cons path rest ih => exact (ih _).trans (Table.clearEdges_rewires ..).same.files

/-- Without sources the first pass only deletes edges. -/
theorem collect_no_sources (k : Conditions) (r : Run σ) : r.collect k [] = .ok r.clearAffected :=
  rfl

theorem clearAffected_files (r : Run σ) : r.clearAffected.table.files = r.table.files := by
  have hfold := foldl_clearFile_files r.affected.toList r
  unfold clearAffected
  dsimp only
  split
  · exact (Table.clearEdges_rewires ..).same.files.trans hfold
  · exact hfold

/-- The later passes give no file an entry and take none away. -/
theorem resolve_files {finished : List String} (hok : r.resolve k = .ok (finished, r')) :
    r'.table.files = r.table.files := by
  unfold resolve at hok
  dsimp only at hok
  refine (foldlM_takeResult_table hok).1.files.trans ?_
  exact (runPass_spec k .resolve _ r fun f t => Table.foldl_teach_taught _ t).2.1.files

theorem enrich_files {resolved finished : List String}
    (hok : r.enrich k resolved = .ok (finished, r')) : r'.table.files = r.table.files := by
  unfold enrich at hok
  dsimp only at hok
  split at hok
  · cases hok
    rfl
  · refine (foldlM_takeResult_table hok).1.files.trans ?_
    exact (runPass_spec k .enrich _ r fun f t => runOn_taught ..).2.1.files

/-- A run is to see to an owner: to the edges of the settings, to the rows of a file that is gone,
or to the edges of a file with sketches. -/
inductive TakesUp (r : Run σ) (owner : String) : Prop
  | settings (eq : owner = settingsFile) (asked : r.settingsAffected = true)
  | gone (removed : owner ∈ r.removed)
  | pending (queued : r.affected.contains owner = true)
      (sketches : (r.sketches.get? owner).isSome = true)

end Run

namespace Controller

variable {c c' : Controller σ} {k : Conditions} {owner p : String} {x : FileRecord} {full : Bool}

/-- Without changes no file is to be collected. -/
theorem begun_due (k : Conditions) (full : Bool) (c : Controller σ) : (c.begun k [] full).2 = [] :=
  List.eq_nil_iff_forall_not_mem.2 fun s hs => by cases (Run.takeChanges_due hs).2

/-- Without changes only files that are gone are removed. -/
theorem begun_removed (hp : p ∈ (c.begun k [] full).1.removed) :
    ∃ x, c.records.get? p = some x ∧ x.isTombstone = true := by
  have hne : p ≠ settingsFile := (begun_forgets p hp).1
  rcases Run.takeChanges_removed _ _ p hp with hp | hp
  · rw [checkSettings_removed] at hp
    cases hp
  · have hburied : (((Run.start c full).checkSettings k.now).records.filter
        fun _ x => x.isTombstone).contains p = true := by
      rw [← mem_keys, ← StringSet.contains_ofList]
      exact hp
    obtain ⟨x, hx⟩ := contains_iff.1 hburied
    rw [get?_filter, Option.filter_eq_some_iff] at hx
    obtain ⟨hx, ht⟩ := hx
    rcases Run.checkSettings_cases (Run.start c full) k.now with heq | ⟨paths, r₁, hpaths, hm, hr⟩
    · rw [heq] at hx
      exact ⟨x, hx, ht⟩
    · rw [hr.records p hne] at hx
      have hx := (hm.records p).symm.trans hx
      split at hx
      · next hmarked =>
        -- changed settings only mark files with sketches
        obtain ⟨y, hy, hsome⟩ := (hpaths p).1 hmarked.1
        rw [hy] at hx
        cases hx
        simp_all [FileRecord.isTombstone]
      · exact ⟨x, hx, ht⟩

/-- A file that is gone is removed once more. -/
theorem begun_buried (hne : p ≠ settingsFile) (hx : c.records.get? p = some (.tombstone p)) :
    p ∈ (c.begun k [] full).1.removed := by
  refine (begun_tombstone hne hx ?_).resolve_right ?_
  · simpa [FileRecord.isTombstone, FileRecord.tombstone] using hne
  · simp [begun_due]

theorem begun_keeps_pending (hx : c.records.get? p = some x) (hp : x.isPending = true) :
    p ∉ (c.begun k [] full).1.removed := by
  intro hremoved
  obtain ⟨y, hy, ht⟩ := begun_removed hremoved
  cases hx.symm.trans hy
  simp only [FileRecord.isPending, FileRecord.isTombstone, Bool.and_eq_true] at hp ht
  simp [Option.isNone_iff_eq_none.1 ht.1.1] at hp

/-- The next run takes up what is marked. -/
theorem Awaits.takesUp (h : c.Awaits owner) (k : Conditions) :
    (c.begun k [] false).1.TakesUp owner := by
  cases h with
  | settings heq hdirty =>
    refine .settings heq (begun_asks ?_ k [])
    simpa [Run.start] using hdirty
  | gone hne hx => exact .gone (begun_buried hne hx)
  | @pending hne x hx hp =>
    obtain ⟨ha, hsome⟩ := (begun_queues hne hx hp).resolve_left (begun_keeps_pending hx hp)
    refine .pending ha ?_
    rwa [get?_sketches_eq_map, Option.isSome_map]

/-- What a run without changes did for an owner, by the mark that the owner had. -/
inductive Repaired (k : Conditions) (c : Controller σ) (report : RunReport) (c' : Controller σ)
    (owner : String) : Prop
  /-- The edges of the settings are those that they declare on the symbols after the passes. -/
  | settings (eq : owner = settingsFile) {files : List String} {r : Run σ}
      (passed : c.passed k [] false = .ok (files, r))
      (edges : c'.table.edgesOf owner = Table.dropRepeats (Edge.sort r.declared))
  /-- The store was asked to take back the rows of a file; if it refused, this is remembered. -/
  | gone (ne : owner ≠ settingsFile) (mark : c.records.get? owner = some (.tombstone owner))
      {finished : List String} {r : Run σ} (work : c.work k [] false = .ok (finished, r))
      {b : Batch} (offered : b ∈ r.offered finished) (retracted : owner ∈ b.retract)
      (record : c'.records.get? owner = none ∨ c'.records.get? owner = some (.tombstone owner))
  /-- The file was resolved, or the second or the third pass failed on it. -/
  | pending (ne : owner ≠ settingsFile) {x : FileRecord} (mark : c.records.get? owner = some x)
      (pending : x.isPending = true) (answer : owner ∈ report.resolved ∨
        ∃ f ∈ report.failures, f.path = owner ∧ f.pass ≠ .collect)

variable [Sink σ] {report : RunReport} {finished : List String} {r : Run σ}

omit [Sink σ] in
/-- A run without changes keeps the node of the settings up to the end of its passes. -/
theorem passed_settings {files : List String} (hc : c.Orderly names)
    (hnode : c.table.containsFile settingsFile = true)
    (hpassed : c.passed k [] full = .ok (files, r)) : r.table.containsFile settingsFile = true := by
  obtain ⟨r₁, resolved, r₂, hcol, hres, henr⟩ := passed_eq_ok.1 hpassed
  rw [begun_due, Run.collect_no_sources] at hcol
  have hcol : (c.begun k [] full).1.clearAffected = r₁ := Except.ok.inj hcol
  rw [Table.containsFile, Run.enrich_files henr, Run.resolve_files hres, ← hcol,
    Run.clearAffected_files, contains, begun_entry hc]
  exact hnode

theorem Ran.recomputes (hc : c.Orderly Set.univ) (hnode : c.table.containsFile settingsFile = true)
    (hdirty : c.settingsDirty = true) (hran : Ran Set.univ k [] false c finished r report c')
    (hcancelled : report.cancelled = false) : Repaired k c report c' settingsFile := by
  have hoffers := hran.offers
  obtain ⟨files, r₀, -, hpassed, -⟩ := work_eq_ok hran.work
  have hclosed := hran.closed_of_passed hc (c.within_univ k [] false)
    (begun_asks (by simpa [Run.start] using hdirty) k []) (hoffers.reportCancelled ▸ hcancelled)
    hpassed (.inl (passed_settings hc hnode hpassed))
  refine .settings rfl hpassed ?_
  rw [hoffers.table.edges.edgesOf]
  exact hclosed.settles.edges

theorem Ran.retracts (hran : Ran names k [] false c finished r report c')
    (hne : owner ≠ settingsFile) (hx : c.records.get? owner = some (.tombstone owner)) :
    Repaired k c report c' owner := by
  have hremoved : owner ∈ r.removed := by
    rw [(Run.Steps.stays hran.worked.steps).removed]
    exact begun_buried hne hx
  obtain ⟨b, hb, hmem⟩ := List.mem_flatMap.1
    ((Run.mem_retract_batches r.table _ r.removed finished _ owner).2 (.inl hremoved))
  refine .gone hne hx hran.work hb hmem ?_
  have hrecord := Run.deliver_records k.now finished hran.forgets owner
  rw [hran.delivered, (hran.forgets owner hremoved).2] at hrecord
  rcases hrecord with hx | ⟨-, hx⟩ | ⟨-, hx⟩
  · exact .inl hx
  · exact .inl hx
  · exact .inr hx

/-- What is marked is repaired by the next run, unless that is cancelled. -/
theorem Awaits.repaired (h : c.Awaits owner) (hc : c.Orderly Set.univ)
    (hnode : owner = settingsFile → c.table.containsFile settingsFile = true)
    (hrun : c.apply k [] = .ok (report, c')) (hcancelled : report.cancelled = false) :
    Repaired k c report c' owner := by
  obtain ⟨finished, r, hran⟩ := ran_of_run hc (c.within_univ k [] false) hrun
  cases h with
  | settings heq hdirty =>
    subst heq
    exact hran.recomputes hc (hnode rfl) hdirty hcancelled
  | gone hne hx => exact hran.retracts hne hx
  | pending hne hx hp =>
    exact .pending hne hx hp (hran.resolves hne hx hp (begun_keeps_pending hx hp) hcancelled)

end Controller

/-! ## All that is left out -/

namespace Controller

/-- Whatever records, placeholders and edges a store kept: if restoring a project leaves out the
edges of an owner, the owner is marked, exactly if it did not fail to be collected. What is marked
is taken up by the next run, though there are no changes, and repaired if that run ends without a
halt and is not cancelled. -/
theorem left_out_repaired [Sink σ] {stored : StoredState} {c c' : Controller σ} {owner : String}
    (hnew : c.IsNew) (hcol : ∀ x ∈ stored.records, x.path ≠ settingsFile → x.IsCollected)
    (hok : c.restore stored = .ok c') (howns : ∃ e ∈ stored.edges, e.owner = owner)
    (hleft : c'.table.edgesOf owner = []) (k : Conditions) :
    (c'.Awaits owner ↔ ¬stored.Failed owner) ∧ (c'.Awaits owner →
      (c'.begun k [] false).1.TakesUp owner ∧ ∀ report c'', c'.apply k [] = .ok (report, c'') →
        report.cancelled = false → Repaired k c' report c'' owner) := by
  obtain ⟨c₁, c₂, hready, howners, rfl⟩ := restore_readied hnew hok
  have hc₂ := hready.orderly hcol howners
  obtain ⟨c₃, howners₃, -, hsame, -⟩ := foldlM_restoreOwner_byOwner hready.table stored.edges
  cases howners.symm.trans howners₃
  -- the diagnostics that are taken out of the table matter to none of this
  have hawaits : ∀ {t : Table} {o : String}, { c₂ with table := t }.Awaits o ↔ c₂.Awaits o :=
    fun {t o} => ⟨fun h => h.of_kept rfl id, fun h => h.of_kept rfl id⟩
  refine ⟨hawaits.trans (hready.awaits_iff hcol howners howns hleft),
    fun h => ⟨h.takesUp k, fun report c'' hrun hcancelled => h.repaired ?_ ?_ hrun hcancelled⟩⟩
  · have hgraph : c₂.table.SameGraph c₂.table.takeDiagnostics.2 := .setDiagnostics ..
    exact ⟨hc₂.table.of_same hgraph.symbols, hc₂.counted.of_same hgraph.edges, hc₂.owned,
      hc₂.recorded, hc₂.record⟩
  · rintro rfl
    have hnode := hready.settings howns
    rw [Table.containsFile, ← hsame.files] at hnode
    exact hnode

/-- A store with a record of a file, and with an edge of the file between unknown symbols. -/
def severed (state : FileState) : StoredState :=
  { records := [{ path := "a.go", language := "go", fingerprint := "", state, seq := 1
                  sketches := some (.extending "a.go" "a.go") }]
    edges := [.ofScore .extendsType ⟨""⟩ ⟨""⟩ Confidence.exact "a.go" 1] }

theorem owns_severed (state : FileState) : ∃ e ∈ (severed state).edges, e.owner = "a.go" :=
  ⟨_, List.mem_singleton_self _, rfl⟩

theorem restore_severed : (∃ c, (ofSketches []).restore (severed .collected) = .ok c ∧
      (c.table.edgesOf "a.go").length = 0 ∧
      ∃ x, c.apply {} [] = .ok x ∧ x.1.cancelled = false) ∧
    ∃ c, (ofSketches []).restore (severed .failed) = .ok c ∧
      (c.table.edgesOf "a.go").length = 0 ∧
      (c.records.get? "a.go").map (·.state) = some .failed ∧
      (c.begun {} [] false).1.removed = [] ∧
      (c.begun {} [] false).1.affected.contains "a.go" = false ∧
      ∃ x, c.apply {} [] = .ok x ∧
        x.1.resolved = [] ∧ x.1.failures = [] ∧ (x.2.table.edgesOf "a.go").length = 0 := by
  decide +kernel

/-- The edge of a collected file is left out; the next run resolves the file. -/
theorem left_out_repaired_collected : ∃ c,
    (ofSketches []).restore (severed .collected) = .ok c ∧ c.table.edgesOf "a.go" = [] ∧
      c.Awaits "a.go" ∧ (c.begun {} [] false).1.TakesUp "a.go" ∧
      ∃ report c', c.apply {} [] = .ok (report, c') ∧ Repaired {} c report c' "a.go" := by
  obtain ⟨c, hok, hleft, ⟨report, c'⟩, hrun, hcancelled⟩ := restore_severed.1
  have hrecords : ∀ x ∈ (severed .collected).records, x.IsCollected ∧ x.state ≠ .failed := by
    intro x hx
    obtain rfl := List.mem_singleton.1 hx
    exact ⟨⟨rfl, by decide⟩, by decide⟩
  obtain ⟨hiff, hrepaired⟩ := left_out_repaired (isNew_ofSketches [])
    (fun x hx _ => (hrecords x hx).1) hok (owns_severed _) (List.length_eq_zero_iff.1 hleft) {}
  have hawaits : c.Awaits "a.go" := hiff.2 fun ⟨_, x, hx, hfailed⟩ =>
    (hrecords x (StoredState.mem_records_of_record? hx)).2 hfailed
  obtain ⟨htakes, hrepaired⟩ := hrepaired hawaits
  exact ⟨c, hok, List.length_eq_zero_iff.1 hleft, hawaits, htakes, report, c', hrun,
    hrepaired report c' hrun hcancelled⟩

/-- The edge of a file that failed to be collected is left out as well, but the file is not marked;
the next run does not take it up, and it stays without an edge. -/
theorem left_out_stays_out : (∀ x ∈ (severed .failed).records, x.IsCollected) ∧
      (∃ e ∈ (severed .failed).edges, e.owner = "a.go") ∧
      ∃ c, (ofSketches []).restore (severed .failed) = .ok c ∧ c.table.edgesOf "a.go" = [] ∧
        ¬c.Awaits "a.go" ∧ ¬(c.begun {} [] false).1.TakesUp "a.go" ∧
        ∃ report c', c.apply {} [] = .ok (report, c') ∧ report.resolved = [] ∧
          report.failures = [] ∧ c'.table.edgesOf "a.go" = [] := by
  obtain ⟨c, hok, hleft, hrecord, hremoved, hqueued, ⟨report, c'⟩, hrun, hresolved, hfailures,
    hstill⟩ := restore_severed.2
  have hset : "a.go" ≠ settingsFile := by decide
  refine ⟨fun x hx => ?_, owns_severed _, c, hok, List.length_eq_zero_iff.1 hleft, fun h => ?_,
    fun h => ?_, report, c', hrun, hresolved, hfailures, List.length_eq_zero_iff.1 hstill⟩
  · obtain rfl := List.mem_singleton.1 hx
    exact ⟨rfl, by decide⟩
  · cases h with
    | settings heq => exact hset heq
    | gone _ hx =>
      rw [hx] at hrecord
      cases hrecord
    | pending _ hx hp =>
      rw [hx, Option.map_some, Option.some.injEq] at hrecord
      rw [FileRecord.isPending, hrecord] at hp
      cases hp
  · cases h with
    | settings heq => exact hset heq
    | gone hmem =>
      rw [hremoved] at hmem
      cases hmem
    | pending h =>
      rw [hqueued] at h
      cases h

end Controller

end CodeAtlas
