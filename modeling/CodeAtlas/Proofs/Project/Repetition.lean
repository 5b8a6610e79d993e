import Mathlib
import CodeAtlas.Proofs.Project.Rest

/-!
# Runs over a project at rest

A full run over a project at rest has nothing to collect, to resolve or to remove. Yet it deletes the
edges of the settings, learns their placeholders again, stores the same edges, prunes what it
learnt in vain, and hands the rows of the settings to the store once more. None of this changes
anything.

Main results:

* `Run.takeChanges_unchanged`: unchanged files are skipped, each path once.
* `AtRest.refreshSettings`: computing the edges of the settings again only teaches the table.
* `AtRest.run`: the run as a whole.
-/

namespace CodeAtlas

open SortedMap SymbolLookup

variable {σ : Type} {names : Set String}

theorem SortedMap.length_values_ofList {κ α : Type} [Ord κ] [Std.TransOrd κ] [Std.LawfulEqOrd κ]
    [DecidableEq κ] (l : List (κ × α)) :
    (SortedMap.ofList l).values.length = (l.map (·.1)).dedup.length := by
  have hkeys : (SortedMap.ofList l).keys.Perm (l.map (·.1)).dedup := by
    refine (List.perm_ext_iff_of_nodup (keys_nodup _) (List.nodup_dedup _)).2 fun k => ?_
    rw [mem_keys, SortedMap.contains_ofList, List.mem_dedup]
  rw [← hkeys.length_eq]
  simp [values, keys]

/-! ## Unchanged files -/

/-- A project holds the sketches of a source with this content. -/
def Controller.HasSource (c : Controller σ) (s : SourceFile) : Prop :=
  (c.collection? s.path).map (·.fingerprint) = some s.fingerprint

theorem Controller.hasSource_iff {c : Controller σ} {s : SourceFile} : c.HasSource s ↔
    ∃ x, c.records.get? s.path = some x ∧ x.fingerprint = s.fingerprint ∧
      x.sketches.isSome = true := by
  unfold HasSource Controller.collection? FileRecord.collection?
  constructor
  · intro h
    obtain ⟨n, hn, hprint⟩ := Option.map_eq_some_iff.1 h
    obtain ⟨x, hx, hcol⟩ := Option.bind_eq_some_iff.1 hn
    obtain ⟨f, hf, rfl⟩ := Option.map_eq_some_iff.1 hcol
    exact ⟨x, hx, hprint, Option.isSome_of_eq_some hf⟩
  · rintro ⟨x, hx, hprint, hsketches⟩
    obtain ⟨f, hf⟩ := Option.isSome_iff_exists.1 hsketches
    simp [hx, hf, hprint]

namespace Run

variable {r : Run σ}

theorem need_eq_nothing {fingerprint : String} {x : FileRecord} (hprint : x.fingerprint = fingerprint)
    (hsketches : x.sketches.isSome = true) (hresolved : x.state = .resolved) :
    FileRecord.need fingerprint (some x) = .nothing := by
  simp [FileRecord.need, hprint, hsketches, hresolved]

theorem plan_modified (hbare : ∀ p x, r.records.get? p = some x → x.isTombstone = false)
    (l : List SourceFile) :
    r.plan (l.map .modified) = { modified := .ofList (l.map fun s => (s.path, s)) } := by
  have hfold : ∀ m : SortedMap String SourceFile,
      (l.map FileChange.modified).foldl Plan.add { modified := m } =
        { modified := m.insertAll (l.map fun s => (s.path, s)) } := by
    induction l with
    | nil => exact fun m => rfl
    | cons s rest ih =>
      intro m
      have herase : (∅ : StringSet).erase s.path = ∅ := erase_eq_self rfl
      have hadd : Plan.add { modified := m } (.modified s) =
          { modified := m.insert s.path s } := by
        simp [Plan.add, herase]
      rw [List.map_cons, List.foldl_cons, hadd, ih]
      rfl
  have hnone : (r.records.filter fun _ x => x.isTombstone) = ∅ := by
    ext p : 1
    rw [get?_filter]
    cases hx : r.records.get? p with
    | none => rfl
    | some x => simp [hbare p x hx]
  unfold plan
  rw [hnone]
  exact hfold ∅

theorem foldl_examine_unchanged {l : List SourceFile}
    (h : ∀ s ∈ l, FileRecord.need s.fingerprint (r.records.get? s.path) = .nothing) :
    l.foldl examine (r, []) = ({ r with report := { r.report with
      filesSkipped := r.report.filesSkipped + l.length } }, []) := by
  induction l generalizing r with
  | nil => rfl
  | cons s rest ih =>
    have hone : examine (r, []) s = ({ r with report := { r.report with
        filesSkipped := r.report.filesSkipped + 1 } }, []) := by
      simp only [examine, h s (List.mem_cons_self ..)]
    have hrest := ih (r := { r with report := { r.report with
      filesSkipped := r.report.filesSkipped + 1 } }) fun s' hs' => h s' (List.mem_cons_of_mem _ hs')
    rw [List.foldl_cons, hone]
    refine hrest.trans ?_
    simp only [List.length_cons, Nat.add_assoc, Nat.add_comm 1]

/-- Unchanged files are skipped, each path once. -/
theorem takeChanges_unchanged (hbare : ∀ p x, r.records.get? p = some x → x.isTombstone = false)
    {l : List SourceFile}
    (h : ∀ s ∈ l, FileRecord.need s.fingerprint (r.records.get? s.path) = .nothing) :
    r.takeChanges (l.map .modified) = ({ r with report := { r.report with
      filesSkipped := r.report.filesSkipped + (l.map (·.path)).dedup.length } }, []) := by
  have hlength := SortedMap.length_values_ofList (l.map fun s => (s.path, s))
  rw [List.map_map] at hlength
  unfold takeChanges
  rw [plan_modified hbare]
  show (SortedMap.ofList (l.map fun s => (s.path, s))).values.foldl examine (r, []) = _
  rw [foldl_examine_unchanged, hlength]
  · rfl
  · intro s hs
    obtain ⟨p, hp⟩ := mem_values.1 hs
    obtain ⟨s', hs', heq⟩ := List.mem_map.1 (SortedMap.mem_of_get?_ofList hp)
    obtain ⟨-, rfl⟩ := Prod.mk.inj heq
    exact h s' hs'

/-! ## Passes over nothing -/

theorem collect_nil (k : Conditions) (haffected : r.affected = ∅)
    (hasked : r.settingsAffected = true) :
    r.collect k [] = .ok { r with table := r.table.clearEdges settingsFile } := by
  have hfold : r.affected.toList.foldl clearFile r = r := by
    rw [haffected]
    rfl
  change Except.ok r.clearAffected = _
  unfold clearAffected
  dsimp only
  rw [hfold, if_pos hasked]

theorem resolve_nil (k : Conditions) (haffected : r.affected = ∅) : r.resolve k = .ok ([], r) := by
  unfold resolve
  dsimp only
  rw [haffected]
  rfl

theorem tidy_of_consistent (h : r.table.pruneExternals.2.inconsistency? = none) : r.tidy =
    .ok ({ r with table := r.table.pruneExternals.2 }.drop r.table.pruneExternals.1) := by
  unfold tidy drop
  rcases hp : r.table.pruneExternals with ⟨pruned, table⟩
  rw [hp] at h
  simp only [h]

theorem enrich_nil (k : Conditions) (r : Run σ) : r.enrich k [] = .ok ([], r) := by
  unfold enrich
  dsimp only
  split <;> rfl

end Run

/-! ## The settings once more -/

namespace Controller.AtRest

variable {c : Controller MemoryStore} {r : Run MemoryStore}

theorem targets (h : c.AtRest names) {o : String} {e : Edge} (he : e ∈ c.table.edgesOf o) :
    c.table.ids.contains e.target = true :=
  (Table.inconsistency?_eq_none_iff.1 h.consistent).1 o e he

theorem refreshSettings (h : c.AtRest names) (hplugins : r.plugins = c.plugins)
    (hsettings : r.settings = c.settings) (hview : r.view = c.view)
    (htable : r.table = c.table.clearEdges settingsFile) :
    ∃ t, r.refreshSettings = .ok { r with table := t } ∧ c.table.Taught t ∧
      ∀ fqn, t.symbols.contains fqn = true → c.table.symbols.contains fqn = true ∨
        Plugin.Needs c.plugins c.settings.enrichment c.view fqn := by
  have hclear : c.table.Rewires settingsFile [] r.table :=
    htable ▸ Table.clearEdges_rewires c.table settingsFile
  have htaught := Run.settingsTable_taught r
  have hlearnt : ∀ fqn, r.settingsTable.symbols.contains fqn = true →
      c.table.symbols.contains fqn = true ∨
        Plugin.Needs c.plugins c.settings.enrichment c.view fqn := by
    intro fqn hfqn
    rcases Plugin.contains_settingsEdges.1 hfqn with hfqn | hfqn
    · rw [hclear.same.symbols] at hfqn
      exact .inl hfqn
    · rw [hplugins, hsettings, hview] at hfqn
      exact .inr hfqn
  have hdeclared : r.declared = c.declared := by
    unfold declared
    rw [hplugins, hsettings, hview]
    exact Plugin.SameFindings.settingsEdges (fun _ _ => rfl) _ _
  have hnode : r.settingsTable.containsFile settingsFile = true ↔ c.declared ≠ [] := by
    rw [Table.containsFile, htaught.files, hclear.same.files]
    exact h.node
  have hrefresh : ∀ t, (c.declared = [] → t = r.settingsTable) →
      (c.declared ≠ [] → r.settingsTable.replaceEdges settingsFile c.declared = .ok t) →
      r.refreshSettings = .ok { r with table := t } := by
    intro t hsilent hloud
    unfold Run.refreshSettings
    rw [show Plugin.settingsEdges r.plugins r.settings.enrichment r.view r.table =
      (c.declared, r.settingsTable) from Prod.ext hdeclared rfl]
    dsimp only
    by_cases hnil : c.declared = []
    · rw [if_pos (by simp [hnil]), if_neg (by simp [hnode, hnil]), hsilent hnil]
    · rw [if_neg (by simpa using hnil), if_pos (hnode.2 hnil)]
      dsimp only [bind, Except.bind]
      rw [hloud hnil]
  by_cases hnil : c.declared = []
  · have hnone : r.settingsTable.edgesOf settingsFile = c.table.edgesOf settingsFile := by
      rw [htaught.edges.edgesOf, hclear.edgesOf, if_pos rfl, h.edges, hnil]
      simp [Edge.sort, Table.dropRepeats]
    refine ⟨r.settingsTable, hrefresh _ (fun _ => rfl) fun hne => absurd hnil hne, ?_, hlearnt⟩
    exact Table.Taught.of_recomputed h.coherent.counted hclear htaught
      (hnone ▸ Table.Rewires.refl r.settingsTable settingsFile)
  · have hadmissible : r.settingsTable.Admissible settingsFile c.declared := by
      have hcleared : r.table.Sound names :=
        (h.coherent.table.of_same hclear.same).sound h.coherent.distinct
      have hsound : r.settingsTable.Sound names :=
        (htaught.orderly (fun fqn hfqn => (hlearnt fqn hfqn).elim h.coherent.table.known
          fun hn => (h.needs hn).1) hcleared.toOrderly).sound h.coherent.distinct
      intro e he
      refine ⟨Plugin.owner_of_mem_settingsEdges h.standard he, ?_⟩
      -- an edge to the same target is in the table
      obtain ⟨e', he', htarget⟩ := Table.exists_target_dropRepeats (Table.mem_sort.2 he)
      rw [← h.edges] at he'
      rw [← htarget]
      refine htaught.contains_ids hcleared.indexed hsound.indexed ?_
      rw [hclear.same.ids]
      exact h.targets he'
    obtain ⟨t, ht, -⟩ := Table.replaceEdges_of_admissible hadmissible
    obtain ⟨-, hw⟩ := Table.replaceEdges_rewires ht
    rw [← h.edges] at hw
    refine ⟨t, hrefresh _ (fun hn => absurd hn hnil) fun _ => ht,
      Table.Taught.of_recomputed h.coherent.counted hclear htaught hw, fun fqn hfqn => ?_⟩
    rw [hw.same.symbols] at hfqn
    exact hlearnt fqn hfqn

/-- Pruning forgets what was learnt in vain, and the store has none of it. -/
theorem pruneExternals (h : c.AtRest names) {t : Table} (ht : c.table.Taught t)
    (hlearnt : ∀ fqn, t.symbols.contains fqn = true → c.table.symbols.contains fqn = true ∨
      Plugin.Needs c.plugins c.settings.enrichment c.view fqn) :
    c.table.SameContents t.pruneExternals.2 ∧
      ∀ id, t.pruneExternals.1.contains id = true → c.sink.nodes.get? id = none := by
  have hsound : t.Sound names :=
    (ht.orderly (fun fqn hfqn => (hlearnt fqn hfqn).elim h.coherent.table.known
      fun hn => (h.needs hn).1) h.coherent.table).sound h.coherent.distinct
  obtain ⟨hsame, hpruned⟩ := ht.pruneExternals h.coherent.sound hsound h.coherent.counted h.pruned
    h.targets
  refine ⟨hsame, fun id hid => ?_⟩
  obtain ⟨fqn, hnone, hknown, rfl⟩ := hpruned id hid
  have hneeds := (hlearnt fqn hknown).resolve_left (by simp [contains, hnone])
  exact (h.needs hneeds).2 hnone

end Controller.AtRest

/-! ## The run -/

/-- What a full run over a project at rest has done when it reaches the store. -/
structure Run.Idled (c : Controller MemoryStore) (skipped : Nat) (r : Run MemoryStore) : Prop where
  contents : c.table.SameContents r.table
  sink : r.sink = c.sink
  removed : r.removed = []
  dropped : ∀ id, r.droppedIds.contains id = true → c.sink.nodes.get? id = none
  report : r.report = { filesSkipped := skipped }

namespace Controller.AtRest

variable {c : Controller MemoryStore} {l : List SourceFile}

/-- Nothing is to be collected, and nothing waits. -/
theorem begun (h : c.AtRest names) (k : Conditions) (hl : ∀ s ∈ l, c.HasSource s) :
    c.begun k (l.map .modified) true =
      ({ Run.start c true with report := { filesSkipped := (l.map (·.path)).dedup.length } }, []) ∧
      (Run.start c true).affected = ∅ := by
  have hcheck : (Run.start c true).checkSettings k.now = Run.start c true :=
    if_pos (beq_iff_eq.2 h.remembered)
  have hbare : ∀ p x, (Run.start c true).records.get? p = some x → x.isTombstone = false := by
    intro p x hx
    simp [FileRecord.isTombstone, h.resolved hx]
  have hpending : (c.records.filter fun _ x => x.isPending) = ∅ := by
    ext p : 1
    rw [get?_filter]
    cases hx : c.records.get? p with
    | none => rfl
    | some x => simp [FileRecord.isPending, h.resolved hx]
  constructor
  · unfold Controller.begun
    rw [hcheck, Run.takeChanges_unchanged hbare]
    · simp [Run.start]
    · intro s hs
      obtain ⟨x, hx, hprint, hsketches⟩ := hasSource_iff.1 (hl s hs)
      rw [show (Run.start c true).records.get? s.path = some x from hx]
      exact Run.need_eq_nothing hprint hsketches (h.resolved hx)
  · show StringSet.ofList (c.records.filter fun _ x => x.isPending).keys = ∅
    rw [hpending]
    rfl

theorem work (h : c.AtRest names) (k : Conditions) (hl : ∀ s ∈ l, c.HasSource s) :
    ∃ r, c.work k (l.map .modified) true = .ok ([settingsFile], r) ∧
      Run.Idled c (l.map (·.path)).dedup.length r := by
  obtain ⟨hbegun, haffected⟩ := h.begun k hl
  set r₀ : Run MemoryStore :=
    { Run.start c true with report := { filesSkipped := (l.map (·.path)).dedup.length } }
  set r₁ : Run MemoryStore := { r₀ with table := c.table.clearEdges settingsFile }
  have hcollect : r₀.collect k [] = .ok r₁ := Run.collect_nil k haffected rfl
  have hview : r₁.view = c.view := by
    show View.mk (c.table.clearEdges settingsFile).snapshot c.sketches =
      View.mk c.table.snapshot c.sketches
    unfold Table.snapshot
    rw [(Table.clearEdges_rewires c.table settingsFile).same.symbols]
  obtain ⟨t, hrefresh, htaught, hlearnt⟩ := h.refreshSettings (r := r₁) rfl rfl hview rfl
  obtain ⟨hsame, hdropped⟩ := h.pruneExternals htaught hlearnt
  set r₂ : Run MemoryStore := { r₁ with table := t }
  have hrunning : r₁.cancelled = false := h.running
  have hsettle : r₁.settle [] = .ok ([settingsFile], r₂) := by
    have hasked : (r₁.settingsAffected && !r₁.cancelled) = true := by
      rw [hrunning]
      rfl
    unfold Run.settle
    rw [if_pos hasked]
    simp only [hrefresh, bind, Except.bind, pure, Except.pure]
    rw [if_neg (ne_true_of_eq_false hrunning)]
    rfl
  set r₃ : Run MemoryStore :=
    { r₂.markReady settingsFile with table := t.pruneExternals.2 }.drop t.pruneExternals.1
  have htidy : ([settingsFile].foldl Run.markReady r₂).tidy = .ok r₃ :=
    Run.tidy_of_consistent (hsame.inconsistency?_eq_none.2 h.consistent)
  refine ⟨r₃, ?_, hsame, rfl, rfl, fun id hid => ?_, rfl⟩
  · unfold Controller.work
    rw [hbegun]
    exact Run.work_of_stages hcollect (Run.resolve_nil k haffected) (Run.enrich_nil k r₁) hsettle
      htidy
  · rcases (IdSet.contains_union _ _ id).1 hid with hid | hid
    · cases hid
    · exact hdropped id hid

/-- A full run over a project at rest skips every file and changes neither the table nor the
store. -/
theorem run (h : c.AtRest names) (k : Conditions) (hl : ∀ s ∈ l, c.HasSource s) :
    ∃ report c', c.run k (l.map .modified) true = .ok (report, c') ∧
      report.filesSkipped = (l.map (·.path)).dedup.length ∧
      report.filesCollected = 0 ∧ report.filesRemoved = 0 ∧ report.resolved = [] ∧
      report.failures = [] ∧ report.cancelled = false ∧ report.sinkFailures = 0 ∧
      c.table.SameContents c'.table ∧ c.sink.SameRows c'.sink := by
  obtain ⟨r, hwork, hidled⟩ := h.work k hl
  refine ⟨(r.deliver k.now [settingsFile]).1, (r.deliver k.now [settingsFile]).2,
    by rw [Controller.run_eq, hwork]; rfl, ?_⟩
  have hforgets : r.Forgets := by
    intro p hp
    rw [hidled.removed] at hp
    cases hp
  have hoffers := Run.deliver_offers k.now [settingsFile] r
  have hkept : ∀ p ∈ [settingsFile], p ∉ r.removed := fun p _ => by simp [hidled.removed]
  obtain ⟨taken, refused, hdel⟩ := Run.deliver_delivered hforgets hkept k.now
  have hcounts := hoffers.counts
  rw [hidled.report] at hcounts
  simp only [Prod.mk.injEq] at hcounts
  obtain ⟨hcollected, hskipped, hremoved⟩ := hcounts
  have hfailures : (r.deliver k.now [settingsFile]).1.sinkFailures = 0 := by
    rw [(Run.deliver_concludes k.now [settingsFile] r).sinkFailures,
      Run.flush_sinkFailures (by rw [hidled.sink, h.accepts]), hidled.report]
  refine ⟨hskipped, hcollected, hremoved, by simp [Run.deliver, Run.conclude], ?_, ?_, hfailures,
    hidled.contents.trans hoffers.table.sameContents, ?_⟩
  · rw [hoffers.failures, hidled.report]
  · rw [hoffers.reportCancelled, hidled.report]
  · -- the batches hold the rows of the settings, and drop what the store does not have
    have howned : ∀ {o e}, e ∈ r.table.edgesOf o → e.owner = o := by
      intro o e he
      rw [hidled.contents.edges.edgesOf] at he
      exact h.coherent.owned he
    have hheld : r.table.HeldBy c.sink settingsFile := h.held.of_same hidled.contents (.refl _)
    have hrows : (r.table.rowsAfter taken c.sink).SameRows (r.deliver k.now [settingsFile]).2.sink :=
      MemoryStore.hasRows_iff.1 (hdel.rows (MemoryStore.hasRows_iff.2 (hidled.sink ▸ .refl _)))
    refine (hheld.rowsAfter howned fun g hg => ⟨?_, ?_, fun id hid => ?_⟩).trans hrows
    · refine List.eq_nil_iff_forall_not_mem.2 fun p hp => ?_
      have hmem := (hdel.removed p).2 (.inl (List.mem_flatMap.2 ⟨g, hg, hp⟩))
      rw [hidled.removed] at hmem
      cases hmem
    · have hsub : g.files.Sublist [settingsFile] :=
        (List.sublist_flatten_of_mem (List.mem_map_of_mem hg)).trans
          (List.flatMap_def ▸ hdel.sublist)
      exact List.sublist_singleton.1 hsub
    · exact hidled.dropped id ((hdel.drops id).1 (.inl (List.mem_flatMap.2 ⟨g, hg, hid⟩))).1

end Controller.AtRest

end CodeAtlas
