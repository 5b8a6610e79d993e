import Mathlib
import CodeAtlas.Proofs.Project.Alike

/-!
# Runs side by side: the later passes and the store

What a run does after the first pass depends on the sketches of its files and on the graph. Runs
that are side by side after the first pass so finish the same files, or stop for the same reason;
and a store that takes every batch leaves the same project.

Main results:

* `runAll_sideBySide`: work on states side by side comes to the same results.
* `Alike.resolve`, `Alike.enrich`, `Alike.settle`, `Alike.tidy`: the stages.
* `Alike.work`: a run up to the store.
* `Alike.deliver`: stores that take every batch.
-/

namespace CodeAtlas

open SortedMap

open Run (Alike AlikeWith)

variable {σ : Type} {D : String → Prop}

/-! ## Resolution and enrichment -/

/-- Work on states side by side. -/
theorem runAll_sideBySide {τ ι α : Type} {R : τ → τ → Prop} {limit : Nat}
    {work work' : ι → τ → Attempt α × τ}
    (hwork : ∀ i {t t'}, R t t' → (work' i t').1 = (work i t).1 ∧ R (work i t).2 (work' i t').2)
    (items : List (String × ι)) {t t' : τ} {closed cancelled : Bool} (h : R t t') :
    (runAll limit work' items ⟨t', closed, cancelled⟩).1 =
        (runAll limit work items ⟨t, closed, cancelled⟩).1 ∧
      R (runAll limit work items ⟨t, closed, cancelled⟩).2.state
        (runAll limit work' items ⟨t', closed, cancelled⟩).2.state ∧
      (runAll limit work' items ⟨t', closed, cancelled⟩).2.cancelled =
        (runAll limit work items ⟨t, closed, cancelled⟩).2.cancelled := by
  induction items generalizing t t' cancelled with
  | nil => exact ⟨rfl, h, rfl⟩
  | cons entry rest ih =>
    obtain ⟨path, i⟩ := entry
    have hperform : ∃ result u u' b, R u u' ∧
        (⟨t, closed, cancelled⟩ : Shift τ).perform limit work path i = (result, ⟨u, closed, b⟩) ∧
        (⟨t', closed, cancelled⟩ : Shift τ).perform limit work' path i =
          (result, ⟨u', closed, b⟩) := by
      obtain ⟨ha, hR⟩ := hwork i h
      simp only [Shift.perform_eq, ha]
      split
      · exact ⟨_, _, _, _, h, rfl, rfl⟩
      · exact ⟨_, _, _, _, hR, rfl, rfl⟩
    obtain ⟨result, u, u', b, hR, hu, hu'⟩ := hperform
    simp only [runAll, hu, hu']
    obtain ⟨hresults, hstate, hcancel⟩ := @ih u u' b hR
    exact ⟨by rw [hresults], hstate, hcancel⟩

theorem Attempt.before_sideBySide {τ α : Type} {R : τ → τ → Prop} (a : Attempt Unit)
    {work work' : τ → Attempt α × τ} {t t' : τ} (h : R t t')
    (hwork : (work' t').1 = (work t).1 ∧ R (work t).2 (work' t').2) :
    (a.before work' t').1 = (a.before work t).1 ∧ R (a.before work t).2 (a.before work' t').2 := by
  unfold Attempt.before
  split
  · exact ⟨congrArg (fun b => a.andThen fun _ => b) hwork.1, hwork.2⟩
  · exact ⟨rfl, h⟩

theorem Table.SameGraph.resolveFile {t t' : Table} (h : t.SameGraph t') (v : View)
    (f : FileSketch) : (t'.resolveFile v f).1 = (t.resolveFile v f).1 ∧
      (t.resolveFile v f).2.SameGraph (t'.resolveFile v f).2 := by
  have htaught := h.foldl_teach (v.findings f)
  refine ⟨?_, htaught⟩
  obtain ⟨d, hd⟩ := htaught.exists_eq
  unfold Table.resolveFile
  dsimp only
  rw [hd]
  rfl

theorem Table.SameGraph.runOn (e : EnrichmentSettings) (v : View) (f : FileSketch)
    (plugins : List Plugin) {t t' : Table} (h : t.SameGraph t') :
    (Plugin.runOn e v f plugins t').1 = (Plugin.runOn e v f plugins t).1 ∧
      (Plugin.runOn e v f plugins t).2.SameGraph (Plugin.runOn e v f plugins t').2 := by
  induction plugins generalizing t t' with
  | nil => exact ⟨rfl, h⟩
  | cons p rest ih =>
    unfold Plugin.runOn
    dsimp only
    split
    · next found _ =>
      obtain ⟨heq, hgraph⟩ := ih (h.foldl_teach found)
      exact ⟨by rw [heq], hgraph⟩
    · exact ⟨rfl, h⟩

theorem Table.SameGraph.settingsEdges (plugins : List Plugin) (e : EnrichmentSettings) (v : View)
    {t t' : Table} (h : t.SameGraph t') :
    (Plugin.settingsEdges plugins e v t').1 = (Plugin.settingsEdges plugins e v t).1 ∧
      (Plugin.settingsEdges plugins e v t).2.SameGraph (Plugin.settingsEdges plugins e v t').2 :=
  ⟨rfl, Table.SameGraph.foldl (fun h s => h.ensurePlaceholder s) _ h⟩

namespace Run.Alike

variable {r r' : Run σ} {k k' : Conditions} (h : Alike D r r')

include h

theorem sketches : r'.sketches = r.sketches :=
  SortedMap.ext fun p => Controller.sketches_of_collection? (h.collections p)

theorem view : r'.view = r.view := by
  rw [Controller.view, Controller.view, h.sketches, Table.snapshot, Table.snapshot,
    h.table.symbols.symbols]

/-- Both runs have the same files to resolve. -/
theorem affected_sketches :
    r'.affected.toList.filterMap r.sketches.get? = r.affected.toList.filterMap r.sketches.get? := by
  have hkeys : ∀ s : StringSet, s.toList.filterMap r.sketches.get? =
      (s.toList.filter fun p => (r.collection? p).isSome).filterMap r.sketches.get? := by
    intro s
    rw [List.filterMap_filter]
    refine List.filterMap_congr fun p _ => ?_
    rw [r.get?_sketches_eq_map]
    cases r.collection? p <;> rfl
  rw [hkeys, hkeys]
  exact congrArg _ (filter_keys_eq fun p hp => h.affected p fun _ _ => hp)

theorem runPass {α : Type} (hk : k'.befalls = k.befalls) (pass : Pass)
    {work : FileSketch → Table → Attempt α × Table} (hwork : ∀ f {t t' : Table}, t.SameGraph t' →
      (work f t').1 = (work f t).1 ∧ (work f t).2.SameGraph (work f t').2)
    (files : List FileSketch) :
    AlikeWith D (r.runPass k pass work files) (r'.runPass k' pass work files) := by
  obtain ⟨hresults, hgraph, hcancel⟩ := @runAll_sideBySide _ _ _ Table.SameGraph
    r.settings.pipeline.fileTimeoutMs _ _
    (fun (f : FileSketch) _ _ ht =>
      Attempt.before_sideBySide (k.befalls pass f.path) ht (hwork f ht))
    (files.map fun f => (f.path, f)) _ _ r.cancelled r.cancelled h.table
  have hshift : runAll r'.settings.pipeline.fileTimeoutMs
      (fun f : FileSketch => (k'.befalls pass f.path).before (work f))
      (files.map fun f => (f.path, f)) ⟨r'.table, r'.cancelled, r'.cancelled⟩ =
        runAll r.settings.pipeline.fileTimeoutMs
          (fun f : FileSketch => (k.befalls pass f.path).before (work f))
          (files.map fun f => (f.path, f)) ⟨r'.table, r.cancelled, r.cancelled⟩ := by
    rw [h.settings, h.cancelled, hk]
  unfold Run.runPass
  rw [hshift]
  refine ⟨hresults, ?_⟩
  dsimp only
  rw [hcancel]
  exact (h.setTable hgraph).setCancelled _

theorem leaveStale (path : String) (pass : Pass) (kind : DiagnosticKind)
    (e : AtlasError) : Alike D (r.leaveStale path pass kind e) (r'.leaveStale path pass kind e) :=
  ((h.diagnose _ _ _).modify FileRecord.moves_outdated FileRecord.outdated_collection?
    path).setReport _ _

theorem commitEdges (path : String) (edges : List Edge) (pass : Pass) :
    Agree D (Alike D) (r.commitEdges path edges pass) (r'.commitEdges path edges pass) := by
  have hrefused : ∀ (e : AtlasError) (pass : Pass), Agree D (Alike D)
      (if e.isFatal then r.halt e
        else .ok { r with report := r.report.fail path pass e.message })
      (if e.isFatal then r'.halt e
        else .ok { r' with report := r'.report.fail path pass e.message }) := by
    intro e pass
    split
    · exact h.halt e
    · exact .ok (h.setReport _ _)
  unfold Run.commitEdges
  cases pass with
  | enrich =>
    rcases h.table.appendEdges path edges with ⟨e, hx, hx'⟩ | ⟨u, u', hx, hx', hu⟩ <;>
      simp only [hx, hx']
    · exact hrefused e .enrich
    · exact .ok (h.setTable hu)
  | collect | resolve =>
    rcases h.table.replaceEdges path edges with ⟨e, hx, hx'⟩ | ⟨u, u', hx, hx', hu⟩ <;>
      simp only [hx, hx']
    · exact hrefused e _
    · exact .ok (h.setTable hu)

omit h in
theorem takeResult {α : Type} {acc acc' : List String × Run σ} (h : AlikeWith D acc acc')
    (pass : Pass) (edges : α → List Edge) (unresolved : α → Nat) (x : String × TaskResult α) :
    Agree D (AlikeWith D) (Run.takeResult pass edges unresolved acc x)
      (Run.takeResult pass edges unresolved acc' x) := by
  obtain ⟨heq, h⟩ := h
  obtain ⟨path, result⟩ := x
  cases result with
  | done a =>
    refine ((h.setReport _ _).commitEdges path (edges a) pass).bind fun hab => ?_
    exact .ok ⟨by rw [heq], hab⟩
  | failed e => exact .ok ⟨heq, h.leaveStale path pass _ e⟩
  | timedOut =>
    refine .ok ⟨heq, ?_⟩
    rw [h.settings]
    exact h.leaveStale path pass _ _
  | cancelled => exact .ok ⟨heq, h.setReport _ _⟩

theorem takeResults {α : Type} (pass : Pass) (edges : α → List Edge)
    (unresolved : α → Nat) (results : List (String × TaskResult α)) :
    Agree D (AlikeWith D) (results.foldlM (Run.takeResult pass edges unresolved) ([], r))
      (results.foldlM (Run.takeResult pass edges unresolved) ([], r')) :=
  Agree.foldlM (fun x _ hab => takeResult hab pass edges unresolved x) ⟨rfl, h⟩

theorem resolve (hk : k'.befalls = k.befalls) :
    Agree D (AlikeWith D) (r.resolve k) (r'.resolve k') := by
  let work (f : FileSketch) (t : Table) : Attempt FileResolution × Table :=
    (.done (t.resolveFile r.view f).1, (t.resolveFile r.view f).2)
  have hwork : ∀ f {t t' : Table}, t.SameGraph t' →
      (work f t').1 = (work f t).1 ∧ (work f t).2.SameGraph (work f t').2 :=
    fun f _ _ ht => (ht.resolveFile r.view f).imp_left (congrArg Attempt.done)
  obtain ⟨hresults, hrun⟩ := h.runPass hk .resolve hwork
    (r.affected.toList.filterMap r.sketches.get?)
  unfold Run.resolve
  dsimp only
  rw [h.view, show r.view.sketches = r.sketches from rfl, h.affected_sketches, hresults]
  exact hrun.takeResults _ _ _ _

theorem enrich (hk : k'.befalls = k.befalls) (resolved : List String) :
    Agree D (AlikeWith D) (r.enrich k resolved) (r'.enrich k' resolved) := by
  unfold Run.enrich
  dsimp only
  rw [h.settings, h.plugins, h.view]
  split
  · exact .ok ⟨rfl, h⟩
  · obtain ⟨hresults, hrun⟩ := h.runPass hk .enrich
      (fun f _ _ ht => ht.runOn r.settings.enrichment r.view f
        (Plugin.active r.plugins r.settings.enrichment))
      (resolved.filterMap r.view.sketches.get?)
    rw [hresults]
    exact hrun.takeResults _ _ _ _

/-! ## Settings -/

theorem containsFile (path : String) : r'.table.containsFile path = r.table.containsFile path := by
  rw [Table.containsFile, Table.containsFile, h.table.symbols.files]

theorem replaceEdges (owner : String) (edges : List Edge) : Agree D (Alike D)
      (match r.table.replaceEdges owner edges with
        | .ok table => .ok { r with table }
        | .error e => r.halt e)
      (match r'.table.replaceEdges owner edges with
        | .ok table => .ok { r' with table }
        | .error e => r'.halt e) := by
  obtain ⟨e, he, he'⟩ | ⟨u, u', hu, hu', hgraph⟩ := h.table.replaceEdges owner edges
  · rw [he, he']
    exact h.halt e
  · rw [hu, hu']
    exact .ok (h.setTable hgraph)

theorem refreshSettings : Agree D (Alike D) r.refreshSettings r'.refreshSettings := by
  have hfound : Plugin.settingsEdges r'.plugins r'.settings.enrichment r'.view r'.table =
      Plugin.settingsEdges r.plugins r.settings.enrichment r.view r'.table := by
    rw [h.settings, h.plugins, h.view]
  obtain ⟨hedges, hgraph⟩ := h.table.settingsEdges r.plugins r.settings.enrichment r.view
  unfold Run.refreshSettings
  rw [hfound]
  rcases hx : Plugin.settingsEdges r.plugins r.settings.enrichment r.view r.table with ⟨edges, t⟩
  rcases hx' : Plugin.settingsEdges r.plugins r.settings.enrichment r.view r'.table with
    ⟨edges', t'⟩
  rw [hx, hx'] at hedges hgraph
  obtain rfl : edges' = edges := hedges
  have htable := h.setTable hgraph
  have hknown := htable.containsFile settingsFile
  dsimp only at hgraph htable hknown ⊢
  rw [hknown]
  split
  · split
    · exact .ok ((htable.setTable (hgraph.removeFile settingsFile).2).drop _ _)
    · exact .ok htable
  · split
    · exact htable.replaceEdges settingsFile edges'
    · obtain ⟨hresult, hcommitted⟩ := hgraph.commitFile settingsFile [settingsSymbol]
      rcases hy : t.commitFile settingsFile [settingsSymbol] with ⟨result, u⟩
      rcases hy' : t'.commitFile settingsFile [settingsSymbol] with ⟨result', u'⟩
      rw [hy, hy'] at hresult hcommitted
      obtain rfl : result' = result := hresult
      cases result' with
      | ok summary => exact (h.setTable hcommitted).replaceEdges settingsFile edges'
      | error e => exact (h.setTable hcommitted).halt e

theorem settle (finished : List String) :
    Agree D (AlikeWith D) (r.settle finished) (r'.settle finished) := by
  have hlast : ∀ {x y : List String × Run σ}, AlikeWith D x y → Agree D (AlikeWith D)
      (.ok (x.1, if x.2.cancelled then x.2.reportCancelled else x.2) : Except (Halt σ) _)
      (.ok (y.1, if y.2.cancelled then y.2.reportCancelled else y.2)) := by
    rintro x y ⟨heq, hxy⟩
    refine .ok ⟨heq, ?_⟩
    dsimp only
    rw [hxy.cancelled]
    split
    · exact hxy.setReport _ _
    · exact hxy
  unfold Run.settle
  dsimp only
  rw [h.settingsAffected, h.cancelled]
  split
  · exact h.refreshSettings.bind fun hab => hlast ⟨rfl, hab⟩
  · exact hlast ⟨rfl, h⟩

theorem markReady (path : String) : Alike D (r.markReady path) (r'.markReady path) :=
  (h.modify FileRecord.moves_ready FileRecord.ready_collection? path).touch _ _

theorem tidy : Agree D (Alike D) r.tidy r'.tidy := by
  have hpruned := (h.setTable h.table.pruneExternals.2).drop r.table.pruneExternals.1
    r'.table.pruneExternals.1
  have hsame := h.table.pruneExternals.2.inconsistency?
  unfold Run.tidy Run.drop
  dsimp only
  rw [hsame]
  split
  · exact hpruned.halt _
  · exact .ok hpruned

/-- A run up to the store. -/
theorem work [DecidablePred D] (hg : r.Grounded) (hk : k'.befalls = k.befalls)
    {due : List SourceFile}
    (hfail : ∀ x ∈ (r.collectSources k due).1, D x.1.path → x.2.isFailure = true) :
    Agree D (AlikeWith D) (r.work k due) (r'.work k' (due.filter fun s => ¬D s.path)) := by
  refine (h.collect hg hk hfail).bind fun h => (h.resolve hk).bindWith fun resolved r r' h =>
    (h.enrich hk resolved).bindWith fun enriched r r' h =>
      (h.settle enriched).bindWith fun finished r r' h => ?_
  have hready : Alike D (finished.foldl Run.markReady r) (finished.foldl Run.markReady r') :=
    List.foldl_rel h fun p _ _ _ hab => hab.markReady p
  exact hready.tidy.bind fun h => .ok ⟨rfl, h⟩

end Run.Alike

/-! ## Stores that take every batch -/

/-- The store takes every batch, now and later. -/
def Sink.Accepts [Sink σ] (s : σ) : Prop :=
  ∃ A : σ → Prop, A s ∧ ∀ s b, A s → ∃ s', Sink.write b s = (.ok (), s') ∧ A s'

theorem MemoryStore.accepts {s : MemoryStore} (h : s.rejections = 0) : Sink.Accepts s := by
  refine ⟨fun s => s.rejections = 0, h, fun s b hs => ⟨_, write_taken hs b, ?_⟩⟩
  rw [apply_eq]
  exact hs

namespace Run

variable {r r' : Run σ}

theorem foldl_flushBatch_accepted [Sink σ] {A : σ → Prop}
    (hA : ∀ s b, A s → ∃ s', Sink.write b s = (.ok (), s') ∧ A s') (now : Timestamp)
    (bs : List Batch) (acc : StringSet × Run σ) (h : A acc.2.sink) :
    (bs.foldl (flushBatch now) acc).1 = acc.1 ∧
      ∀ p, (bs.foldl (flushBatch now) acc).2.records.get? p =
        if p ∈ bs.flatMap (·.retract) then (acc.2.records.get? p).map (FileRecord.stored now)
        else acc.2.records.get? p := by
  induction bs generalizing acc with
  | nil => exact ⟨rfl, fun p => by simp⟩
  | cons b rest ih =>
    obtain ⟨s', hwrite, hs'⟩ := hA acc.2.sink b h
    rcases flushBatch_cases now acc b with ⟨n, sink, records, hw, heq, hrec⟩ | ⟨e, sink, t, hw, -⟩
    · cases (Sink.writeFrom_of_taken hwrite).symm.trans hw
      obtain ⟨hset, hget⟩ := ih (flushBatch now acc b) (by rw [heq]; exact hs')
      rw [heq] at hset hget
      rw [List.foldl_cons, heq]
      refine ⟨hset, fun p => (hget p).trans ?_⟩
      dsimp only
      rw [hrec, List.flatMap_cons]
      by_cases hb : p ∈ b.retract <;> by_cases hr : p ∈ rest.flatMap (·.retract) <;>
        simp [hb, hr, Function.comp_def]
    · cases (Sink.writeFrom_of_taken hwrite).symm.trans hw

/-- The records after a delivery that the store takes as a whole. -/
theorem deliver_accepted [Sink σ] (hs : Sink.Accepts r.sink) (hf : r.Forgets) (now : Timestamp)
    (finished : List String) (p : String) : (r.deliver now finished).2.records.get? p =
      if p ∈ finished then (r.records.get? p).map (FileRecord.stored now)
      else r.records.get? p := by
  obtain ⟨A, hr, hA⟩ := hs
  obtain ⟨hset, hget⟩ := foldl_flushBatch_accepted hA now _ (∅, r) hr
  have hnone : ¬(p ∈ (r.flush now finished).2.removed ∧
      (r.flush now finished).1.contains p = true) := by
    rw [show (r.flush now finished).1 = ∅ from hset]
    simp
  rw [(deliver_concludes now finished r).records, if_neg hnone]
  refine (hget p).trans ?_
  dsimp only
  by_cases hremoved : p ∈ r.removed
  · rw [(hf p hremoved).2]
    simp
  · simp only [mem_retract_batches, hremoved, false_or]

/-- Runs side by side leave the same project. -/
theorem Alike.deliver [Sink σ] (h : Alike D r r') (hs : Sink.Accepts r.sink)
    (hs' : Sink.Accepts r'.sink) (hf : r.Forgets) (hf' : r'.Forgets) (now now' : Timestamp)
    (finished : List String) :
    (r.deliver now finished).2.SameProject D (r'.deliver now' finished).2 where
  table := (deliver_offers now finished r).table.symm.trans
    (h.table.trans (deliver_offers now' finished r').table)
  records p hp := by
    rw [deliver_accepted hs hf, deliver_accepted hs' hf']
    split
    · exact (h.records p hp).map (FileRecord.moves_stored now) (FileRecord.moves_stored now')
    · exact h.records p hp

end Run

end CodeAtlas
