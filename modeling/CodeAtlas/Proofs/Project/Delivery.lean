import Mathlib
import CodeAtlas.Proofs.Project.Working
import CodeAtlas.Proofs.Store.Memory

/-!
# From the run to the store

What handing the finished files to the store does to a project: the graph stays as it is, the
records of files in batches that were taken become resolved, and removed files whose batch was
refused leave a tombstone.

Main results:

* `flushBatch_cases`: what one batch does.
* `flush_flushes`, `deliver_concludes`: what the whole delivery leaves alone, and the records after.
* `deliver_orderly`: the order of a project is kept.
-/

namespace CodeAtlas

open SortedMap

variable {σ : Type} {names : Set String} {due : List SourceFile}

/-! ## Records -/

/-- The record of a file whose rows the store has taken. -/
def FileRecord.stored (now : Timestamp) (x : FileRecord) : FileRecord :=
  if x.state == .collected then { x with state := .resolved, resolvedAt := some now } else x

@[simp] theorem FileRecord.stored_path (now : Timestamp) (x : FileRecord) :
    (x.stored now).path = x.path := by
  unfold FileRecord.stored
  split <;> rfl

@[simp] theorem FileRecord.stored_sketches (now : Timestamp) (x : FileRecord) :
    (x.stored now).sketches = x.sketches := by
  unfold FileRecord.stored
  split <;> rfl

@[simp] theorem FileRecord.stored_fingerprint (now : Timestamp) (x : FileRecord) :
    (x.stored now).fingerprint = x.fingerprint := by
  unfold FileRecord.stored
  split <;> rfl

@[simp] theorem FileRecord.stored_stored (now : Timestamp) (x : FileRecord) :
    (x.stored now).stored now = x.stored now := by
  unfold FileRecord.stored
  split <;> simp_all

namespace Run

variable {r r' : Run σ}

theorem foldl_markStored (now : Timestamp) (l : List String) (r : Run σ) :
    ∃ records, l.foldl (markStored now) r = { r with records } ∧ ∀ p, records.get? p =
      if p ∈ l then (r.records.get? p).map (FileRecord.stored now) else r.records.get? p := by
  induction l generalizing r with
  | nil => exact ⟨r.records, rfl, by simp⟩
  | cons path rest ih =>
    obtain ⟨records, hr, hget⟩ := ih (r.markStored now path)
    refine ⟨records, hr, fun p => ?_⟩
    have hone : (r.markStored now path).records.get? p =
        if p = path then (r.records.get? path).map (FileRecord.stored now) else r.records.get? p :=
      get?_modify r.records path p _
    rw [hget, hone]
    by_cases hp : p = path
    · by_cases hp' : path ∈ rest <;> simp [hp, hp', Function.comp_def]
    · simp [hp]

theorem foldl_diagnose (kind : DiagnosticKind) (message : String) (l : List String) (r : Run σ) :
    ∃ t, l.foldl (fun r path => r.diagnose kind path message) r = { r with table := t } ∧
      r.table.SameGraph t := by
  induction l generalizing r with
  | nil => exact ⟨r.table, rfl, .refl _⟩
  | cons path rest ih =>
    obtain ⟨t, hr, hsame⟩ := ih (r.diagnose kind path message)
    exact ⟨t, hr, (Table.SameGraph.record _ _).trans hsame⟩

theorem foldl_bury (l : List String) (r : Run σ) :
    ∃ records touched, l.foldl bury r = { r with records, touched } ∧
      (∀ p, r.touched.contains p = true ∨ p ∈ l → touched.contains p = true) ∧
      ∀ p, records.get? p = if p ∈ l then some (.tombstone p) else r.records.get? p := by
  induction l generalizing r with
  | nil => exact ⟨r.records, r.touched, rfl, by simp, by simp⟩
  | cons path rest ih =>
    obtain ⟨records, touched, hr, htouched, hget⟩ := ih (r.bury path)
    refine ⟨records, touched, hr, fun p hp => htouched p ?_, fun p => ?_⟩
    · rw [List.mem_cons] at hp
      rw [bury, StringSet.contains_add, Bool.or_eq_true, decide_eq_true_eq]
      tauto
    have hone : (r.bury path).records.get? p =
        if p = path then some (.tombstone path) else r.records.get? p := get?_insert_eq ..
    rw [hget, hone]
    by_cases hp : p = path
    · by_cases hp' : path ∈ rest <;> simp [hp, hp']
    · simp [hp]

/-! ## Batches -/

section Offering

variable [Sink σ]

/-- What one batch does: it is taken, or it is refused. -/
theorem flushBatch_cases (now : Timestamp) (acc : StringSet × Run σ) (b : Batch) :
    (∃ n sink records,
      Sink.writeRetrying b acc.2.settings.pipeline.sinkRetries acc.2.sink = (.ok n, sink) ∧
        flushBatch now acc b = (acc.1, { acc.2 with sink, records }) ∧ ∀ p, records.get? p =
          if p ∈ b.retract then (acc.2.records.get? p).map (FileRecord.stored now)
          else acc.2.records.get? p) ∨
      ∃ e sink t,
        Sink.writeRetrying b acc.2.settings.pipeline.sinkRetries acc.2.sink = (.error e, sink) ∧
          acc.2.table.SameGraph t ∧ flushBatch now acc b =
            (acc.1.addAll (b.retract.filter acc.2.removed.contains), { acc.2 with
              sink, table := t, report := { acc.2.report with
                sinkFailures := acc.2.report.sinkFailures + 1 } }) := by
  unfold flushBatch
  rcases hw : Sink.writeRetrying b acc.2.settings.pipeline.sinkRetries acc.2.sink with ⟨e | n, sink⟩
  · right
    obtain ⟨t, hfold, hsame⟩ := foldl_diagnose .sinkWriteFailure e.message b.retract { acc.2 with
      sink, report := { acc.2.report with sinkFailures := acc.2.report.sinkFailures + 1 } }
    refine ⟨e, sink, t, rfl, hsame, ?_⟩
    simp only [hw]
    rw [hfold]
  · left
    obtain ⟨records, hfold, hget⟩ := foldl_markStored now b.retract { acc.2 with sink }
    refine ⟨n, sink, records, rfl, ?_, hget⟩
    simp only [hw]
    rw [hfold]

/-- What a delivery leaves alone. -/
structure Offers (r : Run σ) (report : RunReport) (c : Controller σ) : Prop where
  settings : c.settings = r.settings
  registry : c.registry = r.registry
  plugins : c.plugins = r.plugins
  root : c.root = r.root
  table : r.table.SameGraph c.table
  seq : c.seq = r.seq
  cancelled : c.cancelled = r.cancelled
  settingsDirty : c.settingsDirty = r.settingsDirty
  failures : report.failures = r.report.failures
  reportCancelled : report.cancelled = r.report.cancelled
  counts : (report.filesCollected, report.filesSkipped, report.filesRemoved) =
    (r.report.filesCollected, r.report.filesSkipped, r.report.filesRemoved)

omit [Sink σ] in
theorem Offers.trans {report : RunReport} {c : Controller σ}
    (h : Offers r r'.report r'.toController) (h' : Offers r' report c) : Offers r report c :=
  ⟨h'.settings.trans h.settings, h'.registry.trans h.registry, h'.plugins.trans h.plugins,
    h'.root.trans h.root, h.table.trans h'.table, h'.seq.trans h.seq,
    h'.cancelled.trans h.cancelled, h'.settingsDirty.trans h.settingsDirty,
    h'.failures.trans h.failures, h'.reportCancelled.trans h.reportCancelled,
    h'.counts.trans h.counts⟩

/-- What one batch can change. -/
structure Flushes (now : Timestamp) (paths : List String) (acc acc' : StringSet × Run σ) :
    Prop where
  offers : Offers acc.2 acc'.2.report acc'.2.toController
  removed : acc'.2.removed = acc.2.removed
  forgotten : acc'.2.forgotten = acc.2.forgotten
  touched : acc'.2.touched = acc.2.touched
  records : ∀ p, acc'.2.records.get? p = acc.2.records.get? p ∨ p ∈ paths ∧
    acc'.2.records.get? p = (acc.2.records.get? p).map (FileRecord.stored now)
  unretracted : ∀ p, acc'.1.contains p = true → acc.1.contains p = true ∨ p ∈ paths

theorem flushBatch_flushes (now : Timestamp) (acc : StringSet × Run σ) (b : Batch) :
    Flushes now b.retract acc (flushBatch now acc b) := by
  rcases flushBatch_cases now acc b with
    ⟨n, sink, records, -, heq, hget⟩ | ⟨e, sink, t, -, hsame, heq⟩
  · rw [heq]
    refine ⟨⟨rfl, rfl, rfl, rfl, .refl _, rfl, rfl, rfl, rfl, rfl, rfl⟩, rfl, rfl, rfl, fun p => ?_,
      fun p => .inl⟩
    by_cases hp : p ∈ b.retract
    · exact .inr ⟨hp, (hget p).trans (if_pos hp)⟩
    · exact .inl ((hget p).trans (if_neg hp))
  · rw [heq]
    refine ⟨⟨rfl, rfl, rfl, rfl, hsame, rfl, rfl, rfl, rfl, rfl, rfl⟩, rfl, rfl, rfl, fun p => .inl rfl,
      fun p hp => ?_⟩
    exact ((StringSet.contains_addAll ..).1 hp).imp_right fun hp => (List.mem_filter.1 hp).1

theorem foldl_flushBatch (now : Timestamp) (bs : List Batch) (acc : StringSet × Run σ) :
    Flushes now (bs.flatMap (·.retract)) acc (bs.foldl (flushBatch now) acc) := by
  induction bs generalizing acc with
  | nil =>
    exact ⟨⟨rfl, rfl, rfl, rfl, .refl _, rfl, rfl, rfl, rfl, rfl, rfl⟩, rfl, rfl, rfl, fun p => .inl rfl,
      fun p => .inl⟩
  | cons b rest ih =>
    have hone := flushBatch_flushes now acc b
    have hrest := ih (flushBatch now acc b)
    rw [List.foldl_cons, List.flatMap_cons]
    refine ⟨hone.offers.trans hrest.offers, hrest.removed.trans hone.removed,
      hrest.forgotten.trans hone.forgotten, hrest.touched.trans hone.touched, fun p => ?_,
      fun p hp => ?_⟩
    · rw [List.mem_append]
      -- what is stored twice is stored once
      rcases hrest.records p with h₂ | ⟨hp₂, h₂⟩ <;> rcases hone.records p with h₁ | ⟨hp₁, h₁⟩
      · exact .inl (h₂.trans h₁)
      · exact .inr ⟨.inl hp₁, h₂.trans h₁⟩
      · exact .inr ⟨.inr hp₂, by rw [h₂, h₁]⟩
      · exact .inr ⟨.inl hp₁, by rw [h₂, h₁]; simp [Function.comp_def]⟩
    · rw [List.mem_append]
      rcases hrest.unretracted p hp with hp | hp
      · exact (hone.unretracted p hp).imp_right .inl
      · exact .inr (.inr hp)

omit [Sink σ] in
/-- The files of the batches. -/
theorem mem_retract_batches (t : Table) (limit : Nat) (removed finished : List String)
    (drops : List SymbolId) (p : String) :
    p ∈ (t.batches limit removed finished drops).flatMap (·.retract) ↔
      p ∈ removed ∨ p ∈ finished := by
  obtain ⟨gs, hbs, rfl, rfl, -⟩ := t.batches_eq limit removed finished drops
  rw [hbs]
  simp only [List.mem_flatMap, List.mem_map, exists_exists_and_eq_and, Group.batch,
    List.mem_append, ← exists_or, ← and_or_left]

theorem flush_flushes (now : Timestamp) (finished : List String) (r : Run σ) :
    Flushes now (r.removed ++ finished) (∅, r) (r.flush now finished) := by
  have h := foldl_flushBatch now (r.table.batches (max r.settings.pipeline.batchSize 1) r.removed
    finished (r.droppedIds.keys.filter fun id => (SymbolLookup.findId? r.table id).isNone)) (∅, r)
  refine ⟨h.offers, h.removed, h.forgotten, h.touched,
    fun p => (h.records p).imp_right (And.imp_left fun hp => ?_),
    fun p hp => (h.unretracted p hp).imp_right fun hp => ?_⟩ <;>
    exact List.mem_append.2 ((mem_retract_batches ..).1 hp)

omit [Sink σ] in
/-- A store in memory without rejections refuses no batch. -/
theorem flush_sinkFailures {r : Run MemoryStore} (h : r.sink.rejections = 0) (now : Timestamp)
    (finished : List String) :
    (r.flush now finished).2.report.sinkFailures = r.report.sinkFailures := by
  refine (List.foldlRecOn (motive := fun acc : StringSet × Run MemoryStore =>
    acc.2.sink.rejections = 0 ∧ acc.2.report.sinkFailures = r.report.sinkFailures) _
    (flushBatch now) ⟨h, rfl⟩ fun acc hacc b _ => ?_).2
  obtain ⟨s', hw, hs'⟩ := MemoryStore.writeRetrying_ok hacc.1 b
    acc.2.settings.pipeline.sinkRetries
  rcases flushBatch_cases now acc b with ⟨n, sink, records, hw', heq, -⟩ | ⟨e, sink, t, hw', -, heq⟩
  · cases hw.symm.trans hw'
    rw [heq]
    exact ⟨hs', hacc.2⟩
  · cases hw.symm.trans hw'

/-! ## The whole delivery -/

/-- What the end of a run does, after the batches. -/
structure Concludes (flushed : StringSet × Run σ) (report : RunReport) (c : Controller σ) :
    Prop where
  offers : Offers flushed.2 report c
  records : ∀ p, c.records.get? p =
    if p ∈ flushed.2.removed ∧ flushed.1.contains p = true then some (.tombstone p)
    else flushed.2.records.get? p
  /-- The records of touched and of buried files are saved, and only removed files whose rows are
  gone are forgotten besides those that the run forgets. -/
  sink : ∃ records removed, c.sink = (Sink.save records removed flushed.2.sink).2 ∧
    (∀ p, flushed.2.touched.contains p = true ∨
      p ∈ flushed.2.removed ∧ flushed.1.contains p = true →
        ∀ x, c.records.get? p = some x → x ∈ records) ∧
    ∀ p ∈ removed, p ∈ flushed.2.forgotten ∨
      p ∈ flushed.2.removed ∧ flushed.1.contains p = false
  sinkFailures : report.sinkFailures = flushed.2.report.sinkFailures

theorem saveRecords_concludes (unretracted : StringSet) (r : Run σ) :
    Concludes (unretracted, r) (r.saveRecords unretracted).report
      (r.saveRecords unretracted).toController := by
  obtain ⟨records, touched, hbury, htouched, hget⟩ :=
    foldl_bury (r.removed.filter unretracted.contains) r
  have hrec : ∀ p, records.get? p = if p ∈ r.removed ∧ unretracted.contains p = true then
      some (.tombstone p) else r.records.get? p := by
    intro p
    simp only [hget, List.mem_filter]
  have hsaved : ∀ p, r.touched.contains p = true ∨ p ∈ r.removed ∧ unretracted.contains p = true →
      ∀ x, records.get? p = some x → x ∈ touched.toList.filterMap records.get? := by
    intro p hp x hx
    refine List.mem_filterMap.2 ⟨p, StringSet.mem_toList.2 (htouched p ?_), hx⟩
    rwa [List.mem_filter]
  have hgone : ∀ p ∈ r.forgotten ++ r.removed.filter (not ∘ unretracted.contains),
      p ∈ r.forgotten ∨ p ∈ r.removed ∧ unretracted.contains p = false := by
    intro p hp
    simpa using hp
  unfold saveRecords
  simp only [List.partition_eq_filter_filter, hbury]
  split
  · next sink hs =>
    exact ⟨⟨rfl, rfl, rfl, rfl, .refl _, rfl, rfl, rfl, rfl, rfl, rfl⟩, hrec,
      ⟨_, _, (congrArg Prod.snd hs).symm, hsaved, hgone⟩, rfl⟩
  · next e sink hs =>
    exact ⟨⟨rfl, rfl, rfl, rfl, .record _ _, rfl, rfl, rfl, rfl, rfl, rfl⟩, hrec,
      ⟨_, _, (congrArg Prod.snd hs).symm, hsaved, hgone⟩, rfl⟩

theorem deliver_concludes (now : Timestamp) (finished : List String) (r : Run σ) :
    Concludes (r.flush now finished) (r.deliver now finished).1 (r.deliver now finished).2 := by
  have h := saveRecords_concludes (r.flush now finished).1 (r.flush now finished).2
  exact ⟨h.offers.trans ⟨rfl, rfl, rfl, rfl, .setDiagnostics _ _, rfl, rfl, rfl, rfl, rfl, rfl⟩,
    h.records, h.sink, h.sinkFailures⟩

theorem deliver_offers (now : Timestamp) (finished : List String) (r : Run σ) :
    Offers r (r.deliver now finished).1 (r.deliver now finished).2 :=
  (flush_flushes now finished r).offers.trans (deliver_concludes now finished r).offers

/-- The record of a file after the delivery. -/
theorem deliver_records (now : Timestamp) (finished : List String) (hf : r.Forgets) (p : String) :
    (r.deliver now finished).2.records.get? p = r.records.get? p ∨
      p ∈ finished ∧ (r.deliver now finished).2.records.get? p =
        (r.records.get? p).map (FileRecord.stored now) ∨
      p ∈ r.removed ∧ (r.deliver now finished).2.records.get? p = some (.tombstone p) := by
  have hflush := flush_flushes now finished r
  rw [(deliver_concludes now finished r).records, hflush.removed]
  split
  · next h => exact .inr (.inr ⟨h.1, rfl⟩)
  · rcases hflush.records p with heq | ⟨hp, heq⟩
    · exact .inl heq
    · rcases List.mem_append.1 hp with hp | hp
      · -- there is nothing to mark for a removed file
        have hnone := (hf p hp).2
        exact .inl (by rw [heq, hnone]; rfl)
      · exact .inr (.inl ⟨hp, heq⟩)

/-- A delivery keeps the order of a project. -/
theorem deliver_orderly (h : r.Orderly names) (hf : r.Forgets) {finished : List String}
    (hfin : ∀ p ∈ finished, p ≠ settingsFile → (r.sketches.get? p).isSome = true)
    (now : Timestamp) : (r.deliver now finished).2.Orderly names := by
  have hgraph := (deliver_offers now finished r).table
  have hrec := deliver_records now finished hf
  refine ⟨h.table.of_same hgraph.symbols, h.counted.of_same hgraph.edges,
    fun he => h.owned (hgraph.edges.edgesOf _ ▸ he), fun {o} ho he => ?_, fun {p x} hx => ?_⟩
  · obtain ⟨x, hx⟩ := contains_iff.1 (h.recorded ho (hgraph.edges.edgesOf o ▸ he))
    rw [contains]
    rcases hrec o with heq | ⟨-, heq⟩ | ⟨-, heq⟩ <;> simp [heq, hx]
  · rcases hrec p with heq | ⟨hp, heq⟩ | ⟨-, heq⟩
    · exact h.record (heq ▸ hx)
    · rw [heq] at hx
      obtain ⟨y, hy, rfl⟩ := Option.map_eq_some_iff.1 hx
      have hok := h.record hy
      refine ⟨by simp [hok.path_eq], fun hs => hok.sketches (by simpa using hs), fun _ hne => ?_⟩
      have hsome := hfin p hp hne
      rw [Controller.sketches, get?_filterMap, hy] at hsome
      simpa using hsome
    · cases heq.symm.trans hx
      exact ⟨rfl, fun hs => (by cases hs), fun hs => (by cases hs)⟩

/-- A delivery adds no sketches. -/
theorem deliver_sketches (hf : r.Forgets) (now : Timestamp) (finished : List String) {p : String}
    {f : FileSketch} (hs : (r.deliver now finished).2.sketches.get? p = some f) :
    r.sketches.get? p = some f := by
  rw [Controller.sketches, get?_filterMap] at hs ⊢
  rcases deliver_records now finished hf p with heq | ⟨-, heq⟩ | ⟨-, heq⟩ <;> rw [heq] at hs
  · exact hs
  · cases hx : r.records.get? p with
    | none => rw [hx] at hs; cases hs
    | some x => simpa [hx] using hs
  · cases hs

end Offering

/-! ## Removed files -/

/-- Only offered sources get a record. -/
theorem Step.created (hs : Step names due r r') {p : String} (hc : r'.records.contains p = true) :
    r.records.contains p = true ∨ ∃ s ∈ due, s.path = p := by
  cases hs with
  | records hs =>
    obtain ⟨x, hx⟩ := contains_iff.1 hc
    exact (hs.revised hx).created
  | @commit c summary hs =>
    by_cases hc' : p = c.source.path
    · exact .inr ⟨_, hs.offered, hc'.symm⟩
    · left
      rw [contains, hs.records p hc'] at hc
      rw [contains]
      split at hc
      · simpa using hc
      · exact hc
  | edges hs => exact .inl (hs.contains p ▸ hc)
  | learn hs | adopt hs | retire hs | prune hs => exact .inl (hs.records ▸ hc)

/-- Removed files stay without a record as long as they are not offered. -/
theorem Steps.forgets (hs : Steps names due r r') (hdue : ∀ s ∈ due, s.path ∉ r.removed)
    (hf : r.Forgets) : r'.Forgets := by
  induction hs with
  | refl => exact hf
  | @tail r₁ r₂ hs hstep ih =>
    intro p hp
    rw [hstep.stays.removed] at hp
    obtain ⟨hne, hnone⟩ := ih p hp
    refine ⟨hne, contains_eq_false_iff.1 (Bool.eq_false_iff.2 ?_)⟩
    intro hc
    rcases hstep.created hc with hc | ⟨s, hs', rfl⟩
    · rw [contains, hnone] at hc
      cases hc
    · exact hdue s hs' ((Steps.stays hs).removed ▸ hp)

end Run

namespace Controller

variable {c c' : Controller σ} {k : Conditions} {changes : List FileChange} {full : Bool}
  {report : RunReport}

theorem checkSettings_removed (c : Controller σ) (full : Bool) (now : Timestamp) :
    ((Run.start c full).checkSettings now).removed = [] := by
  rcases Run.checkSettings_cases (Run.start c full) now with heq | ⟨paths, r₁, -, hm, hr⟩
  · rw [heq]
    rfl
  · exact hr.removed.trans hm.removed

theorem begun_forgets : (c.begun k changes full).1.Forgets := by
  refine Run.takeChanges_forgets (fun p hp => ?_) changes
  rw [checkSettings_removed] at hp
  cases hp

/-- What a successful run did: it worked, and delivered what it had finished. -/
structure Ran [Sink σ] (names : Set String) (k : Conditions) (changes : List FileChange)
    (full : Bool) (c : Controller σ) (finished : List String) (r : Run σ) (report : RunReport)
    (c' : Controller σ) : Prop where
  work : c.work k changes full = .ok (finished, r)
  worked : Run.Worked names (c.begun k changes full).2 (c.begun k changes full).1 finished r
  delivered : r.deliver k.now finished = (report, c')
  orderly : r.Orderly names
  forgets : r.Forgets
  after : c'.Orderly names

section

variable [Sink σ] {k : Conditions} {changes : List FileChange} {full : Bool} {c c' : Controller σ}
  {finished : List String} {r : Run σ} {report : RunReport}

theorem Ran.deliver_eq (h : Ran names k changes full c finished r report c') :
    (r.deliver k.now finished).2 = c' :=
  congrArg Prod.snd h.delivered

theorem Ran.offers (h : Ran names k changes full c finished r report c') :
    Run.Offers r report c' := by
  have hoffers := Run.deliver_offers k.now finished r
  rwa [h.delivered] at hoffers

end

/-- The finished files have sketches. -/
theorem sketches_of_worked {r r' : Run σ} {finished : List String}
    (hw : Run.Worked names due r finished r') :
    ∀ p ∈ finished, p ≠ settingsFile → (r'.sketches.get? p).isSome = true := by
  obtain ⟨files, hfiles, -, hsk⟩ := hw.files
  intro p hp hne
  refine (hsk p ?_).2
  rcases hfiles with rfl | rfl
  · exact hp
  · exact (List.mem_append.1 hp).resolve_right fun hp => hne (List.mem_singleton.1 hp)

theorem ran_of_run [Sink σ] (h : c.Orderly names) (hw : c.Within names k changes full)
    (hrun : c.run k changes full = .ok (report, c')) :
    ∃ finished r, Ran names k changes full c finished r report c' := by
  rw [run_eq] at hrun
  cases hwork : c.work k changes full with
  | error e => simp [hwork, Except.map] at hrun
  | ok x =>
    obtain ⟨finished, r⟩ := x
    rw [hwork] at hrun
    have hout : r.deliver k.now finished = (report, c') := Except.ok.inj hrun
    have hworked := work_worked h hw hwork
    have hcoh := ((hw.covered h).steps hworked.steps).toOrderly
    have hforgets : r.Forgets := Run.Steps.forgets hworked.steps
      (fun s hs => Run.takeChanges_due_notMem_removed (checkSettings_removed c full k.now) hs)
      begun_forgets
    have hafter := Run.deliver_orderly hcoh hforgets (sketches_of_worked hworked) k.now
    rw [hout] at hafter
    exact ⟨finished, r, hwork, hworked, hout, hcoh, hforgets, hafter⟩

end Controller

end CodeAtlas
