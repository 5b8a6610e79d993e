import Mathlib
import CodeAtlas.Proofs.Project.Frame

/-!
# Work that a run leaves behind

A run queues a file to delete its edges and to compute them anew. A pass may fail on the file or not
come to it, and the store may refuse its batch; then the state in its record is all that the next
run has to go by. A record that is stale or collected brings the file back into the queue. A record
that is failed does not, although a failed file with old sketches is queued like any other when
something that it points at changes.

Main results:

* `flush_records`: only the files of batches that the store takes are marked as stored.
* `Ran.isPending`: what a run queued and the store has not taken waits for the next run.
* `begun_queues`: the next run takes up what waits, unless it removes it.
* `unfinished_resolved_next`: so the next run resolves it again.
-/

namespace CodeAtlas

open SortedMap

variable {σ : Type} {names : Set String}

/-! ## Batches that the store takes -/

/-- The files of the batches that a store takes, when they are offered one after the other. -/
def Sink.takenFiles [Sink σ] (retries : Nat) : List Batch → σ → List String
  | [], _ => []
  | b :: rest, s =>
    match Sink.writeRetrying b retries s with
    | (.ok _, s') => b.retract ++ takenFiles retries rest s'
    | (.error _, s') => takenFiles retries rest s'

namespace Run

variable {r : Run σ}

/-- The batches that a run offers to the store. -/
def offered (finished : List String) (r : Run σ) : List Batch :=
  r.table.batches (max r.settings.pipeline.batchSize 1) r.removed finished
    (r.droppedIds.keys.filter fun id => (SymbolLookup.findId? r.table id).isNone)

section

variable [Sink σ]

/-- The files whose batch the store takes. -/
def accepted (finished : List String) (r : Run σ) : List String :=
  Sink.takenFiles r.settings.pipeline.sinkRetries (r.offered finished) r.sink

theorem foldl_flushBatch_records (now : Timestamp) (bs : List Batch) (acc : StringSet × Run σ)
    (p : String) : (bs.foldl (flushBatch now) acc).2.records.get? p =
      if p ∈ Sink.takenFiles acc.2.settings.pipeline.sinkRetries bs acc.2.sink then
        (acc.2.records.get? p).map (FileRecord.stored now)
      else acc.2.records.get? p := by
  induction bs generalizing acc with
  | nil => simp [Sink.takenFiles]
  | cons b rest ih =>
    rw [List.foldl_cons, ih]
    rcases flushBatch_cases now acc b with
      ⟨n, sink, records, hw, heq, hget⟩ | ⟨e, sink, t, hw, -, heq⟩
    · rw [heq]
      simp only [Sink.takenFiles, hw, hget, List.mem_append]
      -- what is stored twice is stored once
      by_cases hb : p ∈ b.retract <;>
        by_cases hrest : p ∈ Sink.takenFiles acc.2.settings.pipeline.sinkRetries rest sink <;>
        simp [hb, hrest, Function.comp_def]
    · rw [heq]
      simp only [Sink.takenFiles, hw]

theorem flush_records (now : Timestamp) (finished : List String) (r : Run σ) (p : String) :
    (r.flush now finished).2.records.get? p =
      if p ∈ r.accepted finished then (r.records.get? p).map (FileRecord.stored now)
      else r.records.get? p :=
  foldl_flushBatch_records now (r.offered finished) (∅, r) p

/-- A file whose rows were not taken keeps its record, unless it is removed. -/
theorem get?_records_of_deliver {now : Timestamp} {finished : List String} {p : String}
    {x : FileRecord} (hp : p ∉ r.accepted finished)
    (hx : (r.deliver now finished).2.records.get? p = some x) (hsk : x.sketches.isSome = true) :
    r.records.get? p = some x := by
  rw [(deliver_concludes now finished r).records] at hx
  split at hx
  · cases hx
    cases hsk
  · rwa [flush_records, if_neg hp] at hx

end

end Run

/-! ## From one run to the next -/

/-- A known state that is neither resolved nor failed waits for a resolution. -/
theorem FileRecord.Sensible.isPending {x : FileRecord} (h : x.Sensible)
    (hsk : x.sketches.isSome = true) (hresolved : x.state ≠ .resolved) (hfailed : x.state ≠ .failed) :
    x.isPending = true := by
  have hknown := h.known
  unfold FileRecord.isPending
  cases hs : x.state <;> simp_all

namespace Controller

variable {c c' c₀ : Controller σ} {k : Conditions} {changes : List FileChange} {full : Bool}
  {finished : List String} {r : Run σ} {report : RunReport} {p : String} {x : FileRecord}

/-- The beginning of a run queues what waits, unless it removes it. -/
theorem begun_queues (hp : p ≠ settingsFile) (hx : c.records.get? p = some x)
    (hpending : x.isPending = true) : p ∈ (c.begun k changes full).1.removed ∨
      (c.begun k changes full).1.affected.contains p = true ∧
        ((c.begun k changes full).1.collection? p).isSome = true := by
  have hsome : (c.collection? p).isSome = true := by
    rw [collection?, hx]
    simp only [Option.bind_some, FileRecord.collection?, Option.isSome_map]
    exact (Bool.and_eq_true_iff.1 hpending).2
  have hstart : (Run.start c full).affected.contains p = true := by
    show (StringSet.ofList (c.records.filter fun _ x => x.isPending).keys).contains p = true
    rw [StringSet.contains_ofList, mem_keys, contains_iff]
    exact ⟨x, by simp [get?_filter, hx, hpending]⟩
  refine Run.takeChanges_induct (I := fun r : Run σ => p ∈ r.removed ∨
    r.affected.contains p = true ∧ (r.collection? p).isSome = true) changes ?_ ?_ ?_
  · -- changed settings only queue more files
    right
    rcases Run.checkSettings_cases (Run.start c full) k.now with heq | ⟨paths, r₁, -, hm, hr⟩
    · rw [heq]
      exact ⟨hstart, hsome⟩
    · constructor
      · rw [hr.affected]
        exact (hm.affected p).2 (.inl hstart)
      · rw [collection?, hr.records p hp]
        exact (congrArg Option.isSome (hm.collection? p)).trans hsome
  · intro r r' path h hr
    rw [hr.removed, hr.collection?, List.mem_append, List.mem_singleton]
    by_cases hpath : p = path
    · exact .inl (.inr hpath)
    · rw [if_neg hpath]
      exact h.imp .inl (And.imp_left fun ha => (hr.affected p).2 ⟨hpath, .inl ha⟩)
  · intro r r' s h he
    rw [he.removed, he.controller]
    exact h.imp_right (And.imp_left fun ha => (he.affected p).2 (.inl ha))

section

variable [Sink σ]

/-- What a run queued and the store has not taken waits for the next run, unless it failed. -/
theorem Ran.isPending (hc : c.Sensible) (hran : Ran names k changes full c finished r report c')
    (hp : p ≠ settingsFile) (ha : r.affected.contains p = true) (hrefused : p ∉ r.accepted finished)
    (hx : c'.records.get? p = some x) (hsk : x.sketches.isSome = true) (hfailed : x.state ≠ .failed) :
    x.isPending = true := by
  have hbefore : r.records.get? p = some x :=
    Run.get?_records_of_deliver hrefused (hran.deliver_eq ▸ hx) hsk
  have hsensible := Run.Steps.sensible hran.worked.steps (begun_sensible hc k changes full) p x hp
    hbefore
  exact hsensible.isPending hsk (hran.worked.queued p ha hp x hbefore) hfailed

/-- What waits is resolved by the next run, or the second or third pass fails on it. -/
theorem Ran.resolves (hran : Ran names k changes full c finished r report c')
    (hp : p ≠ settingsFile) (hx : c.records.get? p = some x) (hpending : x.isPending = true)
    (hkept : p ∉ (c.begun k changes full).1.removed) (hcancelled : report.cancelled = false) :
    p ∈ report.resolved ∨ ∃ f ∈ report.failures, f.path = p ∧ f.pass ≠ .collect := by
  have hoffers := hran.offers
  obtain ⟨ha, hsome⟩ := (begun_queues hp hx hpending).resolve_left hkept
  have hsk : (r.sketches.get? p).isSome = true := by
    rw [get?_sketches_eq_map, Option.isSome_map]
    exact Run.Steps.isSome_collection? hran.worked.steps hsome
  rcases hran.worked.settled p ((Run.Steps.stays hran.worked.steps).affected p ha) hsk with
    hmem | ⟨f, hf, hpath⟩ | hcancel
  · left
    by_contra hres
    exact hran.not_mem_finished hp hres hmem
  · right
    exact ⟨f, hoffers.failures ▸ hf, hpath⟩
  · rw [← hoffers.reportCancelled, hcancelled] at hcancel
    cases hcancel

/-- A run deletes or computes anew the edges of a file, and the store does not take its rows. -/
def Unfinished (k : Conditions) (changes : List FileChange) (full : Bool) (c : Controller σ)
    (p : String) : Prop :=
  ∃ finished r, c.work k changes full = .ok (finished, r) ∧ r.affected.contains p = true ∧
    p ∉ r.accepted finished

theorem Reaches.sensible {P : RunKind σ} {Q : σ → σ → Prop} (hnew : c₀.IsNew)
    (h : Reaches names P Q c₀ c) : c.Sensible :=
  h.induct (I := fun c : Controller σ => c.Sensible) hnew.orderly hnew.sensible
    (fun _ _ _ _ h hran => hran.sensible h) fun _ h => h

/-- In every history of a project, whatever failed, timed out, was cancelled or refused: if a run
leaves a file unfinished, then the next run, even one without changes, resolves it again, unless it
removes the file or is cancelled. The file has sketches and did not fail to be collected. -/
theorem unfinished_resolved_next {P : RunKind σ} {Q : σ → σ → Prop} {c₂ : Controller σ}
    {k' : Conditions} {changes' : List FileChange} {full' cancelled : Bool} {sink : σ}
    {report' : RunReport} (hnew : c₀.IsNew) (h : Reaches Set.univ P Q c₀ c)
    (hrun : c.run k changes full = .ok (report, c')) (hp : p ≠ settingsFile)
    (hopen : c.Unfinished k changes full p) (hx : c'.records.get? p = some x)
    (hsk : x.sketches.isSome = true) (hfailed : x.state ≠ .failed)
    (hnext : { c' with cancelled, sink }.run k' changes' full' = .ok (report', c₂))
    (hkept : p ∉ ({ c' with cancelled, sink }.begun k' changes' full').1.removed)
    (hcancelled : report'.cancelled = false) :
    p ∈ report'.resolved ∨ ∃ f ∈ report'.failures, f.path = p ∧ f.pass ≠ .collect := by
  obtain ⟨hc, -⟩ := h.orderly_sameKind hnew.orderly
  obtain ⟨finished, r, hran⟩ := ran_of_run hc (c.within_univ k changes full) hrun
  obtain ⟨finished', r', hwork, ha, hrefused⟩ := hopen
  cases hwork.symm.trans hran.work
  have hpending := hran.isPending (h.sensible hnew) hp ha hrefused hx hsk hfailed
  have hc' : Orderly Set.univ { c' with cancelled, sink } :=
    ⟨hran.after.table, hran.after.counted, hran.after.owned, hran.after.recorded, hran.after.record⟩
  obtain ⟨finished₂, r₂, hran₂⟩ := ran_of_run hc' (within_univ _ k' changes' full') hnext
  exact hran₂.resolves hp hx hpending hkept hcancelled

end

/-- A file that refers to itself, and a store that refuses what the first run offers. -/
def untaken : Controller MemoryStore :=
  { ofSketches [.extending "a.go" "a.go"] with
    settings := { pipeline := { sinkRetries := 0 } }, sink := { rejections := 1 } }

theorem runs_untaken : (∃ x, untaken.work {} [.seen "a.go"] false = .ok x ∧
      x.2.affected.contains "a.go" = true ∧ "a.go" ∉ x.2.accepted x.1) ∧
    ∃ x, untaken.run {} [.seen "a.go"] false = .ok x ∧
      (x.2.records.get? "a.go").map (fun y => (y.sketches.isSome, y.state)) =
        some (true, .collected) ∧
      (x.2.begun {} [] false).1.removed = [] ∧
      ∃ y, x.2.run {} [] false = .ok y ∧ y.1.failures = [] ∧ y.1.cancelled = false := by
  decide +kernel

/-- The next run, without changes, resolves the file again. -/
theorem unfinished_resolved_next_untaken : ∃ report c report' c',
    untaken.run {} [.seen "a.go"] false = .ok (report, c) ∧
    untaken.Unfinished {} [.seen "a.go"] false "a.go" ∧
    c.run {} [] false = .ok (report', c') ∧ report'.failures = [] ∧ "a.go" ∈ report'.resolved := by
  obtain ⟨⟨⟨finished, r⟩, hwork, hqueued, hrefused⟩, ⟨report, c⟩, hrun, hrecord, hremoved,
    ⟨report', c'⟩, hrun', hfailures, hcancelled⟩ := runs_untaken
  have hopen : untaken.Unfinished {} [.seen "a.go"] false "a.go" :=
    ⟨finished, r, hwork, hqueued, hrefused⟩
  refine ⟨report, c, report', c', hrun, hopen, hrun', hfailures, ?_⟩
  obtain ⟨x, hx, hstate⟩ := Option.map_eq_some_iff.1 hrecord
  obtain ⟨hsketches, hstate⟩ := Prod.mk.inj hstate
  have hstart : Reaches Set.univ (fun _ _ _ _ _ => True) (fun _ _ => True) untaken untaken := .start
  have hagain := unfinished_resolved_next ⟨rfl, rfl, rfl⟩ hstart hrun (by decide) hopen hx hsketches
    (by rw [hstate]; decide) hrun' (by rw [hremoved]; exact List.not_mem_nil) hcancelled
  rw [hfailures] at hagain
  exact hagain.resolve_right (by simp)

end Controller

end CodeAtlas
