import Mathlib
import CodeAtlas.Project.Update
import CodeAtlas.Proofs.Project.Beginning
import CodeAtlas.Proofs.Project.Resolution

/-!
# A run up to the store

The rest of a run before it reaches the store: the edges of the settings, the records of finished
files, the placeholders that nothing needs. Then the whole run up to there.

Main results:

* `settle_spec`, `foldl_markReady`, `tidy_step`: the last steps.
* `run_eq`: a run works and then delivers.
* `work_worked`: what a run has done when it reaches the store.
-/

namespace CodeAtlas

open SortedMap

variable {σ : Type} {names : Set String}

namespace Run

variable {due : List SourceFile} {r r' : Run σ}

/-! ## The settings -/

/-- What the table learns from the settings. -/
def settingsTable (r : Run σ) : Table :=
  (Plugin.settingsEdges r.plugins r.settings.enrichment r.view r.table).2

theorem mem_settingsEdges {plugins : List Plugin} {s : EnrichmentSettings} {v : View} {t : Table}
    {e : Edge} : e ∈ (Plugin.settingsEdges plugins s v t).1 ↔
      ∃ plugin ∈ Plugin.active plugins s, e ∈ (plugin.analyzeSettings s v).edges := by
  unfold Plugin.settingsEdges
  rw [Table.mem_sort]
  simp

theorem settingsEdges_eq_nil {plugins : List Plugin} {s : EnrichmentSettings} {v : View}
    {t : Table} : (Plugin.settingsEdges plugins s v t).1 = [] ↔ Plugin.Silent plugins s v := by
  rw [List.eq_nil_iff_forall_not_mem]
  simp only [mem_settingsEdges, Plugin.Silent, List.eq_nil_iff_forall_not_mem]
  constructor
  · exact fun h plugin hp e he => h e ⟨plugin, hp, he⟩
  · rintro h e ⟨plugin, hp, he⟩
    exact h plugin hp e he

theorem settingsTable_taught (r : Run σ) : r.table.Taught r.settingsTable :=
  Table.foldl_taught _ (fun t s => Table.ensurePlaceholder_taught t s) _ _

/-- What the settings do to a run. -/
structure Refreshed (names : Set String) (due : List SourceFile) (r r' : Run σ) : Prop where
  steps : Steps names due r r'
  records : r'.records = r.records
  affected : r'.affected = r.affected
  settingsAffected : r'.settingsAffected = r.settingsAffected
  cancelled : r'.cancelled = r.cancelled
  report : r'.report = r.report

theorem refreshSettings_cases (hok : r.refreshSettings = .ok r') :
    (Plugin.Silent r.plugins r.settings.enrichment r.view ∧
      (r.settingsTable.containsFile settingsFile = true ∧
          r' = { r with table := (r.settingsTable.removeFile settingsFile).2 }.drop
            (r.settingsTable.removeFile settingsFile).1.removed ∨
        r.settingsTable.containsFile settingsFile = false ∧
          r' = { r with table := r.settingsTable })) ∨
      ¬Plugin.Silent r.plugins r.settings.enrichment r.view ∧ ∃ t t',
        (r.settingsTable.containsFile settingsFile = true ∧ t = r.settingsTable ∨
          r.settingsTable.containsFile settingsFile = false ∧
          ∃ summary, r.settingsTable.commitFile settingsFile [settingsSymbol] = (.ok summary, t)) ∧
        t.replaceEdges settingsFile
          (Plugin.settingsEdges r.plugins r.settings.enrichment r.view r.table).1 = .ok t' ∧
        r' = { r with table := t' } := by
  have hsilent : (Plugin.settingsEdges r.plugins r.settings.enrichment r.view r.table).1 = [] ↔
      Plugin.Silent r.plugins r.settings.enrichment r.view := settingsEdges_eq_nil
  unfold refreshSettings at hok
  unfold settingsTable
  rcases hall : Plugin.settingsEdges r.plugins r.settings.enrichment r.view r.table with
    ⟨edges, table⟩
  rw [hall] at hsilent
  simp only [hall] at hok
  by_cases hnil : edges = []
  · left
    refine ⟨hsilent.1 hnil, ?_⟩
    rw [if_pos (by simp [hnil])] at hok
    split at hok
    · next hc => exact .inl ⟨hc, (Except.ok.inj hok).symm⟩
    · next hc => exact .inr ⟨by simpa using hc, (Except.ok.inj hok).symm⟩
  · right
    refine ⟨fun hs => hnil (hsilent.2 hs), ?_⟩
    rw [if_neg (by simpa using hnil)] at hok
    split at hok
    · next hc =>
      obtain ⟨r₁, h₁, hok⟩ := bind_eq_ok.1 hok
      cases h₁
      split at hok
      · next t' ht' => exact ⟨table, t', .inl ⟨hc, rfl⟩, ht', (Except.ok.inj hok).symm⟩
      · cases hok
    · next hc =>
      rcases hcommit : table.commitFile settingsFile [settingsSymbol] with ⟨e | summary, t⟩
      · simp only [hcommit] at hok
        cases hok
      · simp only [hcommit] at hok
        obtain ⟨r₁, h₁, hok⟩ := bind_eq_ok.1 hok
        cases h₁
        split at hok
        · next t' ht' =>
          exact ⟨t, t', .inr ⟨by simpa using hc, summary, rfl⟩, ht', (Except.ok.inj hok).symm⟩
        · cases hok

/-- A step that changes nothing but the table. -/
theorem stays_of_table (r : Run σ) (t : Table) : Stays due r { r with table := t } :=
  .of_eq ⟨rfl, rfl, rfl, rfl, rfl⟩ rfl

theorem replaceSettings_step {t t' : Table} {v : View} (hasked : r.settingsAffected = true)
    (hv : v.snapshot.Named) (hknown : t.containsFile settingsFile = true)
    (ht : t.replaceEdges settingsFile
      (Plugin.settingsEdges r.plugins r.settings.enrichment v r.table).1 = .ok t') :
    Step names due { r with table := t } { r with table := t' } := by
  obtain ⟨hadm, hw⟩ := Table.replaceEdges_rewires ht
  have hmem : ∀ {e}, e ∈ Table.dropRepeats (Edge.sort
      (Plugin.settingsEdges r.plugins r.settings.enrichment v r.table).1) →
      e ∈ (Plugin.settingsEdges r.plugins r.settings.enrichment v r.table).1 :=
    fun he => Table.mem_sort.1 (Table.mem_of_mem_dropRepeats he)
  have hstays : Stays due { r with table := t } { r with table := t' } :=
    .of_eq ⟨rfl, rfl, rfl, rfl, rfl⟩ rfl
  exact .edges ⟨hstays, hw, rfl, fun e he => (hadm e (hmem he)).1,
    fun e he => .inr (.inr ⟨hknown, v, hv, mem_settingsEdges.1 (hmem he)⟩),
    fun e he => .inr (hadm e (hmem he)).2, fun hne => absurd rfl hne,
    fun hne => absurd rfl hne, .of_get?, fun hne => absurd rfl hne, fun _ _ => rfl, fun _ => rfl,
    fun _ => .inl hasked⟩

theorem refreshSettings_refreshed (h : r.Orderly names) (hasked : r.settingsAffected = true)
    (hnames : ∀ fqn, r.settingsTable.symbols.contains fqn = true → fqn ∈ names)
    (hok : r.refreshSettings = .ok r') : Refreshed names due r r' := by
  have hnamed : r.view.snapshot.Named := fun hx => (h.table.symbol hx).2
  set r₁ : Run σ := { r with table := r.settingsTable } with hr₁
  have hlearn : LearnStep names due r r₁ :=
    ⟨stays_of_table r _, settingsTable_taught r, hnames, rfl, rfl⟩
  rcases refreshSettings_cases hok with
    ⟨hsilent, ⟨hknown, rfl⟩ | ⟨-, rfl⟩⟩ | ⟨hloud, t, t', ht, ht', rfl⟩
  · have hretire : RetireStep due r₁ ({ r with
        table := (r.settingsTable.removeFile settingsFile).2 }.drop
          (r.settingsTable.removeFile settingsFile).1.removed) :=
      ⟨.of_eq ⟨rfl, rfl, rfl, rfl, rfl⟩ rfl, ⟨_, hsilent⟩, rfl, hknown, rfl,
        IdSet.contains_union _ _⟩
    exact ⟨.tail (.single (.learn hlearn)) (.retire hretire), rfl, rfl, rfl, rfl, rfl⟩
  · exact ⟨.single (.learn hlearn), rfl, rfl, rfl, rfl, rfl⟩
  · rcases ht with ⟨hknown, rfl⟩ | ⟨hunknown, summary, hcommit⟩
    · exact ⟨.tail (.single (.learn hlearn)) (replaceSettings_step hasked hnamed hknown ht'), rfl,
        rfl, rfl, rfl, rfl⟩
    · have hadopt : AdoptStep due r₁ { r with table := t } :=
        ⟨.of_eq ⟨rfl, rfl, rfl, rfl, rfl⟩ rfl, ⟨_, hloud⟩,
          contains_eq_false_iff.1 hunknown, ⟨summary, hcommit⟩, rfl, rfl, hasked⟩
      have hknown := Table.containsFile_of_commitFile hcommit
      exact ⟨.tail (.tail (.single (.learn hlearn)) (.adopt hadopt))
        (replaceSettings_step hasked hnamed hknown ht'), rfl, rfl, rfl, rfl, rfl⟩

/-- The settings are finished if something asked for them, unless the run is cancelled. -/
theorem settle_spec (h : r.Orderly names)
    (hnames : ∀ fqn, r.settingsTable.symbols.contains fqn = true → fqn ∈ names)
    {finished finished' : List String} (hok : r.settle finished = .ok (finished', r')) :
    Steps names due r r' ∧ r'.records = r.records ∧ r'.affected = r.affected ∧
      r'.settingsAffected = r.settingsAffected ∧
      (finished' = finished ∧ (r'.Calm → r.settingsAffected = false) ∨
        finished' = finished ++ [settingsFile] ∧ r.settingsAffected = true) := by
  have hend : ∀ {r₁ : Run σ}, Refreshed names due r r₁ →
      Steps names due r (if r₁.cancelled then r₁.reportCancelled else r₁) ∧
        (if r₁.cancelled then r₁.reportCancelled else r₁).records = r.records ∧
        (if r₁.cancelled then r₁.reportCancelled else r₁).affected = r.affected ∧
        (if r₁.cancelled then r₁.reportCancelled else r₁).settingsAffected =
          r.settingsAffected := by
    intro r₁ h₁
    split
    · exact ⟨h₁.steps.tail (.records (reportCancelled_step r₁)), h₁.records, h₁.affected,
        h₁.settingsAffected⟩
    · exact ⟨h₁.steps, h₁.records, h₁.affected, h₁.settingsAffected⟩
  unfold settle at hok
  split at hok
  · next hc =>
    obtain ⟨hasked, -⟩ := Bool.and_eq_true_iff.1 hc
    obtain ⟨r₁, h₁, hret⟩ := bind_eq_ok.1 hok
    cases hret
    obtain ⟨hsteps, hrec, haff, hsett⟩ := hend (refreshSettings_refreshed h hasked hnames h₁)
    exact ⟨hsteps, hrec, haff, hsett, .inr ⟨rfl, hasked⟩⟩
  · next hc =>
    cases hok
    have hrefl : Refreshed names due r r := ⟨.refl, rfl, rfl, rfl, rfl, rfl⟩
    obtain ⟨hsteps, hrec, haff, hsett⟩ := hend hrefl
    refine ⟨hsteps, hrec, haff, hsett, .inl ⟨rfl, fun hcalm => ?_⟩⟩
    by_contra hne
    have hasked : r.settingsAffected = true := by simpa using hne
    have hcancel : r.cancelled = true := by simpa [hasked] using hc
    rw [if_pos hcancel] at hcalm
    exact not_calm_reportCancelled r hcalm

end Run

/-! ## Before the store -/

/-- The record of a file whose rows are ready for the store. -/
def FileRecord.ready (x : FileRecord) : FileRecord :=
  if x.state == .failed then x else { x with state := .collected }

@[simp] theorem FileRecord.ready_sketches (x : FileRecord) : x.ready.sketches = x.sketches := by
  unfold FileRecord.ready
  split <;> rfl

@[simp] theorem FileRecord.ready_fingerprint (x : FileRecord) :
    x.ready.fingerprint = x.fingerprint := by
  unfold FileRecord.ready
  split <;> rfl

@[simp] theorem FileRecord.ready_ready (x : FileRecord) : x.ready.ready = x.ready := by
  unfold FileRecord.ready
  split <;> simp_all

namespace Run

variable {due : List SourceFile} {r r' : Run σ}

theorem markReady_step {path : String} (ha : path ≠ settingsFile →
      r.affected.contains path = true ∧ (r.sketches.get? path).isSome = true) :
    RecordsStep due r (r.markReady path) := by
  set r' := r.markReady path with hr'
  have hget : ∀ p, r'.records.get? p =
      if p = path then (r.records.get? path).map FileRecord.ready else r.records.get? p :=
    fun p => get?_modify r.records path p _
  refine ⟨.of_eq ⟨rfl, rfl, rfl, rfl, rfl⟩ rfl, .refl _, rfl, fun {p x} hx => ?_, fun p hc => ?_⟩
  · rw [hget] at hx
    split at hx
    · next heq =>
      subst heq
      obtain ⟨y, hy, rfl⟩ := Option.map_eq_some_iff.1 hx
      rw [hy]
      unfold FileRecord.ready
      split
      · exact .refl due r' p y
      · next hs =>
        refine .state fun hp => .ready (ha hp).1 ?_ (by simpa using hs)
        have hsk := (ha hp).2
        rwa [get?_sketches, hy] at hsk
    · exact .of_get? hx
  · rw [contains, hget]
    split
    · next hp => rwa [Option.isSome_map, ← hp]
    · exact hc

theorem foldl_markReady (l : List String) (hl : ∀ p ∈ l, p ≠ settingsFile →
      r.affected.contains p = true ∧ (r.sketches.get? p).isSome = true) :
    Steps names due r (l.foldl markReady r) ∧ (l.foldl markReady r).table = r.table ∧
      (l.foldl markReady r).affected = r.affected ∧
      (l.foldl markReady r).settingsAffected = r.settingsAffected ∧
      (l.foldl markReady r).report = r.report ∧
      (∀ p, r.touched.contains p = true ∨ p ∈ l →
        (l.foldl markReady r).touched.contains p = true) ∧
      ∀ p, (l.foldl markReady r).records.get? p =
        if p ∈ l then (r.records.get? p).map FileRecord.ready else r.records.get? p := by
  induction l generalizing r with
  | nil => exact ⟨.refl, rfl, rfl, rfl, rfl, by simp, by simp⟩
  | cons path rest ih =>
    have hstep : RecordsStep due r (r.markReady path) :=
      markReady_step (hl path (List.mem_cons_self ..))
    obtain ⟨hsteps, htable, haff, hset, hrep, htouched, hrec⟩ := ih (r := r.markReady path)
      fun p hp hne => by
        rw [Controller.sketches_of_collection? (hstep.collection? p)]
        exact hl p (List.mem_cons_of_mem _ hp) hne
    refine ⟨.head (.records hstep) hsteps, htable, haff, hset, hrep, fun p hp => htouched p ?_,
      fun p => ?_⟩
    · rw [List.mem_cons] at hp
      rw [markReady, StringSet.contains_add, Bool.or_eq_true, decide_eq_true_eq]
      tauto
    · have hget : (r.markReady path).records.get? p =
          if p = path then (r.records.get? path).map FileRecord.ready else r.records.get? p :=
        get?_modify r.records path p _
      rw [List.foldl_cons, hrec, hget]
      by_cases hp : p = path
      · by_cases hp' : path ∈ rest <;> simp [hp, hp', Function.comp_def]
      · simp [hp]

theorem tidy_step (hok : r.tidy = .ok r') :
    PruneStep due r r' ∧ r'.affected = r.affected ∧ r'.settingsAffected = r.settingsAffected ∧
      r'.report = r.report ∧ r'.touched = r.touched := by
  unfold tidy at hok
  rcases hp : r.table.pruneExternals with ⟨pruned, table⟩
  simp only [hp] at hok
  split at hok
  · cases hok
  · cases hok
    refine ⟨⟨.of_eq ⟨rfl, rfl, rfl, rfl, rfl⟩ rfl, by rw [hp]; rfl, rfl, fun id => ?_⟩, rfl, rfl, rfl,
      rfl⟩
    rw [hp]
    exact IdSet.contains_union _ _ id

end Run

/-! ## Working and delivering -/

/-- The rest of a run, from the store on. -/
def Run.deliver [Sink σ] (now : Timestamp) (finished : List String) (r : Run σ) :
    RunReport × Controller σ :=
  ((r.flush now finished).2.saveRecords (r.flush now finished).1).conclude finished

/-- A run from the changes up to the store; the answer holds the finished files. -/
def Run.work (k : Conditions) (due : List SourceFile) (r : Run σ) :
    Except (Halt σ) (List String × Run σ) := do
  let r ← r.collect k due
  let (resolved, r) ← r.resolve k
  let (enriched, r) ← r.enrich k resolved
  let (finished, r) ← r.settle enriched
  let r ← (finished.foldl Run.markReady r).tidy
  return (finished, r)

/-- The work succeeds if every stage does. -/
theorem Run.work_of_stages {k : Conditions} {due : List SourceFile} {r r₁ r₂ r₃ r₄ r₅ : Run σ}
    {files files' finished : List String} (hcollect : r.collect k due = .ok r₁)
    (hresolve : r₁.resolve k = .ok (files, r₂)) (henrich : r₂.enrich k files = .ok (files', r₃))
    (hsettle : r₃.settle files' = .ok (finished, r₄))
    (htidy : (finished.foldl Run.markReady r₄).tidy = .ok r₅) :
    r.work k due = .ok (finished, r₅) := by
  unfold Run.work
  simp only [hcollect, hresolve, henrich, hsettle, htidy, bind, Except.bind]
  rfl

namespace Controller

/-- A run that has taken in the changes, with the files to be collected. -/
def begun (k : Conditions) (changes : List FileChange) (full : Bool) (c : Controller σ) :
    Run σ × List SourceFile :=
  ((Run.start c full).checkSettings k.now).takeChanges changes

/-- A run up to the store; the answer holds the finished files. -/
def work (k : Conditions) (changes : List FileChange) (full : Bool) (c : Controller σ) :
    Except (Halt σ) (List String × Run σ) :=
  (c.begun k changes full).1.work k (c.begun k changes full).2

/-- The table of a run when it knows the most: after the passes, with what the settings teach. -/
def widestTable (k : Conditions) (changes : List FileChange) (full : Bool) (c : Controller σ) :
    Except (Halt σ) Table := do
  let r ← (c.begun k changes full).1.collect k (c.begun k changes full).2
  let (resolved, r) ← r.resolve k
  let (_, r) ← r.enrich k resolved
  return r.settingsTable

theorem run_eq [Sink σ] (k : Conditions) (changes : List FileChange) (full : Bool)
    (c : Controller σ) : c.run k changes full =
      (c.work k changes full).map fun x => x.2.deliver k.now x.1 := by
  unfold run work Run.work
  change _ = (fun x : List String × Run σ => x.2.deliver k.now x.1) <$> _
  simp only [map_bind]
  rfl

/-- A run uses only these names: the sketches that are offered and the placeholders that it
needs. -/
structure Within (names : Set String) (k : Conditions) (changes : List FileChange) (full : Bool)
    (c : Controller σ) : Prop where
  settings : settingsFile ∈ names
  sources : ∀ s, .modified s ∈ changes → ∀ f, (c.registry.collect s).outcome = .done f →
    Table.UsesNames names f.assembleSymbols
  widest : ∀ t, c.widestTable k changes full = .ok t →
    ∀ fqn, t.symbols.contains fqn = true → fqn ∈ names

end Controller

namespace Run

variable {due : List SourceFile} {r r' : Run σ}

/-- What a run has done when it reaches the store; `r` is the run after the changes. -/
structure Worked (names : Set String) (due : List SourceFile) (r : Run σ) (finished : List String)
    (r' : Run σ) : Prop where
  steps : Steps names due r r'
  /-- The finished files are queued files with sketches, once each, and at last the settings. -/
  files : ∃ files, (finished = files ∨ finished = files ++ [settingsFile]) ∧ files.Nodup ∧
    ∀ p ∈ files, r'.affected.contains p = true ∧ (r'.sketches.get? p).isSome = true
  ready : ∀ p ∈ finished, ∀ x, r'.records.get? p = some x → x.ready = x
  touched : ∀ p ∈ finished, r'.touched.contains p = true
  settled : ∀ p, r'.affected.contains p = true → (r'.sketches.get? p).isSome = true →
    Settled (finished, r') p
  queued : r'.Queued
  complete : r'.Calm → (r'.settingsAffected = true → settingsFile ∈ finished) ∧ ∀ s ∈ due,
        r'.affected.contains s.path = true ∧ ∃ f x, (r.registry.collect s).outcome = .done f ∧
          r'.records.get? s.path = some x ∧ x.fingerprint = s.fingerprint ∧ x.sketches = some f

/-- The passes only add to what the table knows. -/
theorem contains_of_enrich {k : Conditions} {resolved finished : List String}
    (hok : r.enrich k resolved = .ok (finished, r')) {fqn : String}
    (hc : r.table.symbols.contains fqn = true) : r'.table.symbols.contains fqn = true := by
  unfold enrich at hok
  dsimp only at hok
  split at hok
  · cases hok
    exact hc
  · have hsame := (foldlM_takeResult_table hok).1
    rw [hsame.symbols]
    exact (runPass_spec k .enrich _ r fun f t => runOn_taught ..).2.1.contains hc

/-- The second and the third pass, after the first one. -/
theorem passes_passed {r₁ r₂ r₃ : Run σ} {k : Conditions} {resolved enriched : List String}
    (h : r.Covered names due) (hcol : Collects names due r r₁)
    (hres : r₁.resolve k = .ok (resolved, r₂)) (henr : r₂.enrich k resolved = .ok (enriched, r₃))
    (hnames : ∀ fqn, r₃.table.symbols.contains fqn = true → fqn ∈ names) :
    Passed names due (r₁.affected.toList.filter fun p => (r₁.sketches.get? p).isSome) r₁ resolved
        r₂ ∧ Passed names due resolved r₂ enriched r₃ ∧
      ∀ p ∈ resolved, r₂.affected.contains p = true ∧ (r₂.sketches.get? p).isSome = true := by
  have hpass := resolve_passed (h.steps hcol.steps) hcol.queued
    (fun fqn hc => hnames fqn (contains_of_enrich henr hc)) hres
  have hsteps₂ := hcol.steps.trans hpass.steps
  have hresolved : ∀ p ∈ resolved, r₂.affected.contains p = true ∧
      (r₂.sketches.get? p).isSome = true := by
    intro p hp
    obtain ⟨hmem, hsk⟩ := List.mem_filter.1 (hpass.sublist.subset hp)
    rw [hpass.affected, hpass.sketches]
    exact ⟨StringSet.mem_toList.1 hmem, hsk⟩
  exact ⟨hpass, enrich_passed (h.steps hsteps₂) hpass.queued hnames hresolved henr, hresolved⟩

/-- The passes, the settings and the cleaning up, after the first pass. -/
theorem worked_of_collects {r₁ r₂ r₃ r₄ : Run σ} {k : Conditions}
    {resolved enriched finished : List String} (h : r.Covered names due)
    (hcol : Collects names due r r₁) (hres : r₁.resolve k = .ok (resolved, r₂))
    (henr : r₂.enrich k resolved = .ok (enriched, r₃))
    (hsettle : r₃.settle enriched = .ok (finished, r₄))
    (htidy : (finished.foldl markReady r₄).tidy = .ok r')
    (hnames : ∀ fqn, r₃.settingsTable.symbols.contains fqn = true → fqn ∈ names) :
    Worked names due r finished r' := by
  obtain ⟨hpass, henrich, hresolved⟩ := passes_passed h hcol hres henr fun fqn hc =>
    hnames fqn ((settingsTable_taught r₃).contains hc)
  have hsteps₃ := (hcol.steps.trans hpass.steps).trans henrich.steps
  -- the settings
  obtain ⟨hsteps, hrec₄, haff₄, hset₄, hfin⟩ : Steps names due r₃ r₄ ∧ _ :=
    settle_spec (h.steps hsteps₃) hnames hsettle
  have hsteps₄ := hsteps₃.trans hsteps
  have hmem : ∀ p ∈ finished, p ∈ enriched ∨ p = settingsFile := by
    rcases hfin with ⟨rfl, -⟩ | ⟨rfl, -⟩ <;> simp +contextual
  -- the records and the placeholders
  have haff : r₄.affected = r₂.affected := haff₄.trans henrich.affected
  have hsk₄ : ∀ p, r₄.sketches.get? p = r₂.sketches.get? p := fun p =>
    (Controller.sketches_of_collection? (Controller.collection?_of_records hrec₄ p)).trans
      (henrich.sketches p)
  obtain ⟨hready, -, haff₅, hset₅, hrep₅, htouched, hrec₅⟩ : Steps names due r₄ _ ∧ _ :=
    foldl_markReady finished fun p hp hne => by
      rw [haff, hsk₄]
      exact hresolved p (henrich.sublist.subset ((hmem p hp).resolve_right hne))
  obtain ⟨hprune, haff₆, hset₆, hrep₆, htouched₆⟩ : PruneStep due _ r' ∧ _ := tidy_step htidy
  have hall := (hsteps₄.trans hready).tail (.prune hprune)
  have hrec : ∀ p, r'.records.get? p =
      if p ∈ finished then (r₃.records.get? p).map FileRecord.ready else r₃.records.get? p := by
    intro p
    rw [hprune.records, hrec₅, hrec₄]
  have hsk : ∀ p, r'.sketches.get? p = r₂.sketches.get? p := by
    intro p
    rw [← henrich.sketches, Controller.sketches, Controller.sketches, get?_filterMap,
      get?_filterMap, hrec]
    split <;> cases r₃.records.get? p <;> simp
  have haff' : r'.affected = r₂.affected := haff₆.trans (haff₅.trans haff)
  have hsub : ∀ p ∈ enriched, p ∈ finished := by
    rcases hfin with ⟨rfl, -⟩ | ⟨rfl, -⟩ <;> simp +contextual
  have hrep : r'.report = r₄.report := hrep₆.trans hrep₅
  refine ⟨hall, ⟨enriched, hfin.imp And.left And.left, ?_, fun p hp => ?_⟩, fun p hp x hx => ?_,
    fun p hp => ?_, fun p hp hs => ?_, fun p hp hne x hx hr => ?_, fun hcalm => ?_⟩
  · refine (henrich.sublist.trans hpass.sublist).nodup ?_
    exact (StringSet.toList_nodup _).filter _
  · rw [haff', hsk]
    exact hresolved p (henrich.sublist.subset hp)
  · rw [hrec, if_pos hp] at hx
    obtain ⟨y, -, rfl⟩ := Option.map_eq_some_iff.1 hx
    exact y.ready_ready
  · rw [htouched₆]
    exact htouched p (.inr hp)
  · -- what becomes of a file in either pass is in the report
    rw [haff', hpass.affected] at hp
    rw [hsk, hpass.sketches] at hs
    have hstays := Steps.stays hsteps
    have hnamed : r₃.Stalls p ∨ r₃.report.cancelled = true → Settled (finished, r') p := by
      rintro (hf | hc)
      · refine .inr (.inl ?_)
        rw [Stalls, hrep]
        exact hstays.stalls hf
      · refine .inr (.inr ?_)
        rw [hrep]
        exact hstays.cancelled hc
    have hstays₃ := Steps.stays henrich.steps
    rcases hpass.complete p (List.mem_filter.2 ⟨StringSet.mem_toList.2 hp, hs⟩) with hres | hf | hc
    · exact (henrich.complete p hres).elim (fun hmem => .inl (hsub p hmem)) hnamed
    · exact hnamed (.inl (hstays₃.stalls hf))
    · exact hnamed (.inr (hstays₃.cancelled hc))
  · rw [haff', ← henrich.affected] at hp
    have hlast := ((hsteps.trans hready).tail (.prune hprune))
    exact henrich.queued p hp hne x (Steps.resolved hlast hne hx hr) hr
  · -- if nothing failed, each stage is complete
    have hcalm₄ : r₄.Calm := by rwa [Calm, hrep] at hcalm
    have hcalm₃ : r₃.Calm := (Steps.stays hsteps).calm hcalm₄
    have hcalm₂ : r₂.Calm := (Steps.stays henrich.steps).calm hcalm₃
    have hcalm₁ : r₁.Calm := (Steps.stays hpass.steps).calm hcalm₂
    have hrecords : r₃.records = r₁.records :=
      (henrich.records hcalm₃).trans (hpass.records hcalm₂)
    refine ⟨fun hs => ?_, fun s hs => ?_⟩
    · rw [hset₆, hset₅, hset₄] at hs
      rcases hfin with ⟨-, hno⟩ | ⟨rfl, -⟩
      · rw [hno hcalm₄] at hs
        cases hs
      · simp
    · obtain ⟨hp, f, hf, x, hx, hfp, hxs⟩ := hcol.complete hcalm₁ s hs
      refine ⟨by rw [haff', hpass.affected, hp], f, ?_⟩
      by_cases hfin : s.path ∈ finished
      · exact ⟨x.ready, hf, by rw [hrec, if_pos hfin, hrecords, hx]; rfl, by simpa using hfp,
          by simpa using hxs⟩
      · exact ⟨x, hf, by rw [hrec, if_neg hfin, hrecords, hx], hfp, hxs⟩

end Run

namespace Controller

section

variable {c : Controller σ} (due : String → Prop) (h : c.Orderly names) (k : Conditions)
  (changes : List FileChange) (full : Bool)

include h

theorem begun_orderly_carries : (c.begun k changes full).1.Orderly names ∧
      Run.Carries due (Run.start c full) (c.begun k changes full).1 := by
  obtain ⟨h₁, hc₁⟩ : _ ∧ Run.Carries due _ _ :=
    Run.checkSettings_carries (Run.start_orderly h full) k.now
  exact (Run.takeChanges_carries h₁ changes).imp_right hc₁.trans

theorem begun_orderly : (c.begun k changes full).1.Orderly names :=
  (begun_orderly_carries (fun _ => True) h k changes full).1

theorem begun_setup : c.SameSetup (c.begun k changes full).1.toController :=
  have hs := (begun_orderly_carries (fun _ => True) h k changes full).2.setup
  ⟨hs.settings, hs.registry, hs.plugins, hs.sink, hs.root⟩

theorem begun_declares : (c.begun k changes full).1.Declares ↔ c.Declares := by
  rw [Declares, Declares, (begun_setup h k changes full).plugins,
    (begun_setup h k changes full).settings]

end

variable {c : Controller σ} {k : Conditions} {changes : List FileChange} {full : Bool}

theorem Within.covered (h : c.Orderly names) (hw : c.Within names k changes full) :
    (c.begun k changes full).1.Covered names (c.begun k changes full).2 := by
  refine ⟨begun_orderly h k changes full, fun s hs f hf => ?_, hw.settings⟩
  rw [(begun_setup h k changes full).registry] at hf
  exact hw.sources s (Run.takeChanges_due hs).2 f hf

theorem singlePaths_begun (c : Controller σ) (k : Conditions) (changes : List FileChange)
    (full : Bool) : Run.SinglePaths (c.begun k changes full).2 := by
  intro s hs s' hs' hp
  have hs := (Run.takeChanges_due hs).1
  rw [hp, (Run.takeChanges_due hs').1] at hs
  exact (Option.some.inj hs).symm

/-- What a run has done when it reaches the store. -/
theorem work_worked (h : c.Orderly names) (hw : c.Within names k changes full)
    {finished : List String} {r' : Run σ} (hok : c.work k changes full = .ok (finished, r')) :
    Run.Worked names (c.begun k changes full).2 (c.begun k changes full).1 finished r' := by
  obtain ⟨r₁, hcol, hok⟩ := bind_eq_ok.1 hok
  obtain ⟨⟨resolved, r₂⟩, hres, hok⟩ := bind_eq_ok.1 hok
  obtain ⟨⟨enriched, r₃⟩, henr, hok⟩ := bind_eq_ok.1 hok
  obtain ⟨⟨finished', r₄⟩, hsettle, hok⟩ := bind_eq_ok.1 hok
  obtain ⟨r₅, htidy, hok⟩ := bind_eq_ok.1 hok
  cases hok
  have hcov := hw.covered h
  have hcollects := Run.collect_collects (singlePaths_begun c k changes full) hcov hcol
  refine Run.worked_of_collects hcov hcollects hres henr hsettle htidy (hw.widest _ ?_)
  unfold widestTable
  exact bind_eq_ok.2 ⟨r₁, hcol, bind_eq_ok.2 ⟨_, hres, bind_eq_ok.2 ⟨_, henr, rfl⟩⟩⟩

end Controller

end CodeAtlas
