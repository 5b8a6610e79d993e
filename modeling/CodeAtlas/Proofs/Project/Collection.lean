import Mathlib
import CodeAtlas.Proofs.Project.Steps

/-!
# The first pass

Collection as a sequence of steps. What it has to guarantee before the first commit is that no edge
targets a symbol of a collected file: every file with such an edge is queued, and the edges of
queued files are deleted.

Main results:

* `untargeted_of_announced`: no edge is left to a symbol of an announced file.
* `collect_collects`: collection is a sequence of steps, after which queued files are not resolved;
  if nothing fails, every file to be collected has its new sketches and is queued.
-/

namespace CodeAtlas

open SortedMap

variable {σ : Type} {names : Set String}

/-! ## Work on files -/

theorem Attempt.before_done {α τ : Type} {a : Attempt Unit} {work : τ → Attempt α × τ} {s : τ}
    {value : α} (h : (a.before work s).1.outcome = .done value) :
    (work s).1.outcome = .done value ∧ (a.before work s).2 = (work s).2 := by
  unfold Attempt.before at h ⊢
  unfold Attempt.andThen at h
  split at h
  · next ho =>
    simp only [ho] at h ⊢
    exact ⟨h, trivial⟩
  · next ho =>
    split at h
    · next u hu => exact absurd hu (ho ·)
    all_goals cases h

theorem Attempt.before_state {α τ : Type} (a : Attempt Unit) (work : τ → Attempt α × τ) (s : τ) :
    (a.before work s).2 = s ∨ (a.before work s).2 = (work s).2 := by
  unfold Attempt.before
  split
  · exact .inr rfl
  · exact .inl rfl

/-- The results of a pass stand in the order of the items. -/
theorem mem_zip_runAll {ι α τ : Type} {limit : Nat} {work : ι → τ → Attempt α × τ}
    (path : ι → String) (items : List ι) (s : Shift τ) {x : ι × TaskResult α}
    (hx : x ∈ items.zip ((runAll limit work (items.map fun i => (path i, i)) s).1.map (·.2)))
    {value : α} (hv : x.2 = .done value) : ∃ s₀, (work x.1 s₀).1.outcome = .done value := by
  induction items generalizing s with
  | nil => cases hx
  | cons item rest ih =>
    simp only [List.map_cons, runAll, List.zip_cons_cons, List.mem_cons] at hx
    rcases hx with rfl | hx
    · refine ⟨s.state, ?_⟩
      rw [Shift.perform_eq] at hv
      split at hv
      · cases hv
      · exact Attempt.done_of_judge hv
    · exact ih _ hx

namespace Run

variable {due : List SourceFile} {r r' : Run σ} {c : Collected}

/-! ## Results of the collectors -/

theorem collectSources_spec (k : Conditions) (r : Run σ) (due : List SourceFile) :
    (∃ b, (r.collectSources k due).2 = { r with cancelled := b }) ∧
      (r.collectSources k due).1.map (·.1) = due ∧
      ∀ s f, (s, .done f) ∈ (r.collectSources k due).1 →
        (r.registry.collect s).outcome = .done f := by
  refine ⟨⟨_, rfl⟩, List.map_fst_zip ?_, fun s f hs => ?_⟩
  · have hlen := congrArg List.length (map_fst_runAll r.settings.pipeline.fileTimeoutMs
      (fun (s : SourceFile) =>
        (k.befalls .collect s.path).before fun (u : Unit) => (r.registry.collect s, u))
      (due.map fun s => (s.path, s)) { state := (), closed := r.cancelled })
    rw [List.length_map, List.length_map, List.length_map] at hlen
    rw [List.length_map, hlen]
  · obtain ⟨u, hu⟩ := mem_zip_runAll (fun s : SourceFile => s.path) due _ hs rfl
    exact (Attempt.before_done hu).1

/-! ## Steps on records -/

/-- A step that leaves the graph and the records alone. -/
theorem recordsStep_of_same (hs : Stays due r r') (hsame : r.table.SameGraph r'.table)
    (hdrop : r'.droppedIds = r.droppedIds) (hrec : r'.records = r.records) : RecordsStep due r r' :=
  ⟨hs, hsame, hdrop, fun hx => .of_get? (hrec ▸ hx), fun _ hc => hrec ▸ hc⟩

theorem not_calm_reportCancelled (r : Run σ) : ¬r.reportCancelled.Calm := fun hc => by cases hc.2

theorem not_calm_failCollection (r : Run σ) (s : SourceFile) (kind : DiagnosticKind)
    (e : AtlasError) : ¬(r.failCollection s kind e).Calm := by
  rintro ⟨hf, -⟩
  exact List.append_ne_nil_of_right_ne_nil _ (List.cons_ne_nil _ _) hf

theorem reportCancelled_step (r : Run σ) : RecordsStep due r r.reportCancelled :=
  recordsStep_of_same ⟨.refl _, rfl, rfl, le_rfl, fun _ => id, id, .inl, List.prefix_rfl,
    fun _ => rfl⟩ (.refl _) rfl rfl

/-- A failure is named in the report. -/
theorem fails_of_fail {path message : String} {pass : Pass}
    (h : r'.report = r.report.fail path pass message) : r'.Fails path :=
  ⟨⟨path, pass, message⟩, by simp [h, RunReport.fail], rfl⟩

theorem stalls_of_fail {path message : String} {pass : Pass} (hpass : pass ≠ .collect)
    (h : r'.report = r.report.fail path pass message) : r'.Stalls path :=
  ⟨⟨path, pass, message⟩, by simp [h, RunReport.fail], rfl, hpass⟩

theorem failCollection_step {s : SourceFile} (hs : s ∈ due) (kind : DiagnosticKind)
    (e : AtlasError) : RecordsStep due r (r.failCollection s kind e) := by
  set r' := r.failCollection s kind e with hr'
  have hget : ∀ p, r'.records.get? p = if p = s.path then
      some { (r.records.get? s.path).getD
        { path := s.path, language := s.language, fingerprint := s.fingerprint } with
        state := .failed }
      else r.records.get? p := fun p => get?_insert_eq ..
  have hfails : r'.Fails s.path := fails_of_fail (r := r) rfl
  refine ⟨⟨⟨rfl, rfl, rfl, rfl, rfl⟩, rfl, rfl, le_rfl, fun _ => id, id, .inl, List.prefix_append _ _,
    id⟩, .record _ _, rfl, fun {p x} hx => ?_, fun p hc => ?_⟩
  · rw [hget] at hx
    split at hx
    · next hp =>
      subst hp
      cases hx
      cases r.records.get? s.path with
      | none => exact .first rfl rfl rfl hfails ⟨s, hs, rfl⟩
      | some x => exact .state fun _ => .failed hfails
    · exact .of_get? hx
  · rw [contains, hget]
    split
    · rfl
    · exact hc

theorem Marked.stays {paths : List String} (hm : Marked paths r r') : Stays due r r' := by
  refine ⟨hm.setup, hm.removed, hm.forgotten, hm.seq.ge, fun p hp => (hm.affected p).2 (.inl hp),
    fun hs => hm.settingsAffected.2 (.inl hs), fun ho => ?_, by rw [hm.report],
    fun hc => by rwa [hm.report]⟩
  rcases (hm.affected _).1 ho with ho | ⟨⟨-, hne⟩, -⟩
  · exact .inl ho
  · exact absurd rfl hne

/-- To queue a file is to revise its record. -/
theorem revises_outdated {p : String} {x : FileRecord}
    (ha : r'.affected.contains p = true ∨ r'.Fails p) : r'.Revises due p (some x) x.outdated := by
  unfold FileRecord.outdated
  split
  · exact .refl due r' p x
  · next hs => exact .state fun _ => .stale ha (by simpa using hs)

theorem Marked.step {paths : List String} (hm : Marked paths r r') : RecordsStep due r r' := by
  refine ⟨hm.stays, hm.table ▸ .refl _, hm.droppedIds, fun {p x} hx => ?_,
    fun p hc => contains_records_of_marked hm p ▸ hc⟩
  rw [hm.records] at hx
  split at hx
  · next hmem =>
    obtain ⟨y, hy, rfl⟩ := Option.map_eq_some_iff.1 hx
    rw [hy]
    exact revises_outdated (.inl ((hm.affected p).2 (.inr ⟨hmem, contains_of_get? hy⟩)))
  · exact .of_get? hx

/-! ## Taking in the results -/

/-- What is known of the files collected so far. -/
structure Gathered (names : Set String) (due : List SourceFile) (r : Run σ)
    (acc : List Collected × Run σ) : Prop where
  steps : Steps names due r acc.2
  sources : ∀ c ∈ acc.1, c.source ∈ due ∧
    (r.registry.collect c.source).outcome = .done c.sketches

theorem takeCollected_gathered {acc : List Collected × Run σ} (h : Gathered names due r acc)
    {x : SourceFile × TaskResult FileSketch} (hs : x.1 ∈ due)
    (hx : ∀ f, x.2 = .done f → (r.registry.collect x.1).outcome = .done f) :
    Gathered names due r (takeCollected acc x) := by
  obtain ⟨s, result⟩ := x
  cases result with
  | done f =>
    refine ⟨h.steps, fun c hc => ?_⟩
    rcases List.mem_append.1 hc with hc | hc
    · exact h.sources c hc
    · rw [List.mem_singleton.1 hc]
      exact ⟨hs, hx f rfl⟩
  | failed e => exact ⟨h.steps.tail (.records (failCollection_step hs _ e)), h.sources⟩
  | timedOut => exact ⟨h.steps.tail (.records (failCollection_step hs _ _)), h.sources⟩
  | cancelled => exact ⟨h.steps.tail (.records (reportCancelled_step _)), h.sources⟩

/-- If nothing fails, every source is collected. -/
theorem sources_of_calm {results : List (SourceFile × TaskResult FileSketch)}
    {acc : List Collected × Run σ} (hc : (results.foldl takeCollected acc).2.Calm) :
    acc.2.Calm ∧ (results.foldl takeCollected acc).1.map (·.source) =
      acc.1.map (·.source) ++ results.map (·.1) := by
  induction results generalizing acc with
  | nil => exact ⟨hc, by simp⟩
  | cons x rest ih =>
    obtain ⟨s, result⟩ := x
    obtain ⟨hcalm, hsources⟩ := ih hc
    cases result with
    | done f =>
      refine ⟨hcalm, hsources.trans ?_⟩
      simp [takeCollected]
    | failed e => exact absurd hcalm (not_calm_failCollection _ _ _ _)
    | timedOut => exact absurd hcalm (not_calm_failCollection _ _ _ _)
    | cancelled => exact absurd hcalm (not_calm_reportCancelled _)

/-! ## Announcing the collected files -/

/-- What announcing files does to a run: they are queued, and so is every owner of an edge to a
symbol that they may affect. -/
structure Announced (names : Set String) (due : List SourceFile) (l : List Collected)
    (r r' : Run σ) : Prop where
  steps : Steps names due r r'
  table : r'.table = r.table
  contains : ∀ p, r'.records.contains p = r.records.contains p
  queued : ∀ c ∈ l, r'.affected.contains c.source.path = true
  owners : ∀ c ∈ l, ∀ id, (concerned r.table c).contains id = true →
    ∀ p ∈ r.table.dependentFiles id,
      (p = settingsFile → r'.settingsAffected = true) ∧
        (p ≠ settingsFile → r.records.contains p = true → r'.affected.contains p = true)

theorem announce_announced (hc : c.source ∈ due) : Announced names due [c] r (r.announce c) := by
  set r₁ : Run σ := { r with affected := r.affected.add c.source.path } with hr₁
  set paths := StringSet.ofList ((concerned r₁.table c).keys.flatMap r₁.table.dependentFiles)
    with hpaths
  have hm : Marked paths.toList r₁ (r.announce c) := markAllStale_marked r₁ paths
  have hadd : ∀ p, r₁.affected.contains p = true ↔
      p = c.source.path ∨ r.affected.contains p = true := by
    intro p
    rw [hr₁, StringSet.contains_add, Bool.or_eq_true, decide_eq_true_eq]
  have hstep : RecordsStep due r r₁ :=
    recordsStep_of_same ⟨⟨rfl, rfl, rfl, rfl, rfl⟩, rfl, rfl, le_rfl, fun p hp => (hadd p).2 (.inr hp),
      id, fun ho => ((hadd _).1 ho).elim (fun he => .inr ⟨_, hc, he.symm⟩) .inl, List.prefix_rfl,
      id⟩ (.refl _) rfl rfl
  refine ⟨.tail (.single (.records hstep)) (.records hm.step), hm.table,
    fun p => contains_records_of_marked hm p, fun c' hc' => ?_, fun c' hc' id hid p hp => ?_⟩
  · rw [List.mem_singleton.1 hc']
    exact (hm.affected _).2 (.inl ((hadd _).2 (.inl rfl)))
  · rw [List.mem_singleton.1 hc'] at hid
    have hmem : p ∈ paths.toList := by
      rw [StringSet.mem_toList, hpaths, StringSet.contains_ofList, List.mem_flatMap]
      exact ⟨id, mem_keys.2 hid, hp⟩
    exact ⟨fun hs => hm.settingsAffected.2 (.inr (hs ▸ hmem)),
      fun hne hrec => (hm.affected p).2 (.inr ⟨⟨hmem, hne⟩, hrec⟩)⟩

theorem Announced.append {l l' : List Collected} {r'' : Run σ} (h : Announced names due l r r')
    (h' : Announced names due l' r' r'') : Announced names due (l ++ l') r r'' := by
  have hstays := Steps.stays h'.steps
  refine ⟨h.steps.trans h'.steps, h'.table.trans h.table,
    fun p => (h'.contains p).trans (h.contains p), fun c hc => ?_, fun c hc id hid p hp => ?_⟩
  · rcases List.mem_append.1 hc with hc | hc
    · exact hstays.affected _ (h.queued c hc)
    · exact h'.queued c hc
  · rcases List.mem_append.1 hc with hc | hc
    · obtain ⟨hs, hr⟩ := h.owners c hc id hid p hp
      exact ⟨fun he => hstays.settings (hs he), fun hne hrec => hstays.affected _ (hr hne hrec)⟩
    · rw [← h.table] at hid hp
      obtain ⟨hs, hr⟩ := h'.owners c hc id hid p hp
      exact ⟨hs, fun hne hrec => hr hne (h.contains p ▸ hrec)⟩

theorem foldl_announce (l : List Collected) (hl : ∀ c ∈ l, c.source ∈ due) :
    Announced names due l r (l.foldl announce r) := by
  induction l generalizing r with
  | nil => exact ⟨.refl, rfl, fun _ => rfl, by simp, by simp⟩
  | cons c rest ih =>
    exact (announce_announced (hl c (List.mem_cons_self ..))).append
      (ih fun x hx => hl x (List.mem_cons_of_mem _ hx))

/-! ## Deleting edges -/

/-- Queued files are not resolved. -/
def Queued (r : Run σ) : Prop :=
  ∀ p, r.affected.contains p = true → p ≠ settingsFile →
    ∀ x, r.records.get? p = some x → x.state ≠ .resolved

/-- What deleting the edges of queued files does to a run. -/
structure Cleared (names : Set String) (due : List SourceFile) (l : List String)
    (r r' : Run σ) : Prop where
  steps : Steps names due r r'
  affected : r'.affected = r.affected
  settingsAffected : r'.settingsAffected = r.settingsAffected
  edges : ∀ o, ∀ e ∈ r'.table.edgesOf o, e ∈ r.table.edgesOf o ∧ o ∉ l
  unresolved : ∀ p ∈ l, p ≠ settingsFile →
    ∀ x, r'.records.get? p = some x → x.state ≠ .resolved

theorem clearFile_step {path : String} (ha : r.affected.contains path = true) :
    EdgesStep due path [] r (r.clearFile path) := by
  set r' := r.clearFile path with hr'
  have hget : ∀ p, r'.records.get? p = if p = path then
      (r.records.get? path).map fun x => if x.state == .resolved then { x with state := .stale } else x
      else r.records.get? p := fun p => get?_modify r.records path p _
  refine ⟨.of_eq ⟨rfl, rfl, rfl, rfl, rfl⟩ rfl, Table.clearEdges_rewires r.table path, rfl, by simp,
    by simp, by simp, fun _ => ha, fun _ hne => absurd rfl hne, fun {p x} hx => ?_, fun _ x hx => ?_,
    fun p hp => (hget p).trans (if_neg hp), fun p => ?_, fun hs => .inr (hs ▸ ha)⟩
  · rw [hget] at hx
    split at hx
    · next hp =>
      subst hp
      obtain ⟨y, hy, rfl⟩ := Option.map_eq_some_iff.1 hx
      rw [hy]
      split
      · next hs => exact .state fun _ => .stale (.inl ha) (by simp [beq_iff_eq.1 hs])
      · exact .refl due r' p y
    · exact .of_get? hx
  · rw [hget, if_pos rfl] at hx
    obtain ⟨y, -, rfl⟩ := Option.map_eq_some_iff.1 hx
    split
    · simp
    · next hs => simpa using hs
  · rw [contains, hget]
    split
    · next hp =>
      rw [hp, Option.isSome_map]
      rfl
    · rfl

theorem foldl_clearFile (l : List String) (hl : ∀ p ∈ l, r.affected.contains p = true) :
    Cleared names due l r (l.foldl clearFile r) := by
  induction l generalizing r with
  | nil => exact ⟨.refl, rfl, rfl, fun o e he => ⟨he, by simp⟩, by simp⟩
  | cons path rest ih =>
    have hstep : EdgesStep due path [] r (r.clearFile path) :=
      clearFile_step (hl path (List.mem_cons_self ..))
    have hrest := ih (r := r.clearFile path) fun p hp => hl p (List.mem_cons_of_mem _ hp)
    refine ⟨.head (.edges hstep) hrest.steps, hrest.affected, hrest.settingsAffected,
      fun o e he => ?_, fun p hp hne x hx hr => ?_⟩
    · obtain ⟨he, ho⟩ := hrest.edges o e he
      rw [hstep.rewires.edgesOf] at he
      split at he
      · cases he
      · next hne => exact ⟨he, by simp [hne, ho]⟩
    · rcases List.mem_cons.1 hp with rfl | hp
      · exact hstep.unresolved hne x (Steps.resolved hrest.steps hne hx hr) hr
      · exact hrest.unresolved p hp hne x hx hr

/-- After the deletion queued files are not resolved and own no edge. -/
theorem clearAffected_spec (names : Set String) (due : List SourceFile) (r : Run σ) :
    Steps names due r r.clearAffected ∧ r.clearAffected.affected = r.affected ∧
      r.clearAffected.Queued ∧ ∀ o, ∀ e ∈ r.clearAffected.table.edgesOf o,
        e ∈ r.table.edgesOf o ∧ r.affected.contains o = false ∧
          (o = settingsFile → r.settingsAffected = false) := by
  have hcl : Cleared names due r.affected.toList r (r.affected.toList.foldl clearFile r) :=
    foldl_clearFile _ fun p hp => StringSet.mem_toList.1 hp
  unfold clearAffected
  set r₁ := r.affected.toList.foldl clearFile r with hr₁
  have hqueued : r₁.Queued := by
    intro p hp
    rw [hcl.affected] at hp
    exact hcl.unresolved p (StringSet.mem_toList.2 hp)
  have hedges : ∀ o, ∀ e ∈ r₁.table.edgesOf o,
      e ∈ r.table.edgesOf o ∧ r.affected.contains o = false := by
    intro o e he
    obtain ⟨he, ho⟩ := hcl.edges o e he
    exact ⟨he, by simpa [StringSet.mem_toList] using ho⟩
  dsimp only
  split
  · next hs =>
    have hw := Table.clearEdges_rewires r₁.table settingsFile
    set r₂ : Run σ := { r₁ with table := r₁.table.clearEdges settingsFile }
    have hstep : EdgesStep due settingsFile [] r₁ r₂ :=
      ⟨.of_eq ⟨rfl, rfl, rfl, rfl, rfl⟩ rfl, hw, rfl, by simp, by simp, by simp,
        fun hne => absurd rfl hne,
        fun hne => absurd rfl hne, .of_get?, fun hne => absurd rfl hne, fun _ _ => rfl,
        fun _ => rfl, fun _ => .inl hs⟩
    refine ⟨hcl.steps.tail (.edges hstep), hcl.affected, hqueued, fun o e he => ?_⟩
    have he : e ∈ (r₁.table.clearEdges settingsFile).edgesOf o := he
    rw [hw.edgesOf] at he
    split at he
    · cases he
    · next ho => exact ⟨(hedges o e he).1, (hedges o e he).2, fun hos => absurd hos ho⟩
  · next hs =>
    rw [hcl.settingsAffected] at hs
    exact ⟨hcl.steps, hcl.affected, hqueued,
      fun o e he => ⟨(hedges o e he).1, (hedges o e he).2, fun _ => by simpa using hs⟩⟩

/-- No edge targets a symbol of these files. -/
def Untargeted (l : List Collected) (r : Run σ) : Prop :=
  ∀ c ∈ l, ∀ o, ∀ e ∈ r.table.edgesOf o, ∀ s ∈ c.symbols, e.target ≠ s.id

/-- An owner of an edge to a symbol of an announced file is queued, so its edges are deleted. -/
theorem untargeted_of_announced {l : List Collected} (h : r.Orderly names)
    (ha : Announced names due l r r') : r'.clearAffected.Untargeted l := by
  intro c hc o e he s hs htarget
  obtain ⟨-, -, -, hedges⟩ := clearAffected_spec names due r'
  obtain ⟨he, hnot, hnotset⟩ := hedges o e he
  rw [ha.table] at he
  have hid : (concerned r.table c).contains e.target = true := by
    rw [concerned, IdSet.contains_ofList, htarget]
    exact List.mem_append_left _ (List.mem_append_right _ (List.mem_map_of_mem hs))
  have hdep : o ∈ r.table.dependentFiles e.target := h.counted.mem_dependentFiles.2 ⟨e, he, rfl⟩
  obtain ⟨hsettings, hfile⟩ := ha.owners c hc e.target hid o hdep
  by_cases ho : o = settingsFile
  · rw [hsettings ho] at hnotset
    cases hnotset ho
  · rw [hfile ho (h.recorded ho (List.ne_nil_of_mem he))] at hnot
    cases hnot

/-! ## Commits -/

theorem reportIssues_eq (r : Run σ) (c : Collected) :
    ∃ t, r.reportIssues c = { r with table := t } ∧ r.table.SameGraph t := by
  unfold reportIssues
  dsimp only
  split
  · exact ⟨r.table, rfl, .refl _⟩
  · exact ⟨_, rfl, .record _ _⟩

theorem commit_cases (h : r.commit c = .ok r') :
    (∃ summary t, r.table.commitFile c.source.path c.symbols = (.ok summary, t) ∧
      r' = (((({ r with table := t }.markAllStale summary.stale).drop
        summary.removed).reportIssues c).recordCollected c)) ∨
      ∃ e t, r.table.commitFile c.source.path c.symbols = (.error e, t) ∧
        r' = { r with table := t }.failCollection c.source .parseFailure e := by
  unfold commit at h
  rcases hcommit : r.table.commitFile c.source.path c.symbols with ⟨e | summary, t⟩
  · simp only [hcommit] at h
    split at h
    · cases h
    · exact .inr ⟨e, t, rfl, (Except.ok.inj h).symm⟩
  · simp only [hcommit] at h
    exact .inl ⟨summary, t, rfl, (Except.ok.inj h).symm⟩

/-- What a commit needs of the run. -/
structure Ready (due : List SourceFile) (c : Collected) (r : Run σ) : Prop where
  offered : c.source ∈ due
  collected : (r.registry.collect c.source).outcome = .done c.sketches
  untargeted : ∀ o, ∀ e ∈ r.table.edgesOf o, ∀ s ∈ c.symbols, e.target ≠ s.id
  blank : r.table.edgesOf c.source.path = []
  queued : r.affected.contains c.source.path = true

theorem commit_accepted (hc : r.Ready due c) {summary : CommitSummary} {t : Table}
    (ht : r.table.commitFile c.source.path c.symbols = (.ok summary, t)) :
    CommitStep due c summary r (((({ r with table := t }.markAllStale summary.stale).drop
      summary.removed).reportIssues c).recordCollected c) := by
  set r₁ : Run σ := { r with table := t }
  have hm := markAllStale_marked r₁ summary.stale
  set r₂ := r₁.markAllStale summary.stale
  obtain ⟨t', hissues, hsame⟩ := reportIssues_eq (r₂.drop summary.removed) c
  rw [hissues]
  have hsetup : r.SameSetup r₂.toController :=
    ⟨hm.setup.settings, hm.setup.registry, hm.setup.plugins, hm.setup.sink, hm.setup.root⟩
  have hstays : Stays due r₁ r₂ := hm.stays
  have htable : r₂.table = t := hm.table
  set r₃ : Run σ := { r₂.drop summary.removed with table := t' }
  have hget : ∀ p, (r₃.recordCollected c).records.get? p =
      if p = c.source.path then some
        { path := c.source.path, language := c.source.language
          fingerprint := c.source.fingerprint, state := .collected
          resolvedAt := (r₂.records.get? c.source.path).bind (·.resolvedAt), seq := r₂.seq + 1
          sketches := some c.sketches }
      else r₂.records.get? p := fun p => get?_insert_eq ..
  have hqueued := hstays.affected _ hc.queued
  have hseq : r₂.seq = r.seq := hm.seq
  refine ⟨⟨⟨hsetup.settings, hsetup.registry, hsetup.plugins, hsetup.sink, hsetup.root⟩, hstays.removed,
    hstays.forgotten, hstays.seq.trans (Nat.le_succ _), hstays.affected, hstays.settings, hstays.own,
    hstays.failures, hstays.cancelled⟩,
    hc.offered, hc.collected, ⟨t, ht, ?_⟩, hc.untargeted, hc.blank, fun p hp => ?_,
    ⟨_, (hget _).trans (if_pos rfl), rfl, rfl, rfl, rfl, hseq ▸ Nat.lt_succ_self _, le_rfl⟩,
    fun id => ?_, ?_, hc.queued, hm.affected⟩
  · rw [← htable]
    exact hsame
  · rw [hget, if_neg hp, hm.records]
  · refine (IdSet.contains_union _ _ id).trans ?_
    rw [hm.droppedIds]
  · rintro (hp | hs)
    · exact .inr (hp ▸ hqueued)
    · exact .inl (hm.settingsAffected.2 (.inr hs))

/-- The new sketches of a collected file are in place. -/
def Holds (c : Collected) (r : Run σ) : Prop :=
  ∃ x, r.records.get? c.source.path = some x ∧ x.fingerprint = c.source.fingerprint ∧
    x.sketches = some c.sketches

/-- What a commit does to a run. -/
structure CommitOutcome (names : Set String) (due : List SourceFile) (c : Collected)
    (r r' : Run σ) : Prop where
  steps : Steps names due r r'
  queued : r.Queued → r'.Queued
  edges : ∀ {o e}, e ∈ r'.table.edgesOf o → e ∈ r.table.edgesOf o
  holds : r'.Calm → r'.Holds c
  others : r'.Calm → ∀ c', (c'.source.path = c.source.path → c'.source = c.source ∧
    c'.sketches = c.sketches) → r.Holds c' → r'.Holds c'

theorem commit_outcome (h : r.Covered names due) (hc : r.Ready due c) (hok : r.commit c = .ok r') :
    CommitOutcome names due c r r' := by
  rcases commit_cases hok with ⟨summary, t, ht, heq⟩ | ⟨e, t, ht, heq⟩
  · have hstep : CommitStep due c summary r r' := heq ▸ commit_accepted hc ht
    obtain ⟨x, hx, -, hfp, hstate, hsk, -⟩ := hstep.record
    refine ⟨.single (.commit hstep), fun hq p hp hne y hy hr => ?_, (hstep.update h).mem_edgesOf,
      fun _ => ⟨x, hx, hfp, hsk⟩, fun _ c' hsame ⟨y, hy, hyfp, hysk⟩ => ?_⟩
    · -- the record is that of before, so the file is not among those that this commit queues
      have hstep' : Step names due r r' := .commit hstep
      refine hq p (((hstep.newly p).1 hp).resolve_right fun ⟨hstale, _⟩ => ?_) hne y
        (hstep'.resolved hne hy hr) hr
      by_cases hpc : p = c.source.path
      · rw [hpc, hx] at hy
        cases hy
        rw [hstate] at hr
        cases hr
      · rw [hstep.records p hpc, if_pos hstale] at hy
        obtain ⟨z, -, rfl⟩ := Option.map_eq_some_iff.1 hy
        rcases z.outdated_state with hs | hs <;> rw [hs] at hr <;> cases hr
    · by_cases hpath : c'.source.path = c.source.path
      · obtain ⟨hsource, hsketches⟩ := hsame hpath
        exact ⟨x, hpath ▸ hx, hsource ▸ hfp, hsketches ▸ hsk⟩
      · have hrec := hstep.records _ hpath
        rw [hy] at hrec
        split at hrec
        · exact ⟨_, hrec, by simp [hyfp], by simp [hysk]⟩
        · exact ⟨_, hrec, hyfp, hysk⟩
  · have hsame : r.table.SameGraph t := Table.commitFile_eq_error ht
    set r₁ : Run σ := { r with table := t } with hr₁
    have hfirst : RecordsStep due r r₁ :=
      recordsStep_of_same (.of_eq ⟨rfl, rfl, rfl, rfl, rfl⟩ rfl) hsame rfl rfl
    have hsecond : RecordsStep due r₁ r' :=
      heq ▸ failCollection_step hc.offered .parseFailure e
    have hfails : ¬r'.Calm := heq ▸ not_calm_failCollection r₁ c.source .parseFailure e
    refine ⟨.tail (.single (.records hfirst)) (.records hsecond), fun hq p hp hne x hx hr => ?_,
      fun {o e} he => ?_, fun hcalm => absurd hcalm hfails, fun hcalm => absurd hcalm hfails⟩
    · have hstep : Step names due r₁ r' := .records hsecond
      rw [heq] at hp
      exact hq p hp hne x (hstep.resolved hne hx hr) hr
    · rwa [hsecond.same.edges.edgesOf, hsame.edges.edgesOf] at he

/-- Of files with one path there is one to be collected. -/
def SinglePaths (due : List SourceFile) : Prop :=
  ∀ s ∈ due, ∀ s' ∈ due, s.path = s'.path → s = s'

theorem foldlM_commit (hdue : SinglePaths due) {l : List Collected} (h : r.Covered names due)
    (hl : ∀ c ∈ l, r.Ready due c) (hok : l.foldlM commit r = .ok r') :
    Steps names due r r' ∧ (r.Queued → r'.Queued) ∧
      (∀ o, ∀ e ∈ r'.table.edgesOf o, e ∈ r.table.edgesOf o) ∧
      (r'.Calm → ∀ c ∈ l, r'.Holds c) ∧
      (r'.Calm → ∀ c, c.source ∈ due → (r.registry.collect c.source).outcome = .done c.sketches →
        r.Holds c → r'.Holds c) := by
  induction l generalizing r with
  | nil =>
    cases hok
    exact ⟨.refl, id, fun _ _ => id, by simp, fun _ _ _ _ => id⟩
  | cons c rest ih =>
    obtain ⟨r₁, hc, hrest⟩ := foldlM_cons_eq_ok.1 hok
    have hready := hl c (List.mem_cons_self ..)
    have hout := commit_outcome h hready hc
    have hstays := Steps.stays hout.steps
    have hreg := hstays.setup.registry
    obtain ⟨hsteps, hqueued, hedges, hholds, hkeeps⟩ := ih (h.steps hout.steps)
      (fun x hx => by
        have hx' := hl x (List.mem_cons_of_mem _ hx)
        exact ⟨hx'.offered, by rw [hreg]; exact hx'.collected,
          fun o e he => hx'.untargeted o e (hout.edges he),
          List.eq_nil_iff_forall_not_mem.2 fun e he => by
            simpa [hx'.blank] using hout.edges he, hstays.affected _ hx'.queued⟩) hrest
    refine ⟨hout.steps.trans hsteps, fun hq => hqueued (hout.queued hq),
      fun o e he => hout.edges (hedges o e he), fun hcalm x hx => ?_,
      fun hcalm x hx hxc hold => ?_⟩
    · rcases List.mem_cons.1 hx with rfl | hx
      · exact hkeeps hcalm x hready.offered (by rw [hreg]; exact hready.collected)
          (hout.holds ((Steps.stays hsteps).calm hcalm))
      · exact hholds hcalm x hx
    · refine hkeeps hcalm x hx (by rw [hreg]; exact hxc)
        (hout.others ((Steps.stays hsteps).calm hcalm) x (fun hpath => ?_) hold)
      have hsource := hdue _ hx _ hready.offered hpath
      refine ⟨hsource, ?_⟩
      rw [hsource, hready.collected] at hxc
      exact (Outcome.done.inj hxc).symm

/-- What the first pass does to a run. -/
structure Collects (names : Set String) (due : List SourceFile) (r r' : Run σ) : Prop where
  steps : Steps names due r r'
  queued : r'.Queued
  settings : r.settingsAffected = true → r'.table.edgesOf settingsFile = []
  complete : r'.Calm → ∀ s ∈ due, r'.affected.contains s.path = true ∧
    ∃ f, (r.registry.collect s).outcome = .done f ∧ r'.Holds ⟨s, f⟩

theorem collect_collects (hdue : SinglePaths due) (h : r.Covered names due) {k : Conditions}
    (hok : r.collect k due = .ok r') : Collects names due r r' := by
  obtain ⟨⟨b, hcancel⟩, hsources, hdone⟩ := collectSources_spec k r due
  unfold collect at hok
  rcases hcol : r.collectSources k due with ⟨results, r₁⟩
  rw [hcol] at hcancel hsources hdone
  simp only [hcol] at hok
  rcases htake : results.foldl takeCollected ([], r₁) with ⟨collected, r₂⟩
  simp only [htake] at hok
  -- up to the collected files
  have hfirst : Step names due r r₁ := .records <| by
    rw [show r₁ = { r with cancelled := b } from hcancel]
    exact recordsStep_of_same (.of_eq ⟨rfl, rfl, rfl, rfl, rfl⟩ rfl) (.refl _) rfl rfl
  have hgathered : Gathered names due r (collected, r₂) := by
    rw [← htake]
    refine List.foldlRecOn (motive := fun acc => Gathered names due r acc) results takeCollected
      ⟨.single hfirst, by simp⟩ fun acc hacc x hx => ?_
    refine takeCollected_gathered hacc ?_ fun f hf => hdone x.1 f (hf ▸ hx)
    rw [← hsources]
    exact List.mem_map_of_mem hx
  have h₂ := h.steps hgathered.steps
  -- up to the first commit
  have hann : Announced names due collected r₂ (collected.foldl announce r₂) :=
    foldl_announce collected fun c hc => (hgathered.sources c hc).1
  set r₃ := collected.foldl announce r₂
  obtain ⟨hclear, haff, hqueued, hcleared⟩ := clearAffected_spec names due r₃
  have huntargeted := untargeted_of_announced h₂ hann
  have hbefore : Steps names due r r₃.clearAffected :=
    (hgathered.steps.trans hann.steps).trans hclear
  have hreg := (Steps.stays hbefore).setup.registry
  obtain ⟨hsteps, hq, hedges, hholds, -⟩ := foldlM_commit hdue (h.steps hbefore)
    (fun c hc => by
      obtain ⟨hoff, hout⟩ := hgathered.sources c hc
      have hblank : r₃.clearAffected.table.edgesOf c.source.path = [] := by
        refine List.eq_nil_iff_forall_not_mem.2 fun e he => ?_
        cases (hann.queued c hc).symm.trans (hcleared _ e he).2.1
      exact ⟨hoff, by rw [hreg]; exact hout, huntargeted c hc, hblank,
        by rw [haff]; exact hann.queued c hc⟩)
    hok
  refine ⟨hbefore.trans hsteps, hq hqueued, fun hasked => ?_, fun hcalm s hs => ?_⟩
  · refine List.eq_nil_iff_forall_not_mem.2 fun e he => ?_
    have hasked₃ : r₃.settingsAffected = true :=
      (Steps.stays (hgathered.steps.trans hann.steps)).settings hasked
    cases hasked₃.symm.trans ((hcleared _ e (hedges _ e he)).2.2 rfl)
  -- without a failure the collected files are the files to be collected
  have hcalm₂ : (results.foldl takeCollected ([], r₁)).2.Calm := by
    rw [htake]
    exact (Steps.stays ((hann.steps.trans hclear).trans hsteps)).calm hcalm
  have hall := (sources_of_calm hcalm₂).2
  rw [htake, hsources, List.map_nil, List.nil_append] at hall
  obtain ⟨c, hc, rfl⟩ := List.mem_map.1 (hall ▸ hs)
  refine ⟨(Steps.stays hsteps).affected _ (by rw [haff]; exact hann.queued c hc), c.sketches,
    (hgathered.sources c hc).2, hholds hcalm c hc⟩

end Run

end CodeAtlas
