import Mathlib
import CodeAtlas.Proofs.Project.Tracking

/-!
# The beginning of a run

From the start of a run up to the list of files to be collected: left-over work, changed settings,
removals.

Main results:

* `checkSettings_carries`, `takeChanges_carries`: what is carried over.
* `takeChanges_forgets`: removed files have no record.
* `takeChanges_due`, `takeChanges_due_notMem_removed`: the files to be collected.
-/

namespace CodeAtlas

open SortedMap

variable {σ : Type} {names : Set String} {changes : List FileChange}

/-! ## Plans -/

namespace Plan

/-- A plan for `changes`: what is modified was offered, and is not removed. -/
structure Fits (changes : List FileChange) (p : Plan) : Prop where
  modified : ∀ {path s}, p.modified.get? path = some s → s.path = path ∧ .modified s ∈ changes
  disjoint : ∀ {path}, p.removals.contains path = true → p.modified.get? path = none

theorem Fits.add {p : Plan} (h : p.Fits changes) {x : FileChange} (hx : x ∈ changes) :
    (p.add x).Fits changes := by
  cases x with
  | removed path =>
    refine ⟨fun {q s} hq => ?_, fun {q} hq => ?_⟩
    · simp only [Plan.add, get?_erase_eq] at hq
      split at hq
      · cases hq
      · exact h.modified hq
    · simp only [Plan.add, StringSet.contains_add, Bool.or_eq_true, decide_eq_true_eq] at hq
      simp only [Plan.add, get?_erase_eq]
      split
      · rfl
      · next hne => exact h.disjoint (hq.resolve_left hne)
  | modified src =>
    refine ⟨fun {q s} hq => ?_, fun {q} hq => ?_⟩
    · simp only [Plan.add, get?_insert_eq] at hq
      split at hq
      · next heq =>
        cases hq
        exact ⟨heq.symm, hx⟩
      · exact h.modified hq
    · simp only [Plan.add, contains_erase, Bool.and_eq_true, decide_eq_true_eq] at hq
      simp only [Plan.add, get?_insert_eq]
      rw [if_neg hq.1]
      exact h.disjoint hq.2

theorem Fits.foldl (l : List FileChange) {p : Plan} (h : p.Fits changes)
    (hl : ∀ x ∈ l, x ∈ changes) : (l.foldl Plan.add p).Fits changes := by
  induction l generalizing p with
  | nil => exact h
  | cons x rest ih =>
    exact ih (h.add (hl x (List.mem_cons_self ..))) fun y hy => hl y (List.mem_cons_of_mem _ hy)

end Plan

namespace Run

variable {due : String → Prop} {r r' : Run σ} {path : String} {s : SourceFile}

theorem plan_fits (r : Run σ) (changes : List FileChange) : (r.plan changes).Fits changes :=
  Plan.Fits.foldl changes ⟨by simp, by simp⟩ fun _ => id

/-! ## Changed settings -/

theorem start_orderly {c : Controller σ} (h : c.Orderly names) (full : Bool) :
    (start c full).Orderly names :=
  ⟨h.table, h.counted, h.owned, h.recorded, h.record⟩

/-- A part of the run that changes neither the table nor the records nor the setup. -/
theorem carries_of_same (h : r.Orderly names) (hsetup : r.SameSetup r'.toController)
    (hgraph : r.table.SameGraph r'.table) (hrec : r'.records = r.records)
    (hdrop : r'.droppedIds = r.droppedIds) (hasks : r.AsksSettings → r'.AsksSettings) :
    r'.Orderly names ∧ Carries due r r' :=
  carries_of_records h hsetup hgraph hdrop (fun p => .inl (by rw [hrec])) (fun p _ hc => hrec ▸ hc)
    (fun p _ hc => .inl (hrec ▸ hc)) hasks

/-- What remembering the settings does to a run. -/
structure SettingsRecorded (r r' : Run σ) : Prop where
  setup : r.SameSetup r'.toController
  table : r'.table = r.table
  cancelled : r'.cancelled = r.cancelled
  seq : r'.seq = r.seq
  removed : r'.removed = r.removed
  forgotten : ∀ p ∈ r'.forgotten, p ∈ r.forgotten ∨ p = settingsFile
  droppedIds : r'.droppedIds = r.droppedIds
  report : r'.report = r.report
  affected : r'.affected = r.affected
  settingsAffected : r'.settingsAffected = r.settingsAffected
  records : ∀ p, p ≠ settingsFile → r'.records.get? p = r.records.get? p
  settings : ∀ {x}, r'.records.get? settingsFile = some x →
    x.path = settingsFile ∧ x.sketches = none ∧ x.state = .resolved

theorem recordSettings_recorded (r : Run σ) (now : Timestamp) :
    SettingsRecorded r (r.recordSettings now) := by
  unfold recordSettings
  -- the digest of the default settings must not be computed
  generalize EnrichmentSettings.fingerprint {} = default
  dsimp only
  split
  · refine ⟨⟨rfl, rfl, rfl, rfl, rfl⟩, rfl, rfl, rfl, rfl, fun p hp => ?_, rfl, rfl, rfl, rfl,
      fun p hp => ?_, fun {x} hx => ?_⟩
    · simpa using hp
    · exact (get?_erase_eq ..).trans (if_neg hp)
    · rw [get?_erase_eq, if_pos rfl] at hx
      cases hx
  · refine ⟨⟨rfl, rfl, rfl, rfl, rfl⟩, rfl, rfl, rfl, rfl, fun p => .inl, rfl, rfl, rfl, rfl,
      fun p hp => ?_, fun {x} hx => ?_⟩
    · exact (get?_insert_eq ..).trans (if_neg hp)
    · rw [get?_insert_eq, if_pos rfl] at hx
      cases hx
      exact ⟨rfl, rfl, rfl⟩

theorem SettingsRecorded.carries (h : r.Orderly names) (hr : SettingsRecorded r r') :
    r'.Orderly names ∧ Carries due r r' := by
  have hcontains : ∀ p, p ≠ settingsFile → r'.records.contains p = r.records.contains p :=
    fun p hp => by rw [contains, contains, hr.records p hp]
  refine carries_of_records h hr.setup (hr.table ▸ .refl _) hr.droppedIds (fun p => ?_)
    (fun p hp hc => hcontains p hp ▸ hc) (fun p hp hc => .inl (hcontains p hp ▸ hc)) fun ha => ?_
  · by_cases hp : p = settingsFile
    · right
      intro x hx
      rw [hp] at hx
      obtain ⟨hpath, hsk, -⟩ := hr.settings hx
      exact ⟨⟨hpath.trans hp.symm, by simp [hsk], fun _ hne => absurd hp hne⟩,
        fun hne => absurd hp hne⟩
    · exact .inl (hr.records p hp)
  · rwa [AsksSettings, hr.settingsAffected, hr.affected]

/-- Changed settings queue every file with sketches. -/
theorem checkSettings_cases (r : Run σ) (now : Timestamp) : r.checkSettings now = r ∨ ∃ paths r₁,
      (∀ p, p ∈ paths ↔ ∃ x, r.records.get? p = some x ∧ x.sketches.isSome = true) ∧
        Marked paths r r₁ ∧
        SettingsRecorded { r₁ with settingsAffected := true } (r.checkSettings now) := by
  unfold checkSettings
  split
  · exact .inl rfl
  · refine .inr ⟨_, _, fun p => ?_, markAllStale_marked r _, recordSettings_recorded _ now⟩
    rw [StringSet.mem_toList, StringSet.contains_ofList, mem_keys, contains_iff]
    simp only [get?_filter, Option.filter_eq_some_iff]

theorem checkSettings_table (r : Run σ) (now : Timestamp) :
    (r.checkSettings now).table = r.table := by
  rcases checkSettings_cases r now with heq | ⟨paths, r₁, -, hm, hr⟩
  · rw [heq]
  · exact hr.table.trans hm.table

theorem checkSettings_carries (h : r.Orderly names) (now : Timestamp) :
    (r.checkSettings now).Orderly names ∧ Carries due r (r.checkSettings now) := by
  rcases checkSettings_cases r now with heq | ⟨paths, r₁, -, hm, hr⟩
  · rw [heq]
    exact ⟨h, .refl r⟩
  · obtain ⟨h₁, hc₁⟩ : r₁.Orderly names ∧ Carries due r r₁ := marked_carries h hm
    set r₂ : Run σ := { r₁ with settingsAffected := true }
    obtain ⟨h₂, hc₂⟩ : r₂.Orderly names ∧ Carries due r₁ r₂ :=
      carries_of_same h₁ ⟨rfl, rfl, rfl, rfl, rfl⟩ (.refl _) rfl rfl fun _ => .inl rfl
    exact (hr.carries h₂).imp_right (hc₁.trans hc₂).trans

theorem checkSettings_orderly (h : r.Orderly names) (now : Timestamp) :
    (r.checkSettings now).Orderly names :=
  have hboth : _ ∧ Carries (fun _ => True) r _ := checkSettings_carries h now
  hboth.1

/-! ## Removals -/

/-- What the removal of a file does to a run. -/
structure Removal (path : String) (r r' : Run σ) : Prop where
  path_ne : path ≠ settingsFile
  setup : r.SameSetup r'.toController
  table : r'.table = (r.table.removeFile path).2
  cancelled : r'.cancelled = r.cancelled
  seq : r'.seq = r.seq
  removed : r'.removed = r.removed ++ [path]
  forgotten : r'.forgotten = r.forgotten
  dropped : ∀ id, r'.droppedIds.contains id = true ↔
    r.droppedIds.contains id = true ∨ (r.table.removeFile path).1.removed.contains id = true
  records : ∀ p, r'.records.get? p =
    if p = path then none
    else if p ∈ (r.table.removeFile path).1.stale.toList ∧ p ≠ settingsFile then
      (r.records.get? p).map FileRecord.outdated
    else r.records.get? p
  affected : ∀ p, r'.affected.contains p = true ↔ p ≠ path ∧ (r.affected.contains p = true ∨
    (p ∈ (r.table.removeFile path).1.stale.toList ∧ p ≠ settingsFile) ∧
      r.records.contains p = true)
  settingsAffected : r'.settingsAffected = true ↔ r.settingsAffected = true ∨
    settingsFile ∈ (r.table.removeFile path).1.stale.toList
  failures : r'.report.failures = r.report.failures ∧ r'.report.cancelled = r.report.cancelled

theorem removeFile_cases (r : Run σ) (path : String) :
    (r.removeFile path = r ∧ (path = settingsFile ∨ r.records.contains path = false)) ∨
      Removal path r (r.removeFile path) := by
  unfold removeFile
  split
  · next hskip =>
    refine .inl ⟨rfl, ?_⟩
    rcases Bool.or_eq_true_iff.1 hskip with hs | hs
    · exact .inl (by simpa using hs)
    · exact .inr (by simpa using (Bool.and_eq_true_iff.1 hs).1)
  · next hskip =>
    right
    have hpath : path ≠ settingsFile := fun he => hskip (by simp [he])
    rcases hrem : r.table.removeFile path with ⟨summary, table⟩
    set r₁ : Run σ := { r with table, records := r.records.erase path } with hr₁
    have hm := markAllStale_marked r₁ summary.stale
    have hget : ∀ p, r₁.records.get? p = if p = path then none else r.records.get? p :=
      get?_erase_eq r.records path
    refine ⟨hpath, ⟨hm.setup.settings, hm.setup.registry, hm.setup.plugins, hm.setup.sink,
      hm.setup.root⟩, hm.table.trans (by rw [hrem]), hm.cancelled, hm.seq,
      congrArg (· ++ [path]) hm.removed, hm.forgotten, fun id => ?_,
      fun p => ?_, fun p => ?_, ?_, ?_⟩
    · rw [hrem]
      refine (IdSet.contains_union _ _ id).trans ?_
      rw [hm.droppedIds]
    · rw [hrem]
      refine (hm.records p).trans ?_
      rw [hget]
      by_cases hp : p = path <;> simp [hp]
    · rw [hrem]
      change (SortedMap.erase (r₁.markAllStale summary.stale).affected path).contains p = true ↔ _
      rw [contains_erase, Bool.and_eq_true, hm.affected, decide_eq_true_eq]
      refine and_congr_right fun hp => or_congr_right (and_congr_right fun _ => ?_)
      rw [contains, hget, if_neg hp]
      rfl
    · rw [hrem]
      exact hm.settingsAffected
    · have hfailures := congrArg RunReport.failures hm.report
      have hcancelled := congrArg RunReport.cancelled hm.report
      exact ⟨hfailures, hcancelled⟩

/-- What a removal keeps, asking for one keeps. -/
theorem removeFile_keeps {I : Run σ → Prop} (h : I r) (hremove : ∀ r', Removal path r r' → I r') :
    I (r.removeFile path) := by
  rcases removeFile_cases r path with ⟨hsame, -⟩ | hr
  · rwa [hsame]
  · exact hremove _ hr

theorem Removal.collection? (h : Removal path r r') (p : String) :
    r'.collection? p = if p = path then none else r.collection? p := by
  rw [Controller.collection?, Controller.collection?, h.records]
  split
  · rfl
  · split <;> cases r.records.get? p <;> simp

theorem Removal.carries (h : r.Orderly names) (hr : Removal path r r') :
    r'.Orderly names ∧ Carries due r r' := by
  obtain ⟨hup, hedges, -⟩ := Table.removeFile_update h.table h.counted path
  rw [← hr.table] at hup hedges
  refine carries_of_update h hup hr.setup (fun p hp => (hr.records p).trans (if_neg hp))
    (fun x hx => ?_) (fun hne => absurd hedges hne) (fun id hid => (hr.dropped id).2 hid) ?_
    fun he => absurd he hr.path_ne
  · rw [hr.records, if_pos rfl] at hx
    cases hx
  · rintro ((ha | ha) | ha | ha)
    · exact .inl (hr.settingsAffected.2 (.inl ha))
    · exact .inr ((hr.affected _).2 ⟨Ne.symm hr.path_ne, .inl ha⟩)
    · exact absurd ha hr.path_ne
    · exact .inl (hr.settingsAffected.2 (.inr ha))

theorem Removal.orderly (h : r.Orderly names) (hr : Removal path r r') : r'.Orderly names :=
  have hboth : _ ∧ Carries (fun _ => True) r _ := hr.carries h
  hboth.1

/-! ## Taking in the changes -/

/-- Removed files have no record. -/
def Forgets (r : Run σ) : Prop :=
  ∀ p ∈ r.removed, p ≠ settingsFile ∧ r.records.get? p = none

theorem Removal.forgets (h : r.Forgets) (hr : Removal path r r') : r'.Forgets := by
  intro p hp
  rw [hr.removed, List.mem_append, List.mem_singleton] at hp
  rw [hr.records]
  rcases hp with hp | rfl
  · obtain ⟨hne, hnone⟩ := h p hp
    exact ⟨hne, by simp [hnone]⟩
  · exact ⟨hr.path_ne, if_pos rfl⟩

/-- What the decision on a modified file does to a run. -/
structure Examined (s : SourceFile) (r r' : Run σ) : Prop where
  controller : r'.toController = r.toController
  removed : r'.removed = r.removed
  forgotten : r'.forgotten = r.forgotten
  droppedIds : r'.droppedIds = r.droppedIds
  settingsAffected : r'.settingsAffected = r.settingsAffected
  failures : r'.report.failures = r.report.failures ∧ r'.report.cancelled = r.report.cancelled
  affected : ∀ p, r'.affected.contains p = true ↔ r.affected.contains p = true ∨
    p = s.path ∧ FileRecord.need s.fingerprint (r.records.get? s.path) = .resolution

theorem examine_examined (r : Run σ) (due : List SourceFile) (s : SourceFile) :
    Examined s r (examine (r, due) s).1 ∧ (examine (r, due) s).2 =
      if FileRecord.need s.fingerprint (r.records.get? s.path) = .collection then due ++ [s]
      else due := by
  cases hn : FileRecord.need s.fingerprint (r.records.get? s.path) with
  | nothing =>
    have hex : examine (r, due) s =
        ({ r with report := { r.report with filesSkipped := r.report.filesSkipped + 1 } },
          due) := by
      simp only [examine, hn]
    rw [hex]
    exact ⟨⟨rfl, rfl, rfl, rfl, rfl, ⟨rfl, rfl⟩, fun p => by simp [hn]⟩, by simp⟩
  | collection =>
    have hex : examine (r, due) s = (r, due ++ [s]) := by simp only [examine, hn]
    rw [hex]
    exact ⟨⟨rfl, rfl, rfl, rfl, rfl, ⟨rfl, rfl⟩, fun p => by simp [hn]⟩, by simp⟩
  | resolution =>
    have hex : examine (r, due) s = ({ r with affected := r.affected.add s.path }, due) := by
      simp only [examine, hn]
    rw [hex]
    refine ⟨⟨rfl, rfl, rfl, rfl, rfl, ⟨rfl, rfl⟩, fun p => ?_⟩, by simp⟩
    rw [StringSet.contains_add]
    simp [hn, or_comm]

theorem need_eq_resolution {fingerprint : String} {x : Option FileRecord}
    (h : FileRecord.need fingerprint x = .resolution) :
    ∃ y, x = some y ∧ y.state ≠ .resolved ∧ y.state ≠ .failed ∧ y.sketches.isSome = true := by
  cases x with
  | none => simp [FileRecord.need] at h
  | some y =>
    simp only [FileRecord.need] at h
    split at h
    · next hc =>
      refine ⟨y, rfl, ?_⟩
      cases hs : y.state <;> simp_all
    · cases h

theorem Examined.carries (h : r.Orderly names) (he : Examined s r r') :
    r'.Orderly names ∧ Carries due r r' := by
  have hc := he.controller
  refine carries_of_same h ?_ ?_ ?_ he.droppedIds fun ha => ?_
  · rw [hc]
  · rw [hc]
  · rw [hc]
  · exact ha.imp (he.settingsAffected ▸ ·) fun ha => (he.affected _).2 (.inl ha)

theorem Examined.forgets (h : r.Forgets) (he : Examined s r r') : r'.Forgets := by
  intro p hp
  rw [he.controller]
  exact h p (he.removed ▸ hp)

/-- The files to be collected after decisions on modified files. -/
theorem mem_foldl_examine {l : List SourceFile} {acc : Run σ × List SourceFile}
    (hs : s ∈ (l.foldl examine acc).2) : s ∈ acc.2 ∨ s ∈ l := by
  induction l generalizing acc with
  | nil => exact .inl hs
  | cons x rest ih =>
    rcases ih hs with hs | hs
    · rw [(examine_examined acc.1 acc.2 x).2] at hs
      split at hs
      · rcases List.mem_append.1 hs with hs | hs
        · exact .inl hs
        · exact .inr (List.mem_singleton.1 hs ▸ List.mem_cons_self ..)
      · exact .inl hs
    · exact .inr (List.mem_cons_of_mem _ hs)

/-- A property that removals and decisions keep holds after the changes are taken in. -/
theorem takeChanges_induct {I : Run σ → Prop} (changes : List FileChange) (hr : I r)
    (hremove : ∀ r r' path, I r → Removal path r r' → I r')
    (hexamine : ∀ r r' s, I r → Examined s r r' → I r') : I (r.takeChanges changes).1 := by
  have hfold : ∀ (l : List SourceFile) (acc : Run σ × List SourceFile), I acc.1 →
      I (l.foldl examine acc).1 := by
    intro l
    induction l with
    | nil => exact fun _ => id
    | cons s rest ih =>
      exact fun acc hacc => ih _ (hexamine acc.1 _ s hacc (examine_examined acc.1 acc.2 s).1)
  refine hfold _ _ ?_
  exact List.foldlRecOn _ removeFile hr fun r h path _ => removeFile_keeps h (hremove r · path h)

/-- What removals keep of an orderly project holds after the changes are taken in. -/
theorem takeChanges_keeps {J : Controller σ → Prop} (hc : r.Orderly names)
    (changes : List FileChange) (hr : J r.toController)
    (hremove : ∀ (r r' : Run σ) path, r.Orderly names → J r.toController → Removal path r r' →
      J r'.toController) : J (r.takeChanges changes).1.toController := by
  refine (takeChanges_induct (I := fun r' => r'.Orderly names ∧ J r'.toController) changes ⟨hc, hr⟩
    (fun r r' path ⟨hc, h⟩ hr => ⟨hr.orderly hc, hremove r r' path hc h hr⟩)
    fun r r' s ⟨hc, h⟩ he => ?_).2
  rw [he.controller]
  exact ⟨hc, h⟩

theorem takeChanges_carries (h : r.Orderly names) (changes : List FileChange) :
    (r.takeChanges changes).1.Orderly names ∧ Carries due r (r.takeChanges changes).1 :=
  takeChanges_induct (I := fun r' => r'.Orderly names ∧ Carries due r r') changes ⟨h, .refl r⟩
    (fun _ _ _ ⟨hc, hcar⟩ hr => (hr.carries hc).imp_right hcar.trans)
    fun _ _ _ ⟨hc, hcar⟩ he => (he.carries hc).imp_right hcar.trans

theorem takeChanges_forgets (h : r.Forgets) (changes : List FileChange) :
    (r.takeChanges changes).1.Forgets :=
  takeChanges_induct changes h (fun _ _ _ h hr => hr.forgets h) fun _ _ _ h he => he.forgets h

theorem foldl_examine_removed (l : List SourceFile) (acc : Run σ × List SourceFile) :
    (l.foldl examine acc).1.removed = acc.1.removed := by
  induction l generalizing acc with
  | nil => rfl
  | cons s rest ih => exact (ih _).trans (examine_examined acc.1 acc.2 s).1.removed

/-- Only what the plan removes is removed. -/
theorem takeChanges_removed (r : Run σ) (changes : List FileChange) :
    ∀ p ∈ (r.takeChanges changes).1.removed,
      p ∈ r.removed ∨ (r.plan changes).removals.contains p = true := by
  have hremove : ∀ p ∈ ((r.plan changes).removals.toList.foldl removeFile r).removed,
      p ∈ r.removed ∨ (r.plan changes).removals.contains p = true := by
    refine List.foldlRecOn (motive := fun r' : Run σ => ∀ p ∈ r'.removed,
      p ∈ r.removed ∨ (r.plan changes).removals.contains p = true) _ removeFile
      (fun p hp => .inl hp) fun r' h path hpath q hq => ?_
    rcases removeFile_cases r' path with ⟨hsame, -⟩ | hr
    · exact h q (hsame ▸ hq)
    · rw [hr.removed, List.mem_append, List.mem_singleton] at hq
      rcases hq with hq | rfl
      · exact h q hq
      · exact .inr (StringSet.mem_toList.1 hpath)
  intro p hp
  unfold takeChanges at hp
  rw [foldl_examine_removed] at hp
  exact hremove p hp

/-- The files to be collected are modified by the changes. -/
theorem takeChanges_due (hs : s ∈ (r.takeChanges changes).2) :
    (r.plan changes).modified.get? s.path = some s ∧ .modified s ∈ changes := by
  have hmem : s ∈ (r.plan changes).modified.values :=
    (mem_foldl_examine hs).resolve_left (by simp)
  obtain ⟨path, hpath⟩ := mem_values.1 hmem
  obtain ⟨rfl, hch⟩ := (plan_fits r changes).modified hpath
  exact ⟨hpath, hch⟩

/-- A file to be collected is not removed. -/
theorem takeChanges_due_notMem_removed (hr : r.removed = []) (hs : s ∈ (r.takeChanges changes).2) :
    s.path ∉ (r.takeChanges changes).1.removed := by
  intro hmem
  rcases takeChanges_removed r changes s.path hmem with hmem | hmem
  · rw [hr] at hmem
    cases hmem
  · have := (plan_fits r changes).disjoint hmem
    rw [(takeChanges_due hs).1] at this
    cases this

/-! ## Sketches -/

theorem get?_sketches (c : Controller σ) (p : String) :
    c.sketches.get? p = (c.records.get? p).bind (·.sketches) :=
  get?_filterMap ..

theorem checkSettings_sketches (r : Run σ) (now : Timestamp) {p : String} {f : FileSketch}
    (h : (r.checkSettings now).sketches.get? p = some f) : r.sketches.get? p = some f := by
  rcases checkSettings_cases r now with heq | ⟨paths, r₁, -, hm, hr⟩
  · rwa [heq] at h
  · rw [get?_sketches] at h ⊢
    by_cases hp : p = settingsFile
    · subst hp
      obtain ⟨x, hx, hf⟩ := Option.bind_eq_some_iff.1 h
      rw [(hr.settings hx).2.1] at hf
      cases hf
    · rw [hr.records p hp] at h
      change (r₁.records.get? p).bind _ = _ at h
      rw [hm.records] at h
      rw [← h]
      split <;> cases r.records.get? p <;> simp

theorem Removal.sketches {path p : String} {f : FileSketch} (hr : Removal path r r')
    (hf : r'.sketches.get? p = some f) : r.sketches.get? p = some f := by
  rw [Controller.get?_sketches_eq_map, hr.collection?] at hf
  split at hf
  · cases hf
  · rwa [Controller.get?_sketches_eq_map]

theorem takeChanges_sketches (r : Run σ) (changes : List FileChange) :
    ∀ {p f}, (r.takeChanges changes).1.sketches.get? p = some f → r.sketches.get? p = some f :=
  takeChanges_induct (I := fun r' => ∀ {p f}, r'.sketches.get? p = some f →
    r.sketches.get? p = some f) changes id (fun _ _ _ h hr _ _ hf => h (hr.sketches hf))
    fun _ _ _ h he _ _ hf => h (he.controller ▸ hf)

end Run

end CodeAtlas
