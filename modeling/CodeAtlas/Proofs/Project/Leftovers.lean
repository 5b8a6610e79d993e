import Mathlib
import CodeAtlas.Proofs.Project.Delivery

/-!
# What earlier runs left to do

A run takes up the files that wait for their resolution, and removes again what is gone with rows
left in the store. So a run without failures leaves every file resolved, or finished and on its way
to the store.

Main results:

* `begun_prepared`, `begun_tombstone`: which files the beginning of a run queues and removes.
* `Ran.record_of_calm`: the records after the work of a run without failures.
-/

namespace CodeAtlas

open SortedMap

variable {σ : Type} {names : Set String} {p : String}

namespace Run

/-! ## What is left to do -/

/-- What the beginning of a run does to the records of files, and which files it queues. -/
structure Prepared (c : Controller σ) (r : Run σ) : Prop where
  origin : ∀ {p x}, p ≠ settingsFile → r.records.get? p = some x → ∃ y,
    c.records.get? p = some y ∧ (x = y ∨ x = y.outdated ∧ r.affected.contains p = true)
  kept : ∀ {p y}, p ≠ settingsFile → c.records.get? p = some y → p ∈ r.removed ∨
    r.records.contains p = true ∧ (y.isPending = true → r.affected.contains p = true)
  settings : r.affected.contains settingsFile = false ∧ r.sketches.get? settingsFile = none

variable {c : Controller σ} {r r' : Run σ}

theorem start_prepared (hs : c.sketches.get? settingsFile = none) (full : Bool) :
    Prepared c (start c full) := by
  have haff : ∀ p, (start c full).affected.contains p = true ↔
      ∃ y, c.records.get? p = some y ∧ y.isPending = true := by
    intro p
    change (StringSet.ofList (c.records.filter fun _ r => r.isPending).keys).contains p = true ↔ _
    rw [StringSet.contains_ofList, mem_keys, contains_iff]
    simp only [get?_filter, Option.filter_eq_some_iff]
  refine ⟨fun _ hx => ⟨_, hx, .inl rfl⟩, fun _ hy => .inr ⟨contains_of_get? hy, fun hp => ?_⟩, ?_, hs⟩
  · exact (haff _).2 ⟨_, hy, hp⟩
  · rw [← Bool.not_eq_true, haff]
    rintro ⟨y, hy, hp⟩
    rw [get?_sketches, hy] at hs
    have hs : y.sketches = none := hs
    simp [FileRecord.isPending, hs] at hp

section

variable (h : Prepared c r)

include h

/-- Some files are removed, and others are found out of date and queued. -/
theorem Prepared.outdated (gone paths : List String)
    (hrec : ∀ p, p ≠ settingsFile → r'.records.get? p = if p ∈ gone then none
      else if p ∈ paths then (r.records.get? p).map FileRecord.outdated else r.records.get? p)
    (haff : ∀ p, p ≠ settingsFile → (r'.affected.contains p = true ↔ p ∉ gone ∧
      (r.affected.contains p = true ∨ p ∈ paths ∧ r.records.contains p = true)))
    (hremoved : r'.removed = r.removed ++ gone)
    (hset : r'.affected.contains settingsFile = r.affected.contains settingsFile)
    (hsk : r'.sketches.get? settingsFile = none) : Prepared c r' := by
  refine ⟨fun {p x} hp hx => ?_, fun {p y} hp hy => ?_, hset.trans h.settings.1, hsk⟩
  · rw [hrec p hp] at hx
    split at hx
    · cases hx
    · next hgone =>
      split at hx
      · next hmem =>
        obtain ⟨x', hx', rfl⟩ := Option.map_eq_some_iff.1 hx
        obtain ⟨y, hy, hor⟩ := h.origin hp hx'
        refine ⟨y, hy, .inr ⟨?_, (haff p hp).2 ⟨hgone, .inr ⟨hmem, contains_of_get? hx'⟩⟩⟩⟩
        rcases hor with rfl | ⟨rfl, -⟩
        · rfl
        · simp
      · obtain ⟨y, hy, hor⟩ := h.origin hp hx
        exact ⟨y, hy, hor.imp_right (And.imp_right fun ha => (haff p hp).2 ⟨hgone, .inl ha⟩)⟩
  · rw [hremoved, List.mem_append]
    by_cases hgone : p ∈ gone
    · exact .inl (.inr hgone)
    · rcases h.kept hp hy with hmem | ⟨hc, ha⟩
      · exact .inl (.inl hmem)
      · refine .inr ⟨?_, fun hy => (haff p hp).2 ⟨hgone, .inl (ha hy)⟩⟩
        rw [contains, hrec p hp, if_neg hgone]
        split <;> simpa [contains] using hc

theorem checkSettings_prepared (now : Timestamp) : Prepared c (r.checkSettings now) := by
  have hsk : (r.checkSettings now).sketches.get? settingsFile = none := by
    cases hf : (r.checkSettings now).sketches.get? settingsFile with
    | none => rfl
    | some f =>
      have hnone := h.settings.2
      rw [checkSettings_sketches r now hf] at hnone
      cases hnone
  rcases checkSettings_cases r now with heq | ⟨paths, r₁, -, hm, hr⟩
  · rwa [heq]
  · refine h.outdated [] paths (fun p hp => ?_) (fun p hp => ?_)
      ((hr.removed.trans hm.removed).trans (List.append_nil _).symm) ?_ hsk
    · rw [hr.records p hp]
      refine (hm.records p).trans ?_
      simp [hp]
    · rw [hr.affected]
      refine (hm.affected p).trans ?_
      simp [hp]
    · rw [hr.affected, Bool.eq_iff_iff]
      refine (hm.affected settingsFile).trans ?_
      simp

theorem Removal.prepared {path : String} (hr : Removal path r r') : Prepared c r' := by
  refine h.outdated [path] (r.table.removeFile path).1.stale.toList (fun p hp => ?_)
    (fun p hp => ?_) hr.removed ?_ ?_
  · simp [hr.records, hp]
  · simp [hr.affected, hp]
  · rw [h.settings.1, ← Bool.not_eq_true, hr.affected, h.settings.1]
    simp
  · have hnone := h.settings.2
    rw [get?_sketches] at hnone ⊢
    rw [hr.records, if_neg (Ne.symm hr.path_ne)]
    simpa using hnone

theorem Examined.prepared {s : SourceFile} (he : Examined s r r') : Prepared c r' := by
  have hmono : ∀ {p}, r.affected.contains p = true → r'.affected.contains p = true :=
    fun ha => (he.affected _).2 (.inl ha)
  have hrec : r'.records = r.records := by rw [he.controller]
  refine ⟨fun hp hx => ?_, fun hp hy => ?_, ?_, by rw [he.controller]; exact h.settings.2⟩
  · obtain ⟨y, hy, hor⟩ := h.origin hp (hrec ▸ hx)
    exact ⟨y, hy, hor.imp_right (And.imp_right hmono)⟩
  · rw [he.removed, hrec]
    exact (h.kept hp hy).imp_right (And.imp_right fun ha hy => hmono (ha hy))
  · rw [← Bool.not_eq_true, he.affected, h.settings.1]
    rintro (hc | ⟨hs, hneed⟩)
    · cases hc
    · -- what needs a resolution has sketches
      obtain ⟨y, hy, -, -, hsome⟩ := need_eq_resolution hneed
      have hnone := h.settings.2
      rw [hs, get?_sketches, hy] at hnone
      have hnone : y.sketches = none := hnone
      simp [hnone] at hsome

theorem takeChanges_prepared (changes : List FileChange) : Prepared c (r.takeChanges changes).1 :=
  takeChanges_induct changes h (fun _ _ _ h hr => hr.prepared h) fun _ _ _ h he => he.prepared h

end

/-! ## Tombstones -/

/-- A file without sketches is to be collected. -/
theorem need_eq_collection {fingerprint : String} {x : Option FileRecord}
    (h : ∀ y, x = some y → y.sketches = none) : FileRecord.need fingerprint x = .collection := by
  cases x with
  | none => rfl
  | some y => simp [FileRecord.need, h y rfl]

theorem mem_foldl_removeFile {l : List String} (hp : p ≠ settingsFile)
    (h : p ∈ r.removed ∨ p ∈ l ∧ r.records.contains p = true) :
    p ∈ (l.foldl removeFile r).removed := by
  induction l generalizing r with
  | nil => exact h.resolve_right (by simp)
  | cons path rest ih =>
    refine ih ?_
    rcases removeFile_cases r path with ⟨hsame, hskip⟩ | hr
    · rw [hsame]
      refine h.imp_right fun ⟨hmem, hc⟩ => ⟨(List.mem_cons.1 hmem).resolve_left ?_, hc⟩
      rintro rfl
      rcases hskip with hskip | hskip
      · exact hp hskip
      · rw [hc] at hskip
        cases hskip
    · rw [hr.removed, List.mem_append, List.mem_singleton]
      by_cases hne : p = path
      · exact .inl (.inr hne)
      · refine h.imp .inl fun ⟨hmem, hc⟩ => ⟨(List.mem_cons.1 hmem).resolve_left hne, ?_⟩
        rw [contains, hr.records, if_neg hne]
        split <;> simpa [contains] using hc

theorem mem_foldl_examine_of_need {l : List SourceFile} {acc : Run σ × List SourceFile}
    {s : SourceFile} (h : s ∈ acc.2 ∨ s ∈ l ∧
      FileRecord.need s.fingerprint (acc.1.records.get? s.path) = .collection) :
    s ∈ (l.foldl examine acc).2 := by
  induction l generalizing acc with
  | nil => exact h.resolve_right (by simp)
  | cons x rest ih =>
    obtain ⟨he, hdue⟩ := examine_examined acc.1 acc.2 x
    refine ih ?_
    change s ∈ (examine (acc.1, acc.2) x).2 ∨ s ∈ rest ∧
      FileRecord.need s.fingerprint ((examine (acc.1, acc.2) x).1.records.get? s.path) = .collection
    rw [hdue, he.controller]
    rcases h with h | ⟨hmem, hneed⟩
    · left
      split
      · exact List.mem_append_left _ h
      · exact h
    · rcases List.mem_cons.1 hmem with rfl | hmem
      · left
        rw [if_pos hneed]
        simp
      · exact .inr ⟨hmem, hneed⟩

theorem foldl_add_covers {l : List FileChange} {plan : Plan}
    (h : plan.removals.contains p = true ∨ plan.modified.contains p = true) :
    (l.foldl Plan.add plan).removals.contains p = true ∨
      (l.foldl Plan.add plan).modified.contains p = true := by
  refine List.foldlRecOn (motive := fun plan : Plan => plan.removals.contains p = true ∨
    plan.modified.contains p = true) l Plan.add h fun plan h x _ => ?_
  cases x with
  | removed path =>
    simp only [Plan.add, StringSet.contains_add, contains_erase, Bool.or_eq_true, Bool.and_eq_true,
      decide_eq_true_eq]
    tauto
  | modified s =>
    simp only [Plan.add, contains_erase, contains_insert, Bool.or_eq_true, Bool.and_eq_true,
      decide_eq_true_eq]
    tauto

/-- A removed file whose rows the store still holds is removed again, unless it is offered. -/
theorem takeChanges_tombstone {changes : List FileChange} {y : FileRecord} (hp : p ≠ settingsFile)
    (hy : r.records.get? p = some y) (ht : y.isTombstone = true) :
    p ∈ (r.takeChanges changes).1.removed ∨ ∃ s ∈ (r.takeChanges changes).2, s.path = p := by
  have hplan : (r.plan changes).removals.contains p = true ∨
      (r.plan changes).modified.contains p = true := by
    refine foldl_add_covers (.inl ?_)
    rw [StringSet.contains_ofList, mem_keys, contains_iff]
    exact ⟨y, by simp [get?_filter, hy, Option.filter, ht]⟩
  unfold takeChanges
  rcases hplan with hrem | hmod
  · left
    rw [foldl_examine_removed]
    exact mem_foldl_removeFile hp (.inr ⟨StringSet.mem_toList.2 hrem, contains_of_get? hy⟩)
  · right
    obtain ⟨s, hs⟩ := contains_iff.1 hmod
    obtain ⟨hpath, -⟩ := (plan_fits r changes).modified hs
    refine ⟨s, mem_foldl_examine_of_need (.inr ⟨mem_values.2 ⟨p, hs⟩, ?_⟩), hpath⟩
    have hsk : ∀ f, ((r.plan changes).removals.toList.foldl removeFile r).sketches.get? p =
        some f → r.sketches.get? p = some f := fun f =>
      List.foldlRecOn (motive := fun r' : Run σ => r'.sketches.get? p = some f →
        r.sketches.get? p = some f) _ removeFile id fun r' h path _ =>
          removeFile_keeps h fun r'' hr hf => h (hr.sketches hf)
    refine need_eq_collection fun x hx => Option.eq_none_iff_forall_ne_some.2 fun f hf => ?_
    have hnone := hsk f (by rw [get?_sketches, ← hpath, hx]; exact hf)
    rw [get?_sketches, hy] at hnone
    have hnone : y.sketches = some f := hnone
    simp [FileRecord.isTombstone, hnone] at ht

/-! ## Calm runs -/

variable {due : List SourceFile}

/-- No step forgets a record. -/
theorem Step.kept (hs : Step names due r r') (hc : r.records.contains p = true) :
    r'.records.contains p = true := by
  cases hs with
  | records hs => exact hs.kept p hc
  | @commit c summary hs =>
    by_cases hc' : p = c.source.path
    · obtain ⟨x, hx, -⟩ := hs.record
      exact hc' ▸ contains_of_get? hx
    · rw [contains, hs.records p hc']
      split <;> simpa [contains] using hc
  | edges hs => rwa [hs.contains]
  | learn hs | adopt hs | retire hs | prune hs => rwa [hs.records]

/-- A file that is not offered stays as it was collected. -/
theorem Step.collection?_eq (hs : Step names due r r') (hp : ∀ s ∈ due, s.path ≠ p) :
    r'.collection? p = r.collection? p := by
  refine (hs.collection? p).resolve_right ?_
  rintro ⟨c, summary, hc, hpath⟩
  exact hp _ hc.offered hpath

section

variable (hs : Steps names due r r')

include hs

theorem Steps.kept (hc : r.records.contains p = true) : r'.records.contains p = true := by
  induction hs with
  | refl => exact hc
  | tail _ hstep ih => exact hstep.kept ih

theorem Steps.created (hc : r'.records.contains p = true) :
    r.records.contains p = true ∨ ∃ s ∈ due, s.path = p := by
  induction hs with
  | refl => exact .inl hc
  | tail _ hstep ih => exact (hstep.created hc).elim ih .inr

omit hs in
/-- Unless something fails, a record changes only to wait for a result. -/
theorem Step.queue (hs : Step names due r r') (hcalm : r'.Calm) {x : FileRecord}
    (hp : p ≠ settingsFile) (hx : r'.records.get? p = some x) : r.records.get? p = some x ∨
      (x.state = .stale ∨ x.state = .collected) ∧ r'.affected.contains p = true := by
  have hfails : ¬r'.Fails p := hcalm.not_fails p
  have hrevised : r'.Revises due p (r.records.get? p) x → r.records.get? p = some x ∨
      (x.state = .stale ∨ x.state = .collected) ∧ r'.affected.contains p = true := by
    generalize r.records.get? p = o
    intro h
    cases h with
    | @state y s turns =>
      cases turns hp with
      | same => exact .inl rfl
      | stale reason => exact .inr ⟨.inl rfl, reason.resolve_right hfails⟩
      | ready queued => exact .inr ⟨.inr rfl, queued⟩
      | failed reason => exact absurd reason hfails
    | first _ _ _ reason => exact absurd reason hfails
  cases hs with
  | records hs | edges hs => exact hrevised (hs.revised hx)
  | @commit c summary hs =>
    by_cases hc : p = c.source.path
    · obtain ⟨y, hy, -, -, hstate, -⟩ := hs.record
      subst hc
      cases hx.symm.trans hy
      exact .inr ⟨.inr hstate, hs.affected _ hs.queued⟩
    · rw [hs.records p hc] at hx
      split at hx
      · next hstale =>
        obtain ⟨y, hy, rfl⟩ := Option.map_eq_some_iff.1 hx
        rw [hy]
        rcases y.outdated_state with hs' | hs'
        · exact .inl (by rw [FileRecord.outdated_of_failed hs'])
        · exact .inr ⟨.inl hs', (hs.newly p).2 (.inr ⟨hstale, contains_of_get? hy⟩)⟩
      · exact .inl hx
  | learn hs | adopt hs | retire hs | prune hs => exact .inl (hs.records ▸ hx)

theorem Steps.queue (hcalm : r'.Calm) {x : FileRecord}
    (hp : p ≠ settingsFile) (hx : r'.records.get? p = some x) : r.records.get? p = some x ∨
      (x.state = .stale ∨ x.state = .collected) ∧ r'.affected.contains p = true := by
  induction hs with
  | refl => exact .inl hx
  | tail _ hstep ih =>
    rcases hstep.queue hcalm hp hx with hx | hw
    · exact (ih (hstep.stays.calm hcalm) hx).imp_right (And.imp_right (hstep.stays.affected p))
    · exact .inr hw

theorem Steps.collection?_eq (hp : ∀ s ∈ due, s.path ≠ p) : r'.collection? p = r.collection? p := by
  induction hs with
  | refl => rfl
  | tail _ hstep ih => exact (hstep.collection?_eq hp).trans ih

end

end Run

namespace Controller

/-- Every file is resolved, waits for its resolution, or is gone with rows left in the store; and no
sketches stand for the settings. -/
structure Tracked (c : Controller σ) : Prop where
  record : ∀ {p x}, p ≠ settingsFile → c.records.get? p = some x →
    x.state = .resolved ∨ x.isPending = true ∨ x.isTombstone = true
  settings : c.sketches.get? settingsFile = none

variable {c c' : Controller σ} {k : Conditions} {changes : List FileChange} {full : Bool}
  {finished : List String} {r : Run σ} {report : RunReport}

theorem begun_prepared (h : c.Tracked) : Run.Prepared c (c.begun k changes full).1 :=
  Run.takeChanges_prepared (Run.checkSettings_prepared (Run.start_prepared h.settings full) k.now)
    changes

/-- What is gone with rows left in the store is removed again, unless it is offered. -/
theorem begun_tombstone {y : FileRecord} (hp : p ≠ settingsFile) (hy : c.records.get? p = some y)
    (ht : y.isTombstone = true) : p ∈ (c.begun k changes full).1.removed ∨
      ∃ s ∈ (c.begun k changes full).2, s.path = p := by
  refine Run.takeChanges_tombstone (y := y) hp ?_ ht
  rcases Run.checkSettings_cases (Run.start c full) k.now with heq | ⟨paths, r₁, hpaths, hm, hr⟩
  · rw [heq]
    exact hy
  · rw [hr.records p hp]
    refine (hm.records p).trans ((if_neg ?_).trans hy)
    rintro ⟨hmem, -⟩
    obtain ⟨x, hx, hsome⟩ := (hpaths p).1 hmem
    cases hy.symm.trans hx
    simp only [FileRecord.isTombstone, Bool.and_eq_true, Option.isNone_iff_eq_none] at ht
    simp [ht.1.1] at hsome

section

variable [Sink σ]

/-- After the work of a calm run every file with a record has sketches; it is finished, or it was
resolved before. -/
theorem Ran.record_of_calm (hc : c.Orderly names) (h : c.Tracked) (hcalm : r.Calm)
    (hran : Ran names k changes full c finished r report c') {x : FileRecord}
    (hp : p ≠ settingsFile) (hx : r.records.get? p = some x) :
    x.sketches.isSome = true ∧ (p ∈ finished ∧ x.state = .collected ∨
      p ∉ finished ∧ x.state = .resolved ∧ c.records.get? p = some x) := by
  have hprep : Run.Prepared c (c.begun k changes full).1 := begun_prepared h
  have hstays := Run.Steps.stays hran.worked.steps
  obtain ⟨-, hdue⟩ := hran.worked.complete hcalm
  have hkept : p ∉ (c.begun k changes full).1.removed := by
    intro hmem
    rw [← hstays.removed] at hmem
    cases (hran.forgets p hmem).2.symm.trans hx
  -- records before the first pass
  have hbefore : ∀ {z}, (c.begun k changes full).1.records.get? p = some z → z.state ≠ .failed := by
    intro z hz hfailed
    obtain ⟨y, hy, hzy⟩ := hprep.origin hp hz
    have hyf : y.state = .failed := by
      rcases hzy with rfl | ⟨rfl, -⟩
      · exact hfailed
      · rwa [FileRecord.outdated_of_failed hfailed] at hfailed
    rcases h.record hp hy with hs | hs | hs
    · rw [hyf] at hs
      cases hs
    · simp [FileRecord.isPending, hyf] at hs
    · simp [FileRecord.isTombstone, hyf] at hs
  have hsk : x.sketches.isSome = true := by
    by_cases hd : ∃ s ∈ (c.begun k changes full).2, s.path = p
    · obtain ⟨s, hs, rfl⟩ := hd
      obtain ⟨-, f, x', -, hx', -, hf⟩ := hdue s hs
      cases hx.symm.trans hx'
      simp [hf]
    · have hnot : ∀ s ∈ (c.begun k changes full).2, s.path ≠ p := fun s hs he => hd ⟨s, hs, he⟩
      obtain ⟨z, hz⟩ := contains_iff.1 ((Run.Steps.created hran.worked.steps
        (contains_of_get? hx)).resolve_right hd)
      obtain ⟨y, hy, hzy⟩ := hprep.origin hp hz
      have hzs : z.sketches = y.sketches := by rcases hzy with rfl | ⟨rfl, -⟩ <;> simp
      have hys : y.sketches.isSome = true := by
        rcases h.record hp hy with hs | hs | hs
        · exact (hc.record hy).resolved hs hp
        · exact (Bool.and_eq_true_iff.1 hs).2
        · exact ((begun_tombstone hp hy hs).elim hkept hd).elim
      have heq := sketches_of_collection? (Run.Steps.collection?_eq hran.worked.steps hnot)
      rw [Run.get?_sketches, Run.get?_sketches, hx, hz] at heq
      have heq : x.sketches = z.sketches := heq
      rw [heq, hzs, hys]
  refine ⟨hsk, ?_⟩
  have hqueue := Run.Steps.queue hran.worked.steps hcalm hp hx
  by_cases hmem : p ∈ finished
  · left
    refine ⟨hmem, ?_⟩
    have hready := hran.worked.ready p hmem x hx
    have hfailed : x.state ≠ .failed := by
      rcases hqueue with hz | ⟨hs | hs, -⟩
      · exact hbefore hz
      · simp [hs]
      · simp [hs]
    rw [← hready, FileRecord.ready, if_neg (by simpa using hfailed)]
  · right
    have hidle : ¬r.affected.contains p = true := by
      intro ha
      refine hmem ((hran.worked.settled p ha ?_).resolve_right ?_)
      · rw [Run.get?_sketches, hx]
        exact hsk
      · exact not_or.2 ⟨fun hs => hcalm.not_fails p hs.fails, by simp [hcalm.2]⟩
    obtain ⟨y, hy, hxy⟩ := hprep.origin hp (hqueue.resolve_right fun hw => hidle hw.2)
    obtain rfl : x = y := hxy.resolve_right fun ho => hidle (hstays.affected p ho.2)
    refine ⟨hmem, ?_, hy⟩
    rcases h.record hp hy with hs | hs | hs
    · exact hs
    · exact absurd (hstays.affected p (((hprep.kept hp hy).resolve_left hkept).2 hs)) hidle
    · simp only [FileRecord.isTombstone, Bool.and_eq_true, Option.isNone_iff_eq_none] at hs
      simp [hs.1.1] at hsk

/-- Only removed files lose their records. -/
theorem Ran.record_eq_none (h : c.Tracked)
    (hran : Ran names k changes full c finished r report c') (hp : p ≠ settingsFile)
    (hx : r.records.get? p = none) : p ∈ r.removed ∨ c.records.get? p = none := by
  have hprep : Run.Prepared c (c.begun k changes full).1 := begun_prepared h
  cases hy : c.records.get? p with
  | none => exact .inr rfl
  | some y =>
    left
    rw [(Run.Steps.stays hran.worked.steps).removed]
    refine (hprep.kept hp hy).resolve_right fun ⟨hk, _⟩ => ?_
    have := Run.Steps.kept hran.worked.steps hk
    rw [contains, hx] at this
    cases this

end

end Controller

end CodeAtlas
