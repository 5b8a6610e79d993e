import Mathlib
import CodeAtlas.Proofs.Project.Removals

/-!
# Untouched files

A run leaves a file alone unless the report gives a reason: the file was resolved, a failure names
it, or the run removed it. Files are queued at many points of a run, and cascades drop edges of
files that nobody named; but whoever loses an edge is queued, and whoever is queued and has sketches
ends in the report.

Main results:

* `Controller.Backed`: who owns an edge has sketches.
* `Step.leaves`, `Steps.leaves`, `begun_leaves`: what each part of a run leaves alone.
* `untouched_of_reaches`: the edges, the record and the rows of a file that the report does not
  name.
-/

namespace CodeAtlas

open SortedMap

variable {σ : Type} {names : Set String}

namespace Controller

/-- Who owns an edge has sketches. -/
def Backed (c : Controller σ) : Prop :=
  ∀ o, o ≠ settingsFile → c.table.edgesOf o ≠ [] → (c.collection? o).isSome = true

/-- A file has the same record and the same edges. -/
structure Leaves (c c' : Controller σ) (p : String) : Prop where
  record : c'.records.get? p = c.records.get? p
  edges : c'.table.edgesOf p = c.table.edgesOf p

theorem Leaves.refl (c : Controller σ) (p : String) : c.Leaves c p := ⟨rfl, rfl⟩

theorem Leaves.trans {c c' c'' : Controller σ} {p : String} (h : c.Leaves c' p)
    (h' : c'.Leaves c'' p) : c.Leaves c'' p :=
  ⟨h'.record.trans h.record, h'.edges.trans h.edges⟩

/-- Edges that were there before, or belong to files with sketches. -/
theorem Backed.of_mem {c c' : Controller σ} (h : c.Backed)
    (hmem : ∀ {o e}, o ≠ settingsFile → e ∈ c'.table.edgesOf o →
      e ∈ c.table.edgesOf o ∨ (c.collection? o).isSome = true)
    (hcol : ∀ {o e}, o ≠ settingsFile → e ∈ c'.table.edgesOf o →
      (c.collection? o).isSome = true → (c'.collection? o).isSome = true) : c'.Backed := by
  intro o ho hne
  obtain ⟨e, he⟩ := List.exists_mem_of_ne_nil _ hne
  refine hcol ho he ((hmem ho he).elim (fun he => ?_) id)
  exact h o ho (List.ne_nil_of_mem he)

theorem IsNew.backed {c : Controller σ} (h : c.IsNew) : c.Backed := by
  intro o _ hne
  rw [h.table] at hne
  exact absurd rfl hne

end Controller

open Controller (Leaves)

/-- Nothing changes in an outdated record without sketches. -/
theorem FileRecord.Sensible.outdated_eq {x : FileRecord} (h : x.Sensible)
    (hs : x.sketches = none) : x.outdated = x := by
  unfold FileRecord.outdated
  split
  · rfl
  · next hne =>
    have hstale : x.state = .stale := (h.bare hs).resolve_left (by simpa using hne)
    rw [← hstale]

namespace Run

variable {due : List SourceFile} {r r' : Run σ} {p : String}

/-- The run has no reason to touch a file: no failure names it, and if it is queued then there is
nothing to resolve. -/
structure Spares (r : Run σ) (p : String) : Prop where
  fails : ¬r.Fails p
  queued : r.affected.contains p = true → r.collection? p = none

/-! ## Steps -/

theorem Step.isSome_collection? (hs : Step names due r r')
    (h : (r.collection? p).isSome = true) : (r'.collection? p).isSome = true := by
  rcases hs.collection? p with heq | ⟨c, summary, hc, rfl⟩
  · rwa [heq]
  · obtain ⟨n, -, -, hcol⟩ := hc.collection?
    rw [hcol]
    rfl

theorem Steps.isSome_collection? (hs : Steps names due r r')
    (h : (r.collection? p).isSome = true) : (r'.collection? p).isSome = true := by
  induction hs with
  | refl => exact h
  | tail _ hstep ih => exact hstep.isSome_collection? ih

/-- What a step spares was spared before. -/
theorem Step.spares (hs : Step names due r r') (h : r'.Spares p) : r.Spares p := by
  refine ⟨fun hf => h.fails (hs.stays.fails hf), fun ha => ?_⟩
  have hnone := h.queued (hs.stays.affected p ha)
  by_contra hsome
  have := hs.isSome_collection? (Option.isSome_iff_ne_none.2 hsome)
  rw [hnone] at this
  cases this

/-- A step adds edges only to files with sketches. -/
theorem Step.mem_edgesOf (hs : Step names due r r') (h : r.Covered names due)
    (hp : p ≠ settingsFile) {e : Edge} (he : e ∈ r'.table.edgesOf p) :
    e ∈ r.table.edgesOf p ∨ (r.collection? p).isSome = true := by
  cases hs with
  | records hs => exact .inl (hs.same.edges.edgesOf p ▸ he)
  | commit hs => exact .inl ((hs.update h).mem_edgesOf he)
  | @edges path edges hs =>
    rw [hs.rewires.edgesOf] at he
    split at he
    · next heq =>
      subst heq
      have hsome := hs.recorded hp (List.ne_nil_of_mem he)
      rw [Controller.get?_sketches_eq_map, Option.isSome_map] at hsome
      exact .inr hsome
    · exact .inl he
  | learn hs => exact .inl (hs.taught.edges.edgesOf p ▸ he)
  | adopt hs =>
    obtain ⟨summary, ht⟩ := hs.table
    exact .inl ((Table.commitFile_update h.table h.counted (by decide)
      (settingsSymbol_usesNames h.settings) ht).mem_edgesOf he)
  | retire hs =>
    rw [hs.table] at he
    exact .inl ((Table.removeFile_update h.table h.counted settingsFile).1.mem_edgesOf he)
  | prune hs =>
    obtain ⟨hedges, -⟩ := Table.pruneExternals_spec fun hs => (h.table.symbol hs).1
    rw [hs.table, hedges.edgesOf] at he
    exact .inl he

theorem Step.backed (hs : Step names due r r') (h : r.Covered names due) (hb : r.Backed) :
    r'.Backed :=
  hb.of_mem (fun ho he => hs.mem_edgesOf h ho he) fun _ _ hsome =>
    hs.isSome_collection? hsome

/-- The record of a file that is spared is not revised. -/
theorem Revises.eq_of_spares {o : Option FileRecord} {x : FileRecord} (h : r.Revises due p o x)
    (hp : p ≠ settingsFile) (hs : r.Spares p) (hx : r.records.get? p = some x)
    (ho : ∀ y, o = some y → y.Sensible) : o = some x := by
  have hbare (hq : r.affected.contains p = true) : x.sketches = none := by
    have hnone := hs.queued hq
    rw [Controller.collection?, hx] at hnone
    exact Option.map_eq_none_iff.1 hnone
  cases h with
  | @state y s turns =>
    cases turns hp with
    | same => rfl
    | stale reason failed =>
      have hstale := ((ho y rfl).bare (hbare (reason.resolve_right hs.fails))).resolve_left failed
      rw [← hstale]
    | ready queued sketches =>
      rw [show y.sketches = none from hbare queued] at sketches
      cases sketches
    | failed reason => exact absurd reason hs.fails
  | first _ _ _ reason => exact absurd reason hs.fails

theorem get?_records_of_revised
    (hrev : ∀ {p x}, r'.records.get? p = some x → r'.Revises due p (r.records.get? p) x)
    (hkept : r.records.contains p = true → r'.records.contains p = true) (hp : p ≠ settingsFile)
    (hs : r'.Spares p) (hsens : r.Sensible) : r'.records.get? p = r.records.get? p := by
  cases hx : r'.records.get? p with
  | some x => exact ((hrev hx).eq_of_spares hp hs hx fun y => hsens p y hp).symm
  | none =>
    refine (contains_eq_false_iff.1 (Bool.eq_false_iff.2 fun hc => ?_)).symm
    have := hkept hc
    rw [contains, hx] at this
    cases this

/-- An update of another file leaves a file alone that is not queued for its sketches. -/
theorem leaves_of_update {file : String} {fresh : String → Prop} {removed : IdSet}
    {stale : StringSet} (h : r.Orderly names) (hsens : r.Sensible) (hb : r.Backed)
    (hup : Table.Update names file fresh removed stale r.table r'.table) (hp : p ≠ settingsFile)
    (hpf : p ≠ file) (hrec : r'.records.get? p = if p ∈ stale.toList ∧ p ≠ settingsFile then
      (r.records.get? p).map FileRecord.outdated else r.records.get? p)
    (hbare : p ∈ stale.toList → r.records.contains p = true → r.collection? p = none) :
    r.Leaves r'.toController p := by
  by_cases hstale : p ∈ stale.toList
  · rw [if_pos ⟨hstale, hp⟩] at hrec
    constructor
    · rw [hrec]
      cases hx : r.records.get? p with
      | none => rfl
      | some x =>
        have hnone := hbare hstale (contains_of_get? hx)
        rw [Controller.collection?, hx] at hnone
        rw [Option.map_some, (hsens p x hp hx).outdated_eq (Option.map_eq_none_iff.1 hnone)]
    · -- a file without sketches has no edge to lose
      have hnil : r.table.edgesOf p = [] := by
        by_contra hne
        have hsome := hb p hp hne
        rw [hbare hstale (h.recorded hp hne)] at hsome
        cases hsome
      rw [hup.edges p hpf, hnil]
      rfl
  · exact ⟨hrec.trans (if_neg fun hs => hstale hs.1), hup.edgesOf_eq hpf hstale⟩

/-- What one step does to a file that it spares. -/
theorem Step.leaves (hs : Step names due r r') (h : r.Covered names due)
    (hsteady : Plugin.Steady r.plugins r.settings.enrichment) (hown : r.OwnsNode)
    (hsens : r.Sensible) (hb : r.Backed) (hp : p ≠ settingsFile) (hsp : r'.Spares p) :
    r.Leaves r'.toController p := by
  have hbefore := hs.spares hsp
  cases hs with
  | records hs =>
    exact ⟨get?_records_of_revised hs.revised (hs.kept p) hp hsp hsens, hs.same.edges.edgesOf p⟩
  | @commit c summary hs =>
    have hpc : p ≠ c.source.path := by
      rintro rfl
      obtain ⟨n, -, -, hcol⟩ := hs.collection?
      rw [hsp.queued (hs.affected _ hs.queued)] at hcol
      cases hcol
    refine leaves_of_update h hsens hb (hs.update h) hp hpc (hs.records p hpc)
      fun hstale hc => ?_
    rw [← hs.collection?_of_ne hpc]
    exact hsp.queued ((hs.newly p).2 (.inr ⟨⟨hstale, hp⟩, hc⟩))
  | @edges path edges hs =>
    refine ⟨get?_records_of_revised hs.revised (fun hc => (hs.contains p).trans hc) hp hsp hsens,
      ?_⟩
    rw [hs.rewires.edgesOf]
    split
    · -- the file is queued, but has nothing to resolve
      next heq =>
      subst heq
      have hnone := hbefore.queued (hs.queued hp)
      have hnil : r.table.edgesOf p = [] := by
        by_contra hne
        have hsome := hb p hp hne
        rw [hnone] at hsome
        cases hsome
      rw [hnil]
      by_contra hne
      have hsome := hs.recorded hp hne
      rw [Controller.get?_sketches_eq_map, hnone] at hsome
      cases hsome
    · rfl
  | learn hs => exact ⟨by rw [hs.records], hs.taught.edges.edgesOf p⟩
  | adopt hs =>
    obtain ⟨summary, ht⟩ := hs.table
    obtain ⟨-, hstale⟩ := Table.commitFile_first hs.unknown
      (by simp [settingsSymbol, Symbol.ofFile, Symbol.ofName]) ht
    refine ⟨by rw [hs.records], (Table.commitFile_update h.table h.counted (by decide)
      (settingsSymbol_usesNames h.settings) ht).edgesOf_eq hp fun hmem => ?_⟩
    rw [StringSet.mem_toList, hstale p] at hmem
    cases hmem
  | retire hs => exact absurd hown (hs.not_ownsNode hsteady)
  | prune hs =>
    obtain ⟨hedges, -⟩ := Table.pruneExternals_spec fun hs => (h.table.symbol hs).1
    exact ⟨by rw [hs.records], by rw [hs.table, hedges.edgesOf]⟩

theorem Steps.backed (hs : Steps names due r r') (h : r.Covered names due) (hb : r.Backed) :
    r'.Backed := by
  induction hs with
  | refl => exact hb
  | tail hs hstep ih => exact hstep.backed (h.steps hs) ih

theorem Steps.leaves (hs : Steps names due r r') (h : r.Covered names due)
    (hsteady : Plugin.Steady r.plugins r.settings.enrichment)
    (hdue : ¬r.Declares → ∀ s ∈ due, s.path ≠ settingsFile) (hown : r.OwnsNode)
    (hsens : r.Sensible) (hb : r.Backed) (hp : p ≠ settingsFile) (hsp : r'.Spares p) :
    r.Spares p ∧ r.Leaves r'.toController p := by
  induction hs with
  | refl => exact ⟨hsp, .refl _ p⟩
  | tail hs hstep ih =>
    have hstays := Steps.stays hs
    obtain ⟨hspares, hleaves⟩ := ih (hstep.spares hsp)
    refine ⟨hspares, hleaves.trans (hstep.leaves (h.steps hs) ?_
      (Steps.carries h hsteady hdue hown hs).2 (Steps.sensible hs hsens) (Steps.backed hs h hb) hp
      hsp)⟩
    rwa [hstays.setup.plugins, hstays.setup.settings]

/-! ## The beginning of a run -/

theorem checkSettings_backed (h : r.Backed) (now : Timestamp) : (r.checkSettings now).Backed := by
  obtain ⟨hcol, -⟩ := checkSettings_collection? r now
  refine h.of_mem (fun _ he => .inl (checkSettings_table r now ▸ he)) fun ho _ hsome => ?_
  rwa [hcol _ ho]

theorem Removal.backed {path : String} (h : r.Orderly names) (hb : r.Backed)
    (hr : Removal path r r') : r'.Backed := by
  obtain ⟨hup, hnil, -⟩ := Table.removeFile_update h.table h.counted path
  rw [← hr.table] at hup hnil
  refine hb.of_mem (fun _ he => .inl (hup.mem_edgesOf he)) fun {o e} ho he hsome => ?_
  rw [hr.collection?, if_neg]
  · exact hsome
  · rintro rfl
    rw [hnil] at he
    cases he

/-- Changed settings queue every file with sketches, and leave the others alone. -/
theorem checkSettings_leaves (hp : p ≠ settingsFile) (now : Timestamp)
    (hsp : (r.checkSettings now).Spares p) : r.Leaves (r.checkSettings now).toController p := by
  refine ⟨?_, by rw [checkSettings_table]⟩
  rcases checkSettings_cases r now with heq | ⟨paths, r₁, hpaths, hm, hr⟩
  · rw [heq]
  · refine ((hr.records p hp).trans (hm.records p)).trans (if_neg fun hmem => ?_)
    obtain ⟨x, hx, hsome⟩ := (hpaths p).1 hmem.1
    have haffected : (r.checkSettings now).affected.contains p = true := by
      rw [hr.affected]
      exact (hm.affected p).2 (.inr ⟨⟨hmem.1, hp⟩, contains_of_get? hx⟩)
    have hnone := hsp.queued haffected
    rw [(checkSettings_collection? r now).1 p hp, Controller.collection?, hx] at hnone
    rw [Option.map_eq_none_iff.1 hnone] at hsome
    cases hsome

theorem Removal.spares {path : String} (hr : Removal path r r') (hpath : p ≠ path)
    (h : r'.Spares p) : r.Spares p := by
  refine ⟨fun hf => h.fails ?_, fun ha => ?_⟩
  · rwa [Fails, hr.failures.1]
  · have hnone := h.queued ((hr.affected p).2 ⟨hpath, .inl ha⟩)
    rwa [hr.collection?, if_neg hpath] at hnone

theorem Removal.leaves {path : String} (hr : Removal path r r') (h : r.Orderly names)
    (hsens : r.Sensible) (hb : r.Backed) (hp : p ≠ settingsFile) (hpath : p ≠ path)
    (hsp : r'.Spares p) : r.Leaves r'.toController p := by
  have hup := (Table.removeFile_update h.table h.counted path).1
  rw [← hr.table] at hup
  refine leaves_of_update h hsens hb hup hp hpath ((hr.records p).trans (if_neg hpath))
    fun hstale hc => ?_
  have hnone := hsp.queued ((hr.affected p).2 ⟨hpath, .inr ⟨⟨hstale, hp⟩, hc⟩⟩)
  rwa [hr.collection?, if_neg hpath] at hnone

theorem Examined.spares {s : SourceFile} (he : Examined s r r') (h : r'.Spares p) : r.Spares p := by
  refine ⟨fun hf => h.fails ?_, fun ha => ?_⟩
  · rwa [Fails, he.failures.1]
  · have hnone := h.queued ((he.affected p).2 (.inl ha))
    rwa [he.controller] at hnone

end Run

namespace Controller

variable {c c' : Controller σ} {k : Conditions} {changes : List FileChange} {full : Bool}
  {p : String}

theorem begun_backed (hc : c.Orderly names) (h : c.Backed) (k : Conditions)
    (changes : List FileChange) (full : Bool) : (c.begun k changes full).1.Backed := by
  exact Run.takeChanges_keeps (J := Backed)
    (Run.checkSettings_orderly (Run.start_orderly hc full) k.now) changes
    (Run.checkSettings_backed (r := Run.start c full) h k.now) fun _ _ _ hc h hr => hr.backed hc h

/-- What a run that takes in the changes does to a file that it spares and does not remove. -/
theorem begun_leaves (hc : c.Orderly names) (hsens : c.Sensible) (hb : c.Backed)
    (hp : p ≠ settingsFile) (hsp : (c.begun k changes full).1.Spares p)
    (hrem : p ∉ (c.begun k changes full).1.removed) :
    c.Leaves (c.begun k changes full).1.toController p := by
  refine (Run.takeChanges_induct (I := fun r => r.Orderly names ∧ r.Sensible ∧ r.Backed ∧
      (r.Spares p → p ∉ r.removed → c.Leaves r.toController p)) changes
    ⟨Run.checkSettings_orderly (Run.start_orderly hc full) k.now,
      Run.checkSettings_sensible (r := Run.start c full) hsens k.now,
      Run.checkSettings_backed (r := Run.start c full) hb k.now, fun hsp _ => ?_⟩
    (fun r r' path ⟨hc, hsens, hb, h⟩ hr => ?_)
    fun r r' s ⟨hc, hsens, hb, h⟩ he => ?_).2.2.2 hsp hrem
  · have hstart := Run.checkSettings_leaves (r := Run.start c full) hp k.now hsp
    exact ⟨hstart.record, hstart.edges⟩
  · refine ⟨hr.orderly hc, hr.sensible hsens, hr.backed hc hb, fun hsp hrem => ?_⟩
    rw [hr.removed, List.mem_append, List.mem_singleton, not_or] at hrem
    exact (h (hr.spares hrem.2 hsp) hrem.1).trans (hr.leaves hc hsens hb hp hrem.2 hsp)
  · rw [he.controller, he.removed]
    exact ⟨hc, hsens, hb, fun hsp => h (he.spares hsp)⟩

end Controller

/-! ## The end of a run -/

namespace Run

variable [Sink σ] {r : Run σ} {p : String}

/-- The report names the finished files. -/
theorem mem_resolved_deliver (now : Timestamp) (finished : List String) (r : Run σ) :
    p ∈ (r.deliver now finished).1.resolved ↔ p ∈ finished ∧ p ≠ settingsFile := by
  simp [deliver, conclude]

theorem deliver_leaves (hf : r.Forgets) (now : Timestamp) {finished : List String}
    (hfin : p ∉ finished) (hrem : p ∉ r.removed) : r.Leaves (r.deliver now finished).2 p := by
  refine ⟨?_, (deliver_offers now finished r).table.edges.edgesOf p⟩
  rcases deliver_records now finished hf p with heq | ⟨hmem, -⟩ | ⟨hmem, -⟩
  · exact heq
  · exact absurd hmem hfin
  · exact absurd hmem hrem

theorem deliver_backed (h : r.Backed) (hf : r.Forgets) (now : Timestamp)
    (finished : List String) : (r.deliver now finished).2.Backed := by
  have hedges := (deliver_offers now finished r).table.edges
  refine h.of_mem (fun _ he => .inl (hedges.edgesOf _ ▸ he)) fun _ _ hsome => ?_
  rwa [deliver_collection? hf]

end Run

namespace Controller

section

variable [Sink σ] {c c' c₀ : Controller σ} {k : Conditions} {changes : List FileChange}
  {full : Bool} {finished : List String} {r : Run σ} {report : RunReport} {p : String}

theorem Ran.backed (hc : c.Orderly names) (hw : c.Within names k changes full) (h : c.Backed)
    (hran : Ran names k changes full c finished r report c') : c'.Backed := by
  have hr := Run.Steps.backed hran.worked.steps (hw.covered hc)
    (begun_backed hc h k changes full)
  exact hran.deliver_eq ▸ Run.deliver_backed hr hran.forgets k.now finished

/-- What a run leaves alone needs of a project between runs. -/
structure Framed (c : Controller σ) : Prop where
  sensible : c.Sensible
  backed : c.Backed
  ownsNode : c.OwnsNode

theorem Reaches.framed {Q : σ → σ → Prop} (hnew : c₀.IsNew)
    (hsteady : Plugin.Steady c₀.plugins c₀.settings.enrichment)
    (h : Reaches names Unclaimed Q c₀ c) : c.Framed := by
  refine h.induct (I := Framed) hnew.orderly ⟨hnew.sensible, hnew.backed, fun hfile => ?_⟩
    (fun {c c' k changes full finished r report} hc hsame hw hun h hran => ?_)
    fun _ h => ⟨h.sensible, h.backed, h.ownsNode⟩
  · rw [hnew.table] at hfile
    cases hfile
  · have hsteady : Plugin.Steady c.plugins c.settings.enrichment := by
      rwa [hsame.plugins, hsame.settings]
    obtain ⟨-, hown⟩ := hran.carries hc hw hsteady hun h.ownsNode
    have hoffers := hran.offers
    refine ⟨hran.sensible h.sensible, hran.backed hc hw h.backed, fun hfile => ?_⟩
    rw [Declares, hoffers.plugins, hoffers.settings]
    refine hown ?_
    rwa [Table.containsFile, contains, hoffers.table.symbols.files] at hfile

theorem Ran.not_mem_finished (hran : Ran names k changes full c finished r report c')
    (hp : p ≠ settingsFile) (hres : p ∉ report.resolved) : p ∉ finished := by
  intro hmem
  have hdel : (r.deliver k.now finished).1 = report := congrArg Prod.fst hran.delivered
  exact hres (hdel ▸ (Run.mem_resolved_deliver k.now finished r).2 ⟨hmem, hp⟩)

/-- A file that the report does not name is spared. -/
theorem Ran.spares (hran : Ran names k changes full c finished r report c')
    (hcancelled : report.cancelled = false) (hp : p ≠ settingsFile) (hres : p ∉ report.resolved)
    (hfail : ∀ f ∈ report.failures, f.path ≠ p) : r.Spares p := by
  have hoffers := hran.offers
  have hfails : ¬r.Fails p := by
    rintro ⟨f, hf, hpath⟩
    exact hfail f (hoffers.failures ▸ hf) hpath
  refine ⟨hfails, fun ha => ?_⟩
  by_contra hsome
  have hsk : (r.sketches.get? p).isSome = true := by
    rwa [get?_sketches_eq_map, Option.isSome_map, Option.isSome_iff_ne_none]
  rcases hran.worked.settled p ha hsk with hmem | hf | hc
  · exact hran.not_mem_finished hp hres hmem
  · exact hfails hf.fails
  · rw [← hoffers.reportCancelled, hcancelled] at hc
    cases hc

theorem Ran.leaves (hc : c.Orderly names) (hw : c.Within names k changes full)
    (hsteady : Plugin.Steady c.plugins c.settings.enrichment)
    (hun : Unclaimed k changes full c report) (h : c.Framed)
    (hran : Ran names k changes full c finished r report c')
    (hcancelled : report.cancelled = false) (hp : p ≠ settingsFile) (hres : p ∉ report.resolved)
    (hfail : ∀ f ∈ report.failures, f.path ≠ p)
    (hrem : p ∉ (c.begun k changes full).1.removed) : c.Leaves c' p := by
  have hsetup := begun_setup hc k changes full
  obtain ⟨hspares, hleaves⟩ := Run.Steps.leaves hran.worked.steps (hw.covered hc)
    (by rwa [hsetup.plugins, hsetup.settings])
    (fun hd s hs => hun (hd ∘ (begun_declares hc k changes full).2) s (Run.takeChanges_due hs).2)
    (begun_ownsNode hc h.ownsNode k changes full) (begun_sensible h.sensible k changes full)
    (begun_backed hc h.backed k changes full) hp (hran.spares hcancelled hp hres hfail)
  have hdelivered : r.Leaves c' p := by
    refine hran.deliver_eq ▸ Run.deliver_leaves hran.forgets k.now (hran.not_mem_finished hp hres) ?_
    rwa [(Run.Steps.stays hran.worked.steps).removed]
  exact ((begun_leaves hc h.sensible h.backed hp hspares hrem).trans hleaves).trans hdelivered

end

/-- A run that is not cancelled touches nothing outside its report: a file other than the settings
that it neither resolved nor removed, and that no failure names, has the same edges, the same record
and the same rows as before. As long as the settings declare nothing, no source stands in their
place. -/
theorem untouched_of_reaches {c₀ c c' : Controller MemoryStore}
    {Q : MemoryStore → MemoryStore → Prop} {k : Conditions} {changes : List FileChange}
    {full : Bool} {report : RunReport} (hnew : c₀.IsNew)
    (hsteady : Plugin.Steady c₀.plugins c₀.settings.enrichment)
    (h : Reaches Set.univ Unclaimed Q c₀ c) (hun : Unclaimed k changes full c report)
    (hrun : c.run k changes full = .ok (report, c')) (hcancelled : report.cancelled = false) :
    ∀ p, p ≠ settingsFile → p ∉ report.resolved → (∀ f ∈ report.failures, f.path ≠ p) →
      p ∉ (c.begun k changes full).1.removed →
      c'.table.edgesOf p = c.table.edgesOf p ∧ c'.records.get? p = c.records.get? p ∧
        c'.sink.edgesOf p = c.sink.edgesOf p := by
  intro p hp hres hfail hrem
  obtain ⟨hc, hsame⟩ := h.orderly_sameKind hnew.orderly
  have hw := c.within_univ k changes full
  obtain ⟨finished, r, hran⟩ := ran_of_run hc hw hrun
  have hleaves := hran.leaves hc hw (by rwa [hsame.plugins, hsame.settings]) hun
    (h.framed hnew hsteady) hcancelled hp hres hfail hrem
  refine ⟨hleaves.edges, hleaves.record, ?_⟩
  obtain ⟨taken, refused, hdel⟩ := hran.delivered_groups
  have hrows := MemoryStore.hasRows_iff.1 (hdel.rows (MemoryStore.hasRows_iff.2 (.refl r.sink)))
  have hstays := Run.Steps.stays hran.worked.steps
  have hsink : r.sink = c.sink := hstays.setup.sink.trans (begun_setup hc k changes full).sink
  have hfiles : p ∉ taken.flatMap (·.files) := fun hmem =>
    hran.not_mem_finished hp hres (hdel.sublist.subset hmem)
  have hremoved : p ∉ taken.flatMap (·.removed) := fun hmem =>
    hrem (hstays.removed ▸ (hdel.removed p).2 (.inl hmem))
  rw [hrows.edgesOf, Table.edgesOf_rowsAfter hran.orderly.owned hfiles, if_neg hremoved, hsink]

/-- A file that refers to itself, and one that refers to it. -/
def following : Controller MemoryStore :=
  ofSketches [.extending "a.go" "a.go", .extending "b.go" "a.go"]

theorem runs_following : ∃ x, following.run {} [.seen "a.go"] false = .ok x ∧
    (x.2.table.edgesOf "a.go").length = 1 ∧ (x.2.begun {} [.seen "b.go"] false).1.removed = [] ∧
    ∃ y, x.2.run {} [.seen "b.go"] false = .ok y ∧
      y.1.resolved = ["b.go"] ∧ y.1.failures = [] ∧ y.1.cancelled = false := by
  decide +kernel

/-- A run that collects the second file leaves the first one alone. -/
theorem untouched_of_reaches_following : ∃ c c' report,
    Reaches Set.univ Unclaimed (fun _ _ => True) following c ∧
    c.run {} [.seen "b.go"] false = .ok (report, c') ∧ report.resolved = ["b.go"] ∧
    (c.table.edgesOf "a.go").length = 1 ∧ c'.table.edgesOf "a.go" = c.table.edgesOf "a.go" ∧
      c'.records.get? "a.go" = c.records.get? "a.go" ∧
      c'.sink.edgesOf "a.go" = c.sink.edgesOf "a.go" := by
  obtain ⟨⟨report, c⟩, hrun, hedges, hremoved, ⟨report', c'⟩, hrun', hresolved, hfailures,
    hcancelled⟩ := runs_following
  have hreach : Reaches Set.univ Unclaimed (fun _ _ => True) following c :=
    .run .start (within_univ ..) (fun _ => by decide) hrun
  refine ⟨c, c', report', hreach, hrun', hresolved, hedges, ?_⟩
  refine untouched_of_reaches ⟨rfl, rfl, rfl⟩
    (Plugin.steady_of_subset_standard (List.Subset.refl _) _) hreach (fun _ => by decide) hrun'
    hcancelled "a.go" (by decide) ?_ ?_ ?_
  · rw [hresolved]
    decide
  · rw [hfailures]
    exact fun f hf => absurd hf List.not_mem_nil
  · rw [hremoved]
    exact List.not_mem_nil

end Controller

end CodeAtlas
