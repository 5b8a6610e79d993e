import Mathlib
import CodeAtlas.Proofs.Project.Tracking

/-!
# Steps of a run

Once the changes are taken in, all that a run does before it reaches the store is a sequence of
steps of seven kinds: records change, a file is committed, the edges of one owner change, the table
learns placeholders, the settings get or lose their node, and placeholders are forgotten. A `Step`
says what a step does and under which guard; what holds of every project is kept by every step.

Main results:

* `Covered.step`, `Covered.steps`: the order of a project is kept.
* `Step.carries`, `Steps.carries`: what a run carries over, as long as the settings keep their node.
* `Steps.sketches`: every sketch of a project was collected from an offered source.
-/

namespace CodeAtlas

open SortedMap

variable {σ : Type} {names : Set String}

/-- The table has the symbols of the snapshot, and besides them only placeholders. -/
structure Snapshot.Below (s : Snapshot) (t : Table) : Prop where
  kept : ∀ {fqn x}, s.symbols.get? fqn = some x → t.symbols.get? fqn = some x
  new : ∀ {fqn x}, t.symbols.get? fqn = some x →
    s.symbols.get? fqn = some x ∨ s.symbols.get? fqn = none ∧ x.isExternal = true

/-- Every symbol of the snapshot carries the identifier of its name. -/
def Snapshot.Named (s : Snapshot) : Prop :=
  ∀ {fqn x}, s.symbols.get? fqn = some x → x.id = .ofFqn fqn

/-- The sketches of offered files use only these names. -/
def Registry.UsesNames (names : Set String) (reg : Registry) (due : List SourceFile) : Prop :=
  ∀ s ∈ due, ∀ f, (reg.collect s).outcome = .done f → Table.UsesNames names f.assembleSymbols

/-- A finding of a pass over a file. -/
def Controller.Finds (c : Controller σ) (v : View) (f : FileSketch) (found : Finding) : Prop :=
  found ∈ v.findings f ∨ ∃ plugin ∈ c.plugins, ∃ l,
    (plugin.analyzeFile c.settings.enrichment v f).outcome = .done l ∧ found ∈ l

/-- The settings declare no edge. -/
def Plugin.Silent (plugins : List Plugin) (e : EnrichmentSettings) (v : View) : Prop :=
  ∀ plugin ∈ active plugins e, (plugin.analyzeSettings e v).edges = []

/-- Whether the settings declare an edge does not depend on the symbols of the project. -/
def Plugin.Steady (plugins : List Plugin) (e : EnrichmentSettings) : Prop :=
  ∀ v v', Silent plugins e v → Silent plugins e v'

/-- The settings declare an edge on some view. -/
def Controller.Declares (c : Controller σ) : Prop :=
  ∃ v, ¬Plugin.Silent c.plugins c.settings.enrichment v

/-- No file stands in the place of the settings, unless they declare an edge. -/
def Controller.OwnsNode (c : Controller σ) : Prop :=
  c.table.containsFile settingsFile = true → c.Declares

namespace Run

variable {p : String} {c : Collected} {summary : CommitSummary}

/-! ## Kinds of steps -/

/-- Nothing failed so far, and nothing was cancelled. -/
def Calm (r : Run σ) : Prop := r.report.failures = [] ∧ r.report.cancelled = false

/-- A failure of the run names the file. -/
def Fails (r : Run σ) (p : String) : Prop := ∃ f ∈ r.report.failures, f.path = p

/-- The second or the third pass failed on the file. -/
def Stalls (r : Run σ) (p : String) : Prop :=
  ∃ f ∈ r.report.failures, f.path = p ∧ f.pass ≠ .collect

/-- What every step leaves alone or only extends. -/
structure Stays (due : List SourceFile) (r r' : Run σ) : Prop where
  setup : r.SameSetup r'.toController
  removed : r'.removed = r.removed
  forgotten : r'.forgotten = r.forgotten
  seq : r.seq ≤ r'.seq
  affected : ∀ p, r.affected.contains p = true → r'.affected.contains p = true
  settings : r.settingsAffected = true → r'.settingsAffected = true
  /-- The settings file is queued like a source only if it is offered as one. -/
  own : r'.affected.contains settingsFile = true →
    r.affected.contains settingsFile = true ∨ ∃ s ∈ due, s.path = settingsFile
  failures : r.report.failures <+: r'.report.failures
  cancelled : r.report.cancelled = true → r'.report.cancelled = true

/-- Why a file whose record is `x` comes to a state without a new collection. -/
inductive Turns (r : Run σ) (p : String) (x : FileRecord) : FileState → Prop
  | same : Turns r p x x.state
  | stale (reason : r.affected.contains p = true ∨ r.Fails p) (failed : x.state ≠ .failed) :
      Turns r p x .stale
  | ready (queued : r.affected.contains p = true) (sketches : x.sketches.isSome = true)
      (failed : x.state ≠ .failed) : Turns r p x .collected
  | failed (reason : r.Fails p) : Turns r p x .failed

/-- How the record of a file may change without a new collection: in its state, or it is the first
one, of a file whose collection failed. -/
inductive Revises (due : List SourceFile) (r : Run σ) (p : String) :
    Option FileRecord → FileRecord → Prop
  | state {x : FileRecord} {s : FileState} (turns : p ≠ settingsFile → r.Turns p x s) :
      Revises due r p (some x) { x with state := s }
  | first {x : FileRecord} (path : x.path = p) (bare : x.sketches = none)
      (failed : x.state = .failed) (reason : r.Fails p) (offered : ∃ s ∈ due, s.path = p) :
      Revises due r p none x

/-- Records change; no file becomes resolved. -/
structure RecordsStep (due : List SourceFile) (r r' : Run σ) : Prop extends Stays due r r' where
  same : r.table.SameGraph r'.table
  droppedIds : r'.droppedIds = r.droppedIds
  revised : ∀ {p x}, r'.records.get? p = some x → r'.Revises due p (r.records.get? p) x
  kept : ∀ p, r.records.contains p = true → r'.records.contains p = true

/-- A collected file without edges is committed; no edge targets a symbol that it defines. -/
structure CommitStep (due : List SourceFile) (c : Collected) (summary : CommitSummary)
    (r r' : Run σ) : Prop extends Stays due r r' where
  offered : c.source ∈ due
  collected : (r.registry.collect c.source).outcome = .done c.sketches
  table : ∃ t, r.table.commitFile c.source.path c.symbols = (.ok summary, t) ∧
    t.SameGraph r'.table
  untargeted : ∀ o, ∀ e ∈ r.table.edgesOf o, ∀ s ∈ c.symbols, e.target ≠ s.id
  blank : r.table.edgesOf c.source.path = []
  records : ∀ p, p ≠ c.source.path → r'.records.get? p =
    if p ∈ summary.stale.toList ∧ p ≠ settingsFile then (r.records.get? p).map FileRecord.outdated
    else r.records.get? p
  record : ∃ x, r'.records.get? c.source.path = some x ∧ x.path = c.source.path ∧
    x.fingerprint = c.source.fingerprint ∧ x.state = .collected ∧ x.sketches = some c.sketches ∧
    r.seq < x.seq ∧ x.seq ≤ r'.seq
  dropped : ∀ id, r'.droppedIds.contains id = true ↔
    r.droppedIds.contains id = true ∨ summary.removed.contains id = true
  asks : c.source.path = settingsFile ∨ settingsFile ∈ summary.stale.toList → r'.AsksSettings
  queued : r.affected.contains c.source.path = true
  newly : ∀ p, r'.affected.contains p = true ↔ r.affected.contains p = true ∨
    (p ∈ summary.stale.toList ∧ p ≠ settingsFile) ∧ r.records.contains p = true

/-- An edge that a pass found: on a view of which the table knows at most more placeholders. -/
def Traced (r : Run σ) (e : Edge) : Prop :=
  ∃ (v : View) (f : FileSketch) (found : Finding), found.edge = e ∧ v.snapshot.Below r.table ∧
    (∃ p, r.sketches.get? p = some f) ∧
    (∀ s, found.placeholder = some s → r.table.symbols.contains s.fqn = true) ∧ r.Finds v f found

/-- An edge that the settings declare, while they have a node. -/
def Declared (r : Run σ) (e : Edge) : Prop :=
  r.table.containsFile settingsFile = true ∧ ∃ v : View, v.snapshot.Named ∧
    ∃ plugin ∈ Plugin.active r.plugins r.settings.enrichment,
      e ∈ (plugin.analyzeSettings r.settings.enrichment v).edges

/-- The edges of one owner change, a file that is not resolved or the settings. -/
structure EdgesStep (due : List SourceFile) (path : String) (edges : List Edge)
    (r r' : Run σ) : Prop extends Stays due r r' where
  rewires : Table.Rewires path edges r.table r'.table
  droppedIds : r'.droppedIds = r.droppedIds
  owned : ∀ e ∈ edges, e.owner = path
  origin : ∀ e ∈ edges, e ∈ r.table.edgesOf path ∨ r.Traced e ∨ r.Declared e
  targets : ∀ e ∈ edges, e ∈ r.table.edgesOf path ∨ r.table.ids.contains e.target = true
  queued : path ≠ settingsFile → r.affected.contains path = true
  recorded : path ≠ settingsFile → edges ≠ [] → (r.sketches.get? path).isSome = true
  revised : ∀ {p x}, r'.records.get? p = some x → r'.Revises due p (r.records.get? p) x
  unresolved : path ≠ settingsFile → ∀ x, r'.records.get? path = some x → x.state ≠ .resolved
  others : ∀ p, p ≠ path → r'.records.get? p = r.records.get? p
  contains : ∀ p, r'.records.contains p = r.records.contains p
  asks : path = settingsFile → r'.AsksSettings

/-- The table learns placeholders. -/
structure LearnStep (names : Set String) (due : List SourceFile) (r r' : Run σ) : Prop
    extends Stays due r r' where
  taught : r.table.Taught r'.table
  known : ∀ fqn, r'.table.symbols.contains fqn = true → fqn ∈ names
  droppedIds : r'.droppedIds = r.droppedIds
  records : r'.records = r.records

/-- The settings get a node, since they declare an edge. -/
structure AdoptStep (due : List SourceFile) (r r' : Run σ) : Prop extends Stays due r r' where
  declared : ∃ v, ¬Plugin.Silent r.plugins r.settings.enrichment v
  unknown : r.table.files.get? settingsFile = none
  table : ∃ summary, r.table.commitFile settingsFile [settingsSymbol] = (.ok summary, r'.table)
  droppedIds : r'.droppedIds = r.droppedIds
  records : r'.records = r.records
  asked : r.settingsAffected = true

/-- The settings lose their node, since on some view they declare no edge. -/
structure RetireStep (due : List SourceFile) (r r' : Run σ) : Prop extends Stays due r r' where
  undeclared : ∃ v, Plugin.Silent r.plugins r.settings.enrichment v
  table : r'.table = (r.table.removeFile settingsFile).2
  known : r.table.containsFile settingsFile = true
  records : r'.records = r.records
  dropped : ∀ id, r'.droppedIds.contains id = true ↔
    r.droppedIds.contains id = true ∨
      (r.table.removeFile settingsFile).1.removed.contains id = true

/-- The table forgets the placeholders that no edge targets. -/
structure PruneStep (due : List SourceFile) (r r' : Run σ) : Prop extends Stays due r r' where
  table : r'.table = r.table.pruneExternals.2
  records : r'.records = r.records
  dropped : ∀ id, r'.droppedIds.contains id = true ↔
    r.droppedIds.contains id = true ∨ r.table.pruneExternals.1.contains id = true

/-- One step of a run between the changes and the store. -/
inductive Step (names : Set String) (due : List SourceFile) (r r' : Run σ) : Prop
  | records (h : RecordsStep due r r')
  | commit {c : Collected} {summary : CommitSummary} (h : CommitStep due c summary r r')
  | edges {path : String} {edges : List Edge} (h : EdgesStep due path edges r r')
  | learn (h : LearnStep names due r r')
  | adopt (h : AdoptStep due r r')
  | retire (h : RetireStep due r r')
  | prune (h : PruneStep due r r')

/-- Step after step. -/
abbrev Steps (names : Set String) (due : List SourceFile) (r r' : Run σ) : Prop :=
  Relation.ReflTransGen (Step names due) r r'

/-- An orderly project whose names cover the offered sources and the settings. -/
structure Covered (names : Set String) (due : List SourceFile) (r : Run σ) : Prop
    extends Controller.Orderly names r.toController where
  sources : r.registry.UsesNames names due
  settings : settingsFile ∈ names

variable {due : List SourceFile} {r r' : Run σ}

instance : CoeOut (r.Covered names due) (r.Orderly names) := ⟨Covered.toOrderly⟩

theorem Stays.asksSettings (h : Stays due r r') (ha : r.AsksSettings) : r'.AsksSettings :=
  ha.imp h.settings (h.affected _)

theorem Stays.fails (h : Stays due r r') (hf : r.Fails p) : r'.Fails p := by
  obtain ⟨f, hmem, hp⟩ := hf
  exact ⟨f, h.failures.subset hmem, hp⟩

theorem Stays.stalls (h : Stays due r r') (hs : r.Stalls p) : r'.Stalls p := by
  obtain ⟨f, hmem, hp⟩ := hs
  exact ⟨f, h.failures.subset hmem, hp⟩

theorem Stalls.fails (h : r.Stalls p) : r.Fails p := by
  obtain ⟨f, hmem, hp, -⟩ := h
  exact ⟨f, hmem, hp⟩

theorem Stays.calm (h : Stays due r r') (hc : r'.Calm) : r.Calm := by
  refine ⟨List.prefix_nil.1 (hc.1 ▸ h.failures), Bool.eq_false_iff.2 fun ht => ?_⟩
  cases (h.cancelled ht).symm.trans hc.2

theorem Calm.not_fails (h : r.Calm) (p : String) : ¬r.Fails p := by
  rintro ⟨f, hf, -⟩
  rw [h.1] at hf
  cases hf

/-- A part of a run that leaves alone what concerns all steps. -/
theorem Stays.of_eq (hsetup : r.SameSetup r'.toController)
    (h : (r'.removed, r'.forgotten, r'.seq, r'.affected, r'.settingsAffected, r'.report.failures,
      r'.report.cancelled) = (r.removed, r.forgotten, r.seq, r.affected, r.settingsAffected,
      r.report.failures, r.report.cancelled)) : Stays due r r' := by
  simp only [Prod.mk.injEq] at h
  obtain ⟨hrem, hforg, hseq, haff, hset, hfail, hcan⟩ := h
  exact ⟨hsetup, hrem, hforg, hseq.ge, fun p hp => haff ▸ hp, fun hs => hset ▸ hs,
    fun ho => .inl (haff ▸ ho), hfail ▸ List.prefix_rfl, fun hc => hcan ▸ hc⟩

/-! ## Revised records -/

namespace Revises

variable {p : String} {o : Option FileRecord} {x : FileRecord}

theorem refl (due : List SourceFile) (r : Run σ) (p : String) (x : FileRecord) :
    r.Revises due p (some x) x :=
  .state (s := x.state) fun _ => .same

theorem of_get? {m : SortedMap String FileRecord} (h : m.get? p = some x) :
    r.Revises due p (m.get? p) x :=
  h ▸ .refl due r p x

section

variable (h : r.Revises due p o x)

include h

/-- No revision makes a file resolved. -/
theorem resolved (hp : p ≠ settingsFile) (hr : x.state = .resolved) : o = some x := by
  cases h with
  | @state y s turns =>
    cases turns hp with
    | same => rfl
    | stale => cases hr
    | ready => cases hr
    | failed => cases hr
  | first _ _ failed =>
    rw [failed] at hr
    cases hr

theorem ok (ho : ∀ y, o = some y → y.Ok p) : x.Ok p := by
  have hresolved : x.state = .resolved → p ≠ settingsFile → x.sketches.isSome = true := fun hr hp =>
    (ho x (h.resolved hp hr)).resolved hr hp
  cases h with
  | @state y s turns => exact ⟨(ho y rfl).path_eq, (ho y rfl).sketches, hresolved⟩
  | first path bare failed => exact ⟨path, fun hf => (by cases bare.symm.trans hf), hresolved⟩

theorem collection? : x.collection? = o.bind FileRecord.collection? := by
  cases h with
  | state => rfl
  | first _ bare => simp [FileRecord.collection?, bare]

theorem created : o.isSome = true ∨ ∃ s ∈ due, s.path = p := by
  cases h with
  | state => exact .inl rfl
  | first _ _ _ _ offered => exact .inr offered

end

end Revises

/-- What only revises records keeps the collections. -/
theorem collection?_of_revised
    (hrev : ∀ {p x}, r'.records.get? p = some x → r'.Revises due p (r.records.get? p) x)
    (hkept : ∀ p, r.records.contains p = true → r'.records.contains p = true) (p : String) :
    r'.collection? p = r.collection? p := by
  rw [Controller.collection?, Controller.collection?]
  cases hx : r'.records.get? p with
  | some x => exact (hrev hx).collection?
  | none =>
    have hnone : r.records.get? p = none := by
      refine contains_eq_false_iff.1 (Bool.eq_false_iff.2 fun hc => ?_)
      have := hkept p hc
      rw [contains, hx] at this
      cases this
    rw [hnone]

theorem RecordsStep.collection? (hs : RecordsStep due r r') (p : String) :
    r'.collection? p = r.collection? p :=
  collection?_of_revised hs.revised hs.kept p

theorem EdgesStep.collection? {path : String} {edges : List Edge}
    (hs : EdgesStep due path edges r r') (p : String) : r'.collection? p = r.collection? p :=
  collection?_of_revised hs.revised (fun q hc => (hs.contains q).trans hc) p

section

variable (hs : CommitStep due c summary r r')

include hs

theorem CommitStep.collection?_of_ne (hp : p ≠ c.source.path) :
    r'.collection? p = r.collection? p := by
  rw [Controller.collection?, Controller.collection?, hs.records p hp]
  split <;> cases r.records.get? p <;> simp

theorem CommitStep.collection? : ∃ n, r.seq < n ∧ n ≤ r'.seq ∧
      r'.collection? c.source.path = some ⟨n, c.source.fingerprint, c.sketches⟩ := by
  obtain ⟨x, hx, -, hprint, -, hsk, hlt, hle⟩ := hs.record
  refine ⟨x.seq, hlt, hle, ?_⟩
  rw [Controller.collection?, hx]
  simp [FileRecord.collection?, hsk, hprint]

/-! ## Each kind of step -/

omit hs in
theorem RecordsStep.carries (hs : RecordsStep due r r') (h : r.Orderly names) :
    r'.Orderly names ∧ Carries (fun p => ∃ s ∈ due, s.path = p) r r' := by
  refine carries_of_records h hs.setup hs.same hs.droppedIds (fun p => ?_) (fun p _ => hs.kept p)
    (fun p _ hc => ?_) hs.toStays.asksSettings
  · by_cases hkeep : r'.records.get? p = r.records.get? p
    · exact .inl hkeep
    · refine .inr fun x hx => ⟨(hs.revised hx).ok fun y hy => h.record hy, fun hp hr => hkeep ?_⟩
      rw [hx, (hs.revised hx).resolved hp hr]
  · obtain ⟨x, hx⟩ := contains_iff.1 hc
    exact (hs.revised hx).created

/-- Who commits a sketch is the file that the sketch is about. -/
theorem CommitStep.path : c.sketches.path = c.source.path ∧ c.source.path ≠ "" := by
  obtain ⟨t, ht, -⟩ := hs.table
  obtain ⟨hne, hfile, -⟩ := Table.commitFile_admits ht
    (show c.sketches.fileSymbol ∈ c.symbols from List.mem_cons_self ..)
  have hpath : c.sketches.path = c.source.path := hfile
  exact ⟨hpath, hpath ▸ hne⟩

theorem CommitStep.update (h : r.Covered names due) :
    Table.Update names c.source.path (fun g => g ∈ c.symbols.map (·.fqn)) summary.removed
      summary.stale r.table r'.table := by
  obtain ⟨t, ht, hsame⟩ := hs.table
  have hup := Table.commitFile_update h.table h.counted hs.path.2
    (h.sources _ hs.offered _ hs.collected) ht
  have hedges : ∀ o, r'.table.edgesOf o = t.edgesOf o := hsame.edges.edgesOf
  have hsym := hsame.symbols.symbols
  exact ⟨hup.orderly.of_same hsame.symbols, hup.counted.of_same hsame.edges,
    fun p hp => by rw [hsame.symbols.files, hup.files p hp], fun hx hr => hsym ▸ hup.survives hx hr,
    fun hx => hup.foreign (hsym ▸ hx), fun o ho => (hedges o).trans (hup.edges o ho),
    fun e he => hup.own e (hedges _ ▸ he), hup.lost⟩

theorem CommitStep.carries (h : r.Covered names due) :
    r'.Orderly names ∧ Carries (fun p => ∃ s ∈ due, s.path = p) r r' := by
  obtain ⟨x, hx, hpath, -, hstate, hsk, -⟩ := hs.record
  refine carries_of_update h (hs.update h) hs.setup hs.records (fun y hy => ?_)
    (fun _ => contains_of_get? hx) (fun id hid => (hs.dropped id).2 hid)
    (fun ha => ha.elim hs.toStays.asksSettings hs.asks) fun he => ⟨_, hs.offered, he⟩
  cases hx.symm.trans hy
  refine ⟨⟨hpath, fun hf => ?_, fun hr => ?_⟩, by simp [hstate], _, hs.offered, rfl⟩
  · cases hsk.symm.trans hf
    exact hs.path
  · rw [hstate] at hr
    cases hr

end

theorem EdgesStep.carries {path : String} {edges : List Edge} (hs : EdgesStep due path edges r r')
    (h : r.Orderly names) : r'.Orderly names ∧ Carries (fun p => ∃ s ∈ due, s.path = p) r r' := by
  refine carries_of_rewires h hs.rewires hs.setup hs.droppedIds hs.owned (fun hp he => ?_) hs.others
    (fun x hx => ⟨(hs.revised hx).ok fun y hy => h.record hy, fun hp => hs.unresolved hp x hx⟩)
    hs.contains fun ha => ha.elim hs.toStays.asksSettings hs.asks
  have hsome := hs.recorded hp he
  rw [Controller.sketches, get?_filterMap] at hsome
  obtain ⟨x, hx, -⟩ := Option.bind_eq_some_iff.1 (Option.some_get hsome).symm
  exact contains_of_get? hx

theorem LearnStep.carries (hs : LearnStep names due r r') (h : r.Orderly names) :
    r'.Orderly names ∧ Carries (fun p => ∃ s ∈ due, s.path = p) r r' :=
  carries_of_taught h hs.taught hs.known hs.setup hs.droppedIds hs.records hs.toStays.asksSettings

theorem settingsSymbol_usesNames (hset : settingsFile ∈ names) :
    Table.UsesNames names [settingsSymbol] := by
  intro s hs
  rw [List.mem_singleton.1 hs]
  exact ⟨hset, fun ns hns => by cases hns⟩

theorem AdoptStep.carries (hs : AdoptStep due r r') (h : r.Covered names due) :
    r'.Orderly names ∧ Carries (fun p => ∃ s ∈ due, s.path = p) r r' := by
  obtain ⟨summary, ht⟩ := hs.table
  have hup := Table.commitFile_update h.table h.counted (by decide)
    (settingsSymbol_usesNames h.settings) ht
  obtain ⟨hremoved, hstale⟩ := Table.commitFile_first hs.unknown
    (by simp [settingsSymbol, Symbol.ofFile, Symbol.ofName]) ht
  have hrec := hs.records
  refine ⟨orderly_of_update h hup (fun hx => h.record (hrec ▸ hx)) (fun p _ _ hc => hrec ▸ hc)
    fun hne => absurd rfl hne, hs.setup,
    fun p hp => .inl ⟨by rw [hrec], ?_, hup.files p hp, fun hne => ?_⟩, fun {fqn} hk => .inl ?_,
    fun id hid => hs.droppedIds ▸ hid, fun p _ hc => .inl (hrec ▸ hc),
    hs.toStays.asksSettings, .inl (.inl (hs.settings hs.asked)),
    fun he => by cases hs.unknown.symm.trans he⟩
  · simp [hup.edges p hp, hremoved]
  · exact hup.symbolsInFile hp hne (hstale p)
  · obtain ⟨s, hs⟩ := contains_iff.1 hk
    obtain ⟨s', hs', -⟩ := hup.survives hs (hremoved _)
    exact contains_of_get? hs'

theorem RetireStep.orderly (hs : RetireStep due r r') (h : r.Orderly names) : r'.Orderly names := by
  obtain ⟨hup, -⟩ := Table.removeFile_update h.table h.counted settingsFile
  rw [← hs.table] at hup
  have hrec := hs.records
  exact orderly_of_update h hup (fun hx => h.record (hrec ▸ hx)) (fun p _ _ hc => hrec ▸ hc)
    fun hne => absurd rfl hne

/-- Steady settings that own their node keep it. -/
theorem RetireStep.not_ownsNode (hs : RetireStep due r r')
    (hsteady : Plugin.Steady r.plugins r.settings.enrichment) : ¬r.OwnsNode := by
  intro hown
  obtain ⟨v, hv⟩ := hown hs.known
  obtain ⟨v', hv'⟩ := hs.undeclared
  exact hv (hsteady v' v hv')

theorem PruneStep.carries (hs : PruneStep due r r') (h : r.Orderly names) :
    r'.Orderly names ∧ Carries (fun p => ∃ s ∈ due, s.path = p) r r' := by
  have horderly := h.table.pruneExternals
  obtain ⟨hedges, hfiles, -, -, hsym, hids⟩ :=
    Table.pruneExternals_spec fun hs => (h.table.symbol hs).1
  rw [← hs.table] at horderly hedges hfiles hsym
  have hrec := hs.records
  have hold : ∀ {fqn s}, r'.table.symbols.get? fqn = some s → r.table.symbols.get? fqn = some s := by
    intro fqn s hx
    rw [hsym] at hx
    exact (Option.filter_eq_some_iff.1 hx).1
  refine ⟨⟨horderly, h.counted.of_same hedges, fun he => h.owned (hedges.edgesOf _ ▸ he),
    fun ho he => hrec ▸ h.recorded ho (hedges.edgesOf _ ▸ he), fun hx => h.record (hrec ▸ hx)⟩,
    hs.setup, fun p _ => .inl ⟨by rw [hrec], hedges.edgesOf p, by rw [hfiles], fun hp => ?_⟩,
    fun {fqn} hk => ?_, fun id hid => (hs.dropped id).2 (.inl hid), fun p _ hc => .inl (hrec ▸ hc),
    hs.toStays.asksSettings, .inr (hedges.edgesOf _), fun he => .inl (hfiles ▸ he)⟩
  · exact Table.symbolsInFile_of_bare hfiles (fun hx => .inl (hold hx)) hp
  · obtain ⟨s, hx⟩ := contains_iff.1 hk
    by_cases ho : r.table.isOrphan s = true
    · exact .inr ((hs.dropped _).2 (.inr ((hids _).2 ⟨fqn, s, hx, ho, (h.table.symbol hx).2⟩)))
    · have hkeep : r'.table.symbols.get? fqn = some s := by simp [hsym, hx, Option.filter, ho]
      exact .inl (contains_of_get? hkeep)

/-! ## All steps -/

theorem Stays.refl (r : Run σ) : Stays due r r := .of_eq (.refl _) rfl

theorem Stays.trans {r'' : Run σ} (h : Stays due r r') (h' : Stays due r' r'') : Stays due r r'' :=
  ⟨h.setup.trans h'.setup, h'.removed.trans h.removed, h'.forgotten.trans h.forgotten,
    h.seq.trans h'.seq, fun p hp => h'.affected p (h.affected p hp),
    fun hs => h'.settings (h.settings hs), fun ho => (h'.own ho).elim h.own .inr,
    h.failures.trans h'.failures, fun hc => h'.cancelled (h.cancelled hc)⟩

theorem Step.stays (hs : Step names due r r') : Stays due r r' := by
  cases hs with
  | records h | commit h | edges h | learn h | adopt h | retire h | prune h => exact h.toStays

theorem Covered.step (h : r.Covered names due) (hs : Step names due r r') :
    r'.Covered names due := by
  refine ⟨?_, by rw [hs.stays.setup.registry]; exact h.sources, h.settings⟩
  cases hs with
  | records hs | commit hs | edges hs | learn hs | adopt hs | prune hs => exact (hs.carries h).1
  | retire hs => exact hs.orderly h

theorem Stays.declares (h : Stays due r r') : r'.Declares ↔ r.Declares := by
  rw [Controller.Declares, Controller.Declares, h.setup.plugins, h.setup.settings]

theorem Stays.ownsNode (hs : Stays due r r') (h : r.OwnsNode)
    (hf : r'.table.files.get? settingsFile = r.table.files.get? settingsFile) : r'.OwnsNode := by
  intro hc
  refine hs.declares.2 (h ?_)
  rwa [Table.containsFile, contains, ← hf]

/-- A step carries the project over, unless a source is offered in the place of settings that
declare nothing. -/
theorem Step.carries (h : r.Covered names due)
    (hsteady : Plugin.Steady r.plugins r.settings.enrichment)
    (hdue : ¬r.Declares → ∀ s ∈ due, s.path ≠ settingsFile) (hown : r.OwnsNode)
    (hs : Step names due r r') : Carries (fun p => ∃ s ∈ due, s.path = p) r r' ∧ r'.OwnsNode := by
  cases hs with
  | records hs =>
    exact ⟨(hs.carries h.toOrderly).2, hs.toStays.ownsNode hown (by rw [hs.same.symbols.files])⟩
  | commit hs =>
    refine ⟨(hs.carries h).2, ?_⟩
    by_cases hd : r.Declares
    · exact fun _ => hs.toStays.declares.2 hd
    · exact hs.toStays.ownsNode hown
        ((hs.update h).files _ (Ne.symm (hdue hd _ hs.offered)))
  | edges hs =>
    exact ⟨(hs.carries h.toOrderly).2, hs.toStays.ownsNode hown (by rw [hs.rewires.same.files])⟩
  | learn hs => exact ⟨(hs.carries h).2, hs.toStays.ownsNode hown (by rw [hs.taught.files])⟩
  | adopt hs => exact ⟨(hs.carries h).2, fun _ => hs.toStays.declares.2 hs.declared⟩
  | retire hs => exact absurd hown (hs.not_ownsNode hsteady)
  | prune hs =>
    obtain ⟨-, hfiles, -⟩ := Table.pruneExternals_spec fun hs => (h.table.symbol hs).1
    exact ⟨(hs.carries h.toOrderly).2, hs.toStays.ownsNode hown (by rw [hs.table, hfiles])⟩

/-- No step makes a file resolved. -/
theorem Step.resolved (hs : Step names due r r') {x : FileRecord} (hp : p ≠ settingsFile)
    (hx : r'.records.get? p = some x) (hr : x.state = .resolved) : r.records.get? p = some x := by
  cases hs with
  | records hs | edges hs => exact (hs.revised hx).resolved hp hr
  | @commit c summary hs =>
    by_cases hc : p = c.source.path
    · obtain ⟨y, hy, -, -, hstate, -⟩ := hs.record
      rw [hc, hy] at hx
      cases hx
      rw [hstate] at hr
      cases hr
    · rw [hs.records p hc] at hx
      split at hx
      · obtain ⟨y, -, rfl⟩ := Option.map_eq_some_iff.1 hx
        rcases y.outdated_state with hs | hs <;> rw [hs] at hr <;> cases hr
      · exact hx
  | learn hs | adopt hs | retire hs | prune hs => exact hs.records ▸ hx

/-- Only a commit changes what a file was collected as. -/
theorem Step.collection? (hs : Step names due r r') (p : String) :
    r'.collection? p = r.collection? p ∨
      ∃ c summary, CommitStep due c summary r r' ∧ c.source.path = p := by
  cases hs with
  | records hs | edges hs => exact .inl (hs.collection? p)
  | @commit c summary hs =>
    by_cases hp : c.source.path = p
    · exact .inr ⟨c, summary, hs, hp⟩
    · exact .inl (hs.collection?_of_ne (Ne.symm hp))
  | learn hs | adopt hs | retire hs | prune hs =>
    exact .inl (Controller.collection?_of_records hs.records p)

/-- A step adds only sketches of offered sources. -/
theorem Step.sketches (hs : Step names due r r') {f : FileSketch}
    (hf : r'.sketches.get? p = some f) : r.sketches.get? p = some f ∨
      ∃ s ∈ due, s.path = p ∧ (r.registry.collect s).outcome = .done f := by
  rcases hs.collection? p with heq | ⟨c, summary, hc, rfl⟩
  · exact .inl (Controller.sketches_of_collection? heq ▸ hf)
  · obtain ⟨n, -, -, hcol⟩ := hc.collection?
    rw [Controller.get?_sketches_eq_map, hcol] at hf
    exact .inr ⟨_, hc.offered, rfl, hc.collected.trans (congrArg _ (Option.some.inj hf))⟩

/-! ## Step after step -/

theorem Steps.stays (hs : Steps names due r r') : Stays due r r' := by
  induction hs with
  | refl => exact .refl r
  | tail _ hstep ih => exact ih.trans hstep.stays

theorem Covered.steps (h : r.Covered names due) (hs : Steps names due r r') :
    r'.Covered names due := by
  induction hs with
  | refl => exact h
  | tail _ hstep ih => exact ih.step hstep

theorem Steps.carries (h : r.Covered names due)
    (hsteady : Plugin.Steady r.plugins r.settings.enrichment)
    (hdue : ¬r.Declares → ∀ s ∈ due, s.path ≠ settingsFile) (hown : r.OwnsNode)
    (hs : Steps names due r r') : Carries (fun p => ∃ s ∈ due, s.path = p) r r' ∧ r'.OwnsNode := by
  induction hs with
  | refl => exact ⟨.refl r, hown⟩
  | tail hs hstep ih =>
    have hstays := Steps.stays hs
    obtain ⟨hcar, hown⟩ := hstep.carries (h.steps hs)
      (by rwa [hstays.setup.plugins, hstays.setup.settings])
      (fun hd => hdue fun hd' => hd (hstays.declares.2 hd')) ih.2
    exact ⟨ih.1.trans hcar, hown⟩

theorem Steps.resolved (hs : Steps names due r r') {x : FileRecord} (hp : p ≠ settingsFile)
    (hx : r'.records.get? p = some x) (hr : x.state = .resolved) : r.records.get? p = some x := by
  induction hs with
  | refl => exact hx
  | tail _ hstep ih => exact ih (hstep.resolved hp hx hr)

theorem Steps.sketches (hs : Steps names due r r') {f : FileSketch}
    (hf : r'.sketches.get? p = some f) : r.sketches.get? p = some f ∨
      ∃ s ∈ due, s.path = p ∧ (r.registry.collect s).outcome = .done f := by
  induction hs with
  | refl => exact .inl hf
  | tail hs hstep ih =>
    rcases hstep.sketches hf with hf | ⟨s, hs', hp, ho⟩
    · exact ih hf
    · exact .inr ⟨s, hs', hp, (Steps.stays hs).setup.registry ▸ ho⟩

end Run

end CodeAtlas
