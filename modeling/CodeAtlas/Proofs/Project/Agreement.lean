import Mathlib
import CodeAtlas.Proofs.Project.Histories
import CodeAtlas.Proofs.Resolve.Sources

/-!
# Scores agree with targets

An edge to a type or a value that is not guessed has the full score exactly while its target is
defined in the project, and half of it exactly while its target is a placeholder.

Definitions come and go, and runs stop halfway. The invariant survives since a symbol that changes
between defined and placeholder loses all edges to it: a commit is only reached with no edge to what
it defines, and an update drops the edges to what is gone.

Main results:

* `Step.scored`: every step of a run keeps the agreement.
* `score_eq_iff_of_reaches`: it holds of every state of a project.
-/

namespace CodeAtlas

open SortedMap

variable {σ : Type} {names : Set String}

namespace Table

/-- The score of an edge agrees with what its target is in a table. -/
def Agrees (t : Table) (e : Edge) : Prop :=
  ∃ fqn s, t.symbols.get? fqn = some s ∧ e.target = .ofFqn fqn ∧
    (e.confidence = 1.0 ∧ s.isExternal = false ∨ e.confidence = 0.5 ∧ s.isExternal = true)

/-- All edges to types and values that are not guessed agree with their targets. -/
def Scored (t : Table) : Prop :=
  ∀ o, ∀ e ∈ t.edgesOf o, e.type.leadsToTypeOrValue = true → e.isDynamic = false → t.Agrees e

variable {t t' : Table}

theorem Scored.of_same (h : Scored t) (hs : SameGraph t t') : Scored t' := by
  intro o e he ht hd
  obtain ⟨fqn, s, hx, hrest⟩ := h o e (hs.edges.edgesOf o ▸ he) ht hd
  exact ⟨fqn, s, hs.symbols.symbols ▸ hx, hrest⟩

theorem Scored.of_taught (h : Scored t) (hs : Taught t t') : Scored t' := by
  intro o e he ht hd
  obtain ⟨fqn, s, hx, hrest⟩ := h o e (hs.edges.edgesOf o ▸ he) ht hd
  exact ⟨fqn, s, hs.kept hx, hrest⟩

/-- An update keeps the agreement if no edge targets what it defines. -/
theorem Scored.of_update {file : String} {fresh : String → Prop} {removed : IdSet}
    {stale : StringSet} (h : Scored t) (hup : Update names file fresh removed stale t t')
    (hfresh : ∀ o, ∀ e ∈ t.edgesOf o, ∀ fqn, e.target = .ofFqn fqn → ¬fresh fqn) : Scored t' := by
  intro o e he ht hd
  have hmem : e ∈ t.edgesOf o ∧ removed.contains e.target = false := by
    by_cases ho : o = file
    · subst ho
      exact hup.own e he
    · rw [hup.edges o ho, List.mem_filter] at he
      exact ⟨he.1, by simpa using he.2⟩
  obtain ⟨fqn, s, hx, htarget, hscore⟩ := h o e hmem.1 ht hd
  obtain ⟨s', hx', hsame⟩ := hup.survives hx (htarget ▸ hmem.2)
  refine ⟨fqn, s', hx', htarget, ?_⟩
  rwa [hsame (hfresh o e hmem.1 fqn htarget)]

theorem Scored.pruneExternals (h : Scored t) (ho : Orderly names t) (hc : Counted t) :
    Scored t.pruneExternals.2 := by
  obtain ⟨hedges, -, -, -, hsym, -⟩ := pruneExternals_spec fun hs => (ho.symbol hs).1
  intro o e he ht hd
  rw [hedges.edgesOf] at he
  obtain ⟨fqn, s, hx, htarget, hscore⟩ := h o e he ht hd
  -- a symbol that an edge targets is no orphan
  have hused : t.dependents.contains s.id = true :=
    hc.contains_dependents.2 ⟨o, e, he, htarget.trans (ho.symbol hx).2.symm⟩
  refine ⟨fqn, s, ?_, htarget, hscore⟩
  simp [hsym, hx, Option.filter, isOrphan, hused]

/-- What resolution found on a view agrees in every table that extends the view by placeholders. -/
theorem agrees_of_finding (ho : Orderly names t) {s : Snapshot} (hb : s.Below t) {f : Finding}
    (h : f.Agrees s) (hlearnt : ∀ x, f.placeholder = some x → t.symbols.contains x.fqn = true) :
    t.Agrees f.edge := by
  cases h with
  | @defined fqn x found internal target score =>
    have hx := hb.kept found
    exact ⟨fqn, x, hx, target.trans (ho.symbol hx).2, .inl ⟨score, internal⟩⟩
  | @missing fqn x undefined needs name target score =>
    obtain ⟨y, hy⟩ := contains_iff.1 (hlearnt x needs)
    rw [name] at hy
    refine ⟨fqn, y, hy, target, .inr ⟨score, ?_⟩⟩
    rcases hb.new hy with hold | ⟨-, hext⟩
    · -- the view knew the name, but not as a definition
      by_contra hint
      have := findDefined?_eq_some.2 ⟨hold, by simpa using hint⟩
      rw [undefined] at this
      cases this
    · exact hext

end Table

namespace Run

variable {due : List SourceFile} {r r' : Run σ}

/-- The sketches of a project have no empty names. -/
def Spelled (c : Controller σ) : Prop := ∀ p f, c.sketches.get? p = some f → f.Spelled

/-- The settings give no edge, and all plugins are standard ones. -/
structure Plain (c : Controller σ) : Prop where
  plugins : c.plugins ⊆ Plugin.standard
  enrichment : c.settings.enrichment.hasOwnEdges = false

theorem Plain.not_declared (h : Plain r.toController) (e : Edge) : ¬r.Declared e := by
  rintro ⟨-, v, -, plugin, hp, he⟩
  have hp := h.plugins (List.mem_filter.1 hp).1
  rw [Plugin.standard_settings hp h.enrichment] at he
  cases he

theorem Traced.agrees {e : Edge} (h : r.Traced e) (hc : r.Orderly names)
    (hplain : Plain r.toController) (hs : Spelled r.toController)
    (ht : e.type.leadsToTypeOrValue = true) (hd : e.isDynamic = false) : r.table.Agrees e := by
  obtain ⟨v, f, found, rfl, hb, ⟨p, hp⟩, hlearnt, hfinds⟩ := h
  rcases hfinds with hfound | ⟨plugin, hp, l, hl, hfound⟩
  · have hagrees := View.findings_agrees (hs p f hp) hfound ht hd
    exact Table.agrees_of_finding hc.table hb hagrees hlearnt
  · rw [Plugin.standard_type (hplain.plugins hp) hl hfound] at ht
    cases ht

/-- Every step of a run keeps the agreement. -/
theorem Step.scored (hs : Step names due r r') (hc : r.Covered names due)
    (hplain : Plain r.toController) (hsp : Spelled r.toController) (h : r.table.Scored) :
    r'.table.Scored := by
  cases hs with
  | records hs => exact h.of_same hs.same
  | @commit c summary hs =>
    refine h.of_update (hs.update hc) fun o e he fqn htarget hfresh => ?_
    obtain ⟨t, ht, -⟩ := hs.table
    obtain ⟨s, hs', rfl⟩ := List.mem_map.1 hfresh
    have hid := (Table.commitFile_admits ht hs').2.2.2
    exact hs.untargeted o e he s hs' (htarget.trans hid.symm)
  | @edges path edges hs =>
    intro o e he ht hd
    have hsym : ∀ {e}, r.table.Agrees e → r'.table.Agrees e := by
      rintro e ⟨fqn, s, hx, hrest⟩
      exact ⟨fqn, s, hs.rewires.same.symbols ▸ hx, hrest⟩
    rw [hs.rewires.edgesOf] at he
    split at he
    · rcases hs.origin e he with hold | htraced | hdeclared
      · exact hsym (h path e hold ht hd)
      · exact hsym (htraced.agrees hc.toOrderly hplain hsp ht hd)
      · exact absurd hdeclared (hplain.not_declared e)
    · exact hsym (h o e he ht hd)
  | learn hs => exact h.of_taught hs.taught
  | adopt hs =>
    obtain ⟨v, hv⟩ := hs.declared
    refine absurd (fun plugin hp => ?_) hv
    exact Plugin.standard_settings (hplain.plugins (List.mem_filter.1 hp).1) hplain.enrichment v
  | retire hs =>
    rw [hs.table]
    exact h.of_update (Table.removeFile_update hc.table hc.counted _).1 fun _ _ _ _ _ => id
  | prune hs =>
    rw [hs.table]
    exact h.pruneExternals hc.table hc.counted

theorem Steps.scored (hs : Steps names due r r') (hc : r.Covered names due)
    (hplain : Plain r.toController) (hsp : Spelled r.toController)
    (hnew : ∀ s ∈ due, ∀ f, (r.registry.collect s).outcome = .done f → f.Spelled)
    (h : r.table.Scored) : r'.table.Scored := by
  induction hs with
  | refl => exact h
  | @tail r₁ r₂ hs hstep ih =>
    have hstays := Steps.stays hs
    refine hstep.scored (hc.steps hs) ?_ (fun p f hf => ?_) ih
    · exact ⟨hstays.setup.plugins ▸ hplain.plugins, hstays.setup.settings ▸ hplain.enrichment⟩
    · rcases Steps.sketches hs hf with hf | ⟨s, hs, -, ho⟩
      · exact hsp p f hf
      · exact hnew s hs f ho

end Run

namespace Controller

/-- The names of references and the literals of all offered sources are not empty. -/
def Spells : RunKind σ := fun _ changes _ c _ =>
  ∀ s, .modified s ∈ changes → ∀ f, (c.registry.collect s).outcome = .done f → f.Spelled

theorem begun_scored {c : Controller σ} {k : Conditions} {changes : List FileChange} {full : Bool}
    (hc : c.Orderly names) (h : c.table.Scored) : (c.begun k changes full).1.table.Scored := by
  refine Run.takeChanges_keeps (J := fun c => c.table.Scored)
    (Run.checkSettings_orderly (Run.start_orderly hc full) k.now) changes ?_
    fun r r' path hc h hr => ?_
  · rwa [Run.checkSettings_table]
  · rw [hr.table]
    exact h.of_update (Table.removeFile_update hc.table hc.counted _).1 fun _ _ _ _ _ => id

/-- What the agreement needs of a project between runs. -/
structure Agreeing (c : Controller σ) : Prop where
  scored : c.table.Scored
  spelled : Run.Spelled c

section

variable [Sink σ] {Q : σ → σ → Prop} {c₀ c : Controller σ}

theorem Reaches.agreeing (hnew : c₀.IsNew) (hplain : Run.Plain c₀)
    (hinj : Set.InjOn SymbolId.ofFqn names) (h : Reaches names Spells Q c₀ c) : c.Agreeing := by
  refine h.induct (I := Agreeing) (hnew.coherent hinj) ⟨?_, ?_⟩
    (fun {c c' k changes full finished r report} hc hsame hw hspells hag hran => ?_)
    fun _ hag => ⟨hag.scored, hag.spelled⟩
  · intro o e he
    rw [hnew.table] at he
    cases he
  · intro p f hf
    rw [Run.get?_sketches, hnew.records] at hf
    cases hf
  · have hsetup := begun_setup hc k changes full
    have hgraph := hran.offers.table
    constructor
    · refine Table.Scored.of_same ?_ hgraph
      refine Run.Steps.scored hran.worked.steps (hw.covered hc)
        ⟨?_, ?_⟩ (fun p f hf => hag.spelled p f (begun_sketches hf))
        (fun s hs f hf => ?_) (begun_scored hc hag.scored)
      · rw [hsetup.plugins, hsame.plugins]
        exact hplain.plugins
      · rw [hsetup.settings, hsame.settings]
        exact hplain.enrichment
      · exact hspells s (Run.takeChanges_due hs).2 f (hsetup.registry ▸ hf)
    · intro p f hf
      rcases hran.sketches hc hf with hf | ⟨s, hs, -, ho⟩
      · exact hag.spelled p f hf
      · exact hspells s hs f ho

/-- In every state of a project whose settings give no edge, an edge to a type or a value that is
not guessed has a known target. It has the full score exactly if the project defines the target, and
half of it exactly if the target is a placeholder. -/
theorem score_eq_iff_of_reaches (hnew : c₀.IsNew) (hplugins : c₀.plugins ⊆ Plugin.standard)
    (hown : c₀.settings.enrichment.hasOwnEdges = false) (hinj : Set.InjOn SymbolId.ofFqn names)
    (h : Reaches names Spells Q c₀ c) :
    ∀ e ∈ c.table.allEdges, e.type.leadsToTypeOrValue = true → e.isDynamic = false →
      ∃ s, SymbolLookup.findId? c.table e.target = some s ∧
        (e.confidence = 1.0 ↔ s.isExternal = false) ∧
        (e.confidence = 0.5 ↔ s.isExternal = true) := by
  intro e he ht hd
  have hscored := (h.agreeing hnew ⟨hplugins, hown⟩ hinj).scored
  have hsound := (h.coherent_sameKind (hnew.coherent hinj)).1.sound
  obtain ⟨o, ho⟩ := Table.mem_allEdges.1 he
  obtain ⟨fqn, s, hs, htarget, hscore⟩ := hscored o e ho ht hd
  have hne : (1.0 : Float) ≠ 0.5 := by decide
  obtain ⟨hfqn, hid⟩ := hsound.symbol hs
  refine ⟨s, hsound.findId?_eq_some.2 ⟨hfqn ▸ hs, hid.trans htarget.symm⟩, ?_⟩
  rcases hscore with ⟨hc, hx⟩ | ⟨hc, hx⟩
  · simp [hc, hx, hne]
  · simp [hc, hx, Ne.symm hne]

end

/-- A file that refers to itself, and one that refers to a type outside the project. -/
def inAndOut : Controller MemoryStore := ofSketches [.extending "a.go" "a.go", .extending "b.go" "T"]

def inAndOutNames : List String := [settingsFile, "a.go", "b.go", "T"]

theorem run_inAndOut : (inAndOutNames.map SymbolId.ofFqn).Nodup ∧
    inAndOut.usesOnly inAndOutNames {} [.seen "a.go", .seen "b.go"] false = true ∧
    ∃ x, inAndOut.run {} [.seen "a.go", .seen "b.go"] false = .ok x ∧
      x.2.table.allEdges.map (·.confidence) = [1.0, 0.5] ∧
      ∀ e ∈ x.2.table.allEdges, e.type.leadsToTypeOrValue = true ∧ e.isDynamic = false := by
  decide +kernel

/-- After the first run one edge has the full score and the other one half of it. -/
theorem score_eq_iff_of_reaches_inAndOut : ∃ c,
    Reaches {n | n ∈ inAndOutNames} Spells (fun _ _ => True) inAndOut c ∧
      c.table.allEdges.map (·.confidence) = [1.0, 0.5] ∧
      ∀ e ∈ c.table.allEdges, ∃ s, SymbolLookup.findId? c.table e.target = some s ∧
        (e.confidence = 1.0 ↔ s.isExternal = false) ∧
        (e.confidence = 0.5 ↔ s.isExternal = true) := by
  obtain ⟨hnodup, huses, ⟨report, c⟩, hrun, hscores, hedges⟩ := run_inAndOut
  have hspells : Spells {} [.seen "a.go", .seen "b.go"] false inAndOut report := by
    intro s hs f hf
    have hspelled : ∀ f ∈ [FileSketch.extending "a.go" "a.go", .extending "b.go" "T"],
        (∀ r ∈ f.references, r.target.text ≠ "") ∧ f.assignments = [] := by decide
    obtain ⟨htargets, hassigned⟩ := hspelled f (mem_of_collect hf)
    refine ⟨fun r hr name hname => ?_, fun a ha => ?_⟩
    · have htext := htargets r hr
      rwa [hname] at htext
    · rw [hassigned] at ha
      cases ha
  have hreach : Reaches {n | n ∈ inAndOutNames} Spells (fun _ _ => True) inAndOut c :=
    .run .start (within_of_usesOnly huses) hspells hrun
  refine ⟨c, hreach, hscores, fun e he => ?_⟩
  exact score_eq_iff_of_reaches (isNew_ofSketches _) (List.Subset.refl _) rfl (injOn_ofFqn hnodup)
    hreach e he (hedges e he).1 (hedges e he).2

end Controller

end CodeAtlas
