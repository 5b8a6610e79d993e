import Mathlib
import CodeAtlas.Proofs.Project.Declarations
import CodeAtlas.Proofs.Table.Commits
import CodeAtlas.Proofs.Table.Recomputation

/-!
# The end of a full run

A full run ends with the edges of the settings: it learns their placeholders, gives the settings a
node or takes it away, stores the edges, and prunes. This is what the table has of the settings
then, as long as no source stands in their place.

Main results:

* `Run.Settles.of_refreshed`: what computing the edges of the settings comes to.
* `Run.Settles.pruned`: pruning leaves it like that.
* `Controller.Ran.closed`: a full run without failures ends so.
-/

namespace CodeAtlas

open SortedMap SymbolLookup

variable {σ : Type} {names : Set String}

/-! ## What the table learns -/

/-- The settings need a node under a name. -/
def Plugin.Needs (plugins : List Plugin) (e : EnrichmentSettings) (v : View) (fqn : String) :
    Prop :=
  ∃ plugin ∈ active plugins e, ∃ s ∈ (plugin.analyzeSettings e v).placeholders, s.fqn = fqn

theorem Plugin.SameFindings.needs {plugins : List Plugin} {e : EnrichmentSettings} {v v' : View}
    (h : SameFindings plugins e v v') {fqn : String} (hn : Needs plugins e v' fqn) :
    Needs plugins e v fqn := by
  obtain ⟨plugin, hp, hs⟩ := hn
  exact ⟨plugin, hp, by rwa [h plugin hp]⟩

theorem Table.contains_ensurePlaceholder {t : Table} {template : Symbol} {fqn : String} :
    (t.ensurePlaceholder template).2.symbols.contains fqn = true ↔
      t.symbols.contains fqn = true ∨ template.fqn = fqn := by
  unfold ensurePlaceholder
  cases hs : t.symbols.get? template.fqn with
  | some s =>
    refine ⟨.inl, fun h => h.elim id ?_⟩
    rintro rfl
    exact contains_of_get? hs
  | none =>
    dsimp only [insertNew]
    rw [contains_insert, Bool.or_eq_true, decide_eq_true_eq, or_comm, @eq_comm _ fqn]

theorem Plugin.contains_settingsEdges {plugins : List Plugin} {e : EnrichmentSettings} {v : View}
    {t : Table} {fqn : String} : (settingsEdges plugins e v t).2.symbols.contains fqn = true ↔
      t.symbols.contains fqn = true ∨ Needs plugins e v fqn := by
  have hfold : ∀ (l : List Symbol) (t : Table),
      (l.foldl (fun t s => (t.ensurePlaceholder s).2) t).symbols.contains fqn = true ↔
        t.symbols.contains fqn = true ∨ ∃ s ∈ l, s.fqn = fqn := by
    intro l
    induction l with
    | nil => simp
    | cons s rest ih =>
      intro t
      rw [List.foldl_cons, ih, Table.contains_ensurePlaceholder, List.exists_mem_cons_iff, or_assoc]
  unfold settingsEdges Needs
  rw [hfold]
  simp only [List.mem_flatMap, List.mem_map, exists_exists_and_eq_and]
  refine or_congr_right ⟨?_, ?_⟩
  · rintro ⟨s, ⟨plugin, hp, hs⟩, rfl⟩
    exact ⟨plugin, hp, s, hs, rfl⟩
  · rintro ⟨plugin, hp, s, hs, rfl⟩
    exact ⟨s, ⟨plugin, hp, hs⟩, rfl⟩

/-! ## Definitions -/

namespace Table

variable {t t' : Table} {fqn : String}

/-- Under a name both tables have a definition, or neither has. -/
theorem defineAlike_iff : t.snapshot.DefineAlike t'.snapshot fqn ↔
    ((∃ s, t.symbols.get? fqn = some s ∧ s.isExternal = false) ↔
      ∃ s, t'.symbols.get? fqn = some s ∧ s.isExternal = false) := by
  have hone : ∀ t : Table, (findDefined? t.snapshot fqn).isSome = true ↔
      ∃ s, t.symbols.get? fqn = some s ∧ s.isExternal = false := by
    intro t
    rw [Option.isSome_iff_exists]
    exact exists_congr fun s => findDefined?_eq_some
  rw [Snapshot.DefineAlike, Bool.eq_iff_iff, hone, hone]

/-- What a table learns are no definitions. -/
theorem Taught.defineAlike (h : t.Taught t') (fqn : String) :
    t.snapshot.DefineAlike t'.snapshot fqn := by
  refine defineAlike_iff.2 ⟨?_, ?_⟩
  · rintro ⟨s, hs, hint⟩
    exact ⟨s, h.kept hs, hint⟩
  · rintro ⟨s, hs, hint⟩
    exact ⟨s, h.internal hs hint, hint⟩

/-- What is pruned are no definitions. -/
theorem Orderly.defineAlike_pruneExternals (h : t.Orderly names) (fqn : String) :
    t.snapshot.DefineAlike t.pruneExternals.2.snapshot fqn := by
  obtain ⟨-, -, -, -, hget, -⟩ := pruneExternals_spec fun hs => (h.symbol hs).1
  refine defineAlike_iff.2 ⟨?_, ?_⟩
  · rintro ⟨s, hs, hint⟩
    exact ⟨s, by simp [hget, hs, isOrphan, hint], hint⟩
  · rintro ⟨s, hs, hint⟩
    rw [hget] at hs
    exact ⟨s, (Option.filter_eq_some_iff.1 hs).1, hint⟩

end Table

/-- The edges that the settings declare on the symbols of a project. -/
def Controller.declared (c : Controller σ) : List Edge :=
  (Plugin.settingsEdges c.plugins c.settings.enrichment c.view c.table).1

namespace Run

variable {due : List SourceFile} {r r' : Run σ}

/-! ## The edges of the settings -/

/-- What a table has of the settings once their edges are computed for a run: their edges, a node
exactly if there are any, and the placeholders that they need, unless these are dropped. -/
structure Settles (r : Run σ) (t : Table) (dropped : IdSet) : Prop where
  edges : t.edgesOf settingsFile = Table.dropRepeats (Edge.sort r.declared)
  node : t.containsFile settingsFile = true ↔ r.declared ≠ []
  needs : ∀ {fqn}, Plugin.Needs r.plugins r.settings.enrichment r.view fqn →
    t.symbols.contains fqn = true ∨ dropped.contains (.ofFqn fqn) = true
  /-- Where the settings declare an edge, no other name is defined for them or withdrawn. -/
  alike : r.declared ≠ [] → ∀ fqn, fqn ≠ settingsFile →
    r.table.snapshot.DefineAlike t.snapshot fqn

theorem moduleName_settings : ∀ s ∈ [settingsSymbol], s.moduleName = none := by
  intro s hs
  rw [List.mem_singleton.1 hs]
  rfl

/-- Giving the settings a node defines no other name. -/
theorem get?_of_adopted {t t' : Table} {summary : CommitSummary}
    (hunknown : t.containsFile settingsFile = false)
    (ht : t.commitFile settingsFile [settingsSymbol] = (.ok summary, t')) {fqn : String}
    (hfqn : fqn ≠ settingsFile) : t'.symbols.get? fqn = t.symbols.get? fqn := by
  obtain ⟨-, -, hsym⟩ := Table.commitFile_fresh (contains_eq_false_iff.1 hunknown)
    moduleName_settings (List.cons_ne_nil _ _) ht
  have hnone : (Table.Ledger.definitionsOf [settingsSymbol]).get? fqn = none := by
    rw [← contains_eq_false_iff, Bool.eq_false_iff, Ne, Table.Ledger.definitionsOf,
      SortedMap.contains_ofList]
    simpa using show fqn ≠ settingsSymbol.fqn from hfqn
  rw [hsym, hnone]
  simp

theorem Settles.of_refreshed (h : r.Orderly names)
    (hnames : ∀ fqn, r.settingsTable.symbols.contains fqn = true → fqn ∈ names)
    (hcleared : r.table.containsFile settingsFile = true ∨ r.table.edgesOf settingsFile = [])
    (hok : r.refreshSettings = .ok r') : r.Settles r'.table r'.droppedIds := by
  have htaught := settingsTable_taught r
  have hlearnt : r.settingsTable.Orderly names := htaught.orderly hnames h.table
  have hneeds : ∀ {fqn}, Plugin.Needs r.plugins r.settings.enrichment r.view fqn →
      r.settingsTable.symbols.contains fqn = true := fun hn =>
    Plugin.contains_settingsEdges.2 (.inr hn)
  have hsilent : r.declared = [] ↔ Plugin.Silent r.plugins r.settings.enrichment r.view :=
    settingsEdges_eq_nil
  have hsort : Table.dropRepeats (Edge.sort []) = [] := by simp [Edge.sort, Table.dropRepeats]
  rcases refreshSettings_cases hok with
    ⟨hs, ⟨-, rfl⟩ | ⟨hunknown, rfl⟩⟩ | ⟨hloud, t, t', ht, ht', rfl⟩
  · -- the node goes, with all that stands under its path
    have hnil := hsilent.2 hs
    obtain ⟨hup, hedges, hfiles⟩ := Table.removeFile_update hlearnt
      (h.counted.of_same htaught.edges) settingsFile
    refine ⟨?_, ?_, fun {fqn} hn => ?_, fun hne => absurd hnil hne⟩
    · rw [hnil, hsort]
      exact hedges
    · simp [hnil, Table.containsFile, contains_eq_false_iff.2 hfiles, drop]
    · obtain ⟨s, hget⟩ := contains_iff.1 (hneeds hn)
      cases hgone : (r.settingsTable.removeFile settingsFile).1.removed.contains (.ofFqn fqn) with
      | false =>
        obtain ⟨s', hs', -⟩ := hup.survives hget hgone
        exact .inl (contains_of_get? hs')
      | true => exact .inr ((IdSet.contains_union _ _ _).2 (.inr hgone))
  · have hnil := hsilent.2 hs
    refine ⟨?_, ?_, fun hn => .inl (hneeds hn), fun hne => absurd hnil hne⟩
    · rw [Table.containsFile, htaught.files] at hunknown
      have hnone := hcleared.resolve_left (ne_true_of_eq_false hunknown)
      rw [hnil, hsort]
      exact (htaught.edges.edgesOf settingsFile).trans hnone
    · simp [hnil, hunknown]
  · have hne : r.declared ≠ [] := fun hnil => hloud (hsilent.1 hnil)
    obtain ⟨-, hw⟩ := Table.replaceEdges_rewires ht'
    have hsym : ∀ {fqn}, fqn ≠ settingsFile →
        t'.symbols.get? fqn = r.settingsTable.symbols.get? fqn := by
      intro fqn hfqn
      rw [hw.same.symbols]
      rcases ht with ⟨-, rfl⟩ | ⟨hunknown, summary, hcommit⟩
      · rfl
      · exact get?_of_adopted hunknown hcommit hfqn
    have hnode : t.containsFile settingsFile = true := by
      rcases ht with ⟨hknown, rfl⟩ | ⟨-, summary, hcommit⟩
      · exact hknown
      · exact Table.containsFile_of_commitFile hcommit
    refine ⟨?_, ?_, fun {fqn} hn => .inl ?_, fun _ fqn hfqn => ?_⟩
    · rw [hw.edgesOf, if_pos rfl]
      rfl
    · rw [Table.containsFile, hw.same.files]
      exact iff_of_true hnode hne
    · have hknown := hneeds hn
      rw [hw.same.symbols]
      rcases ht with ⟨-, rfl⟩ | ⟨hunknown, summary, hcommit⟩
      · exact hknown
      · obtain ⟨-, -, hget⟩ := Table.commitFile_fresh (contains_eq_false_iff.1 hunknown)
          moduleName_settings (List.cons_ne_nil _ _) hcommit
        rw [contains, hget]
        simpa [contains] using .inr hknown
    · have halike := Table.defineAlike_iff.1 (htaught.defineAlike fqn)
      refine Table.defineAlike_iff.2 (halike.trans ?_)
      show _ ↔ ∃ s, t'.symbols.get? fqn = some s ∧ s.isExternal = false
      rw [hsym hfqn]

/-- Pruning keeps what the table has of the settings; a placeholder that it takes is dropped. -/
theorem Settles.pruned {t : Table} {dropped dropped' : IdSet} (h : r.Settles t dropped)
    (ht : t.Orderly names) (hdropped : ∀ id, dropped.contains id = true ∨
      t.pruneExternals.1.contains id = true → dropped'.contains id = true) :
    r.Settles t.pruneExternals.2 dropped' := by
  obtain ⟨hedges, hfiles, -, -, hget, hpruned⟩ :=
    Table.pruneExternals_spec fun hs => (ht.symbol hs).1
  refine ⟨?_, ?_, fun {fqn} hn => ?_, fun hne fqn hfqn => ?_⟩
  · rw [hedges.edgesOf, h.edges]
  · rw [Table.containsFile, hfiles]
    exact h.node
  · rcases h.needs hn with hknown | hgone
    · obtain ⟨s, hs⟩ := contains_iff.1 hknown
      cases horphan : t.isOrphan s with
      | false =>
        left
        rw [contains, hget, hs]
        simp [horphan]
      | true =>
        refine .inr (hdropped _ (.inr ((hpruned _).2 ⟨fqn, s, hs, horphan, ?_⟩)))
        exact (ht.symbol hs).2
    · exact .inr (hdropped _ (.inl hgone))
  · exact (h.alike hne fqn hfqn).trans (ht.defineAlike_pruneExternals fqn)

/-! ## The end of a run -/

theorem tidy_eq_ok (hok : r.tidy = .ok r') :
    r' = { r with table := r.table.pruneExternals.2 }.drop r.table.pruneExternals.1 ∧
      r'.table.inconsistency? = none := by
  unfold tidy at hok
  rcases hp : r.table.pruneExternals with ⟨pruned, table⟩
  simp only [hp] at hok
  split at hok
  · cases hok
  · next hnone =>
    cases hok
    exact ⟨rfl, hnone⟩

theorem foldl_markReady_eq (l : List String) (r : Run σ) :
    ∃ records touched, l.foldl markReady r = { r with records, touched } := by
  induction l generalizing r with
  | nil => exact ⟨_, _, rfl⟩
  | cons path rest ih =>
    obtain ⟨records, touched, h⟩ := ih (r.markReady path)
    exact ⟨records, touched, h⟩

/-- A run has settled the edges of the settings, as they are declared on the symbols of `r₀`, and
its table is pruned and consistent. -/
structure Closed (names : Set String) (r₀ r : Run σ) : Prop where
  settles : r₀.Settles r.table r.droppedIds
  known : ∀ fqn, r₀.settingsTable.symbols.contains fqn = true → fqn ∈ names
  running : r.cancelled = false
  pruned : r.table.Pruned
  consistent : r.table.inconsistency? = none

/-- Without a cancellation the edges of the settings are computed where something asks for them. -/
theorem settle_eq_ok {finished finished' : List String} (hasked : r.settingsAffected = true)
    (hcalm : r'.report.cancelled = false) (hok : r.settle finished = .ok (finished', r')) :
    r.refreshSettings = .ok r' ∧ r'.cancelled = false := by
  have hcancel : ∀ {r₁ : Run σ}, (if r₁.cancelled then r₁.reportCancelled else r₁) = r' →
      r₁ = r' ∧ r₁.cancelled = false := by
    intro r₁ h₁
    split at h₁
    · rw [← h₁] at hcalm
      cases hcalm
    · next hc => exact ⟨h₁, by simpa using hc⟩
  unfold settle at hok
  split at hok
  · obtain ⟨r₁, h₁, hret⟩ := bind_eq_ok.1 hok
    obtain ⟨rfl, hrunning⟩ := hcancel (congrArg Prod.snd (Except.ok.inj hret))
    exact ⟨h₁, hrunning⟩
  · next hskip =>
    obtain ⟨-, hrunning⟩ := hcancel (congrArg Prod.snd (Except.ok.inj hok))
    simp [hasked, hrunning] at hskip

end Run

namespace Controller

variable {c c' : Controller σ} {k : Conditions} {changes : List FileChange}
  {finished : List String} {r : Run σ} {report : RunReport} {full : Bool} {files : List String}

/-- A run that asks for the edges of the settings does so from its beginning on. -/
theorem begun_asks (h : (Run.start c full).settingsAffected = true) (k : Conditions)
    (changes : List FileChange) : (c.begun k changes full).1.settingsAffected = true := by
  refine Run.takeChanges_induct (I := fun r : Run σ => r.settingsAffected = true) changes ?_
    (fun _ _ _ h hr => hr.settingsAffected.2 (.inl h)) fun r r' s h he => he.settingsAffected.trans h
  rcases Run.checkSettings_cases (Run.start c full) k.now with heq | ⟨paths, r₁, -, -, hr⟩
  · rwa [heq]
  · exact hr.settingsAffected

theorem begun_settingsAffected (k : Conditions) (changes : List FileChange) (c : Controller σ) :
    (c.begun k changes true).1.settingsAffected = true :=
  begun_asks rfl k changes

/-- A run after its passes, with the files that came through them. -/
def passed (k : Conditions) (changes : List FileChange) (full : Bool) (c : Controller σ) :
    Except (Halt σ) (List String × Run σ) := do
  let r ← (c.begun k changes full).1.collect k (c.begun k changes full).2
  let (resolved, r) ← r.resolve k
  r.enrich k resolved

theorem passed_eq_ok : c.passed k changes full = .ok (files, r) ↔ ∃ r₁ resolved r₂,
      (c.begun k changes full).1.collect k (c.begun k changes full).2 = .ok r₁ ∧
      r₁.resolve k = .ok (resolved, r₂) ∧ r₂.enrich k resolved = .ok (files, r) := by
  constructor
  · intro hok
    obtain ⟨r₁, hcol, hok⟩ := bind_eq_ok.1 hok
    obtain ⟨⟨resolved, r₂⟩, hres, henr⟩ := bind_eq_ok.1 hok
    exact ⟨r₁, resolved, r₂, hcol, hres, henr⟩
  · rintro ⟨r₁, resolved, r₂, hcol, hres, henr⟩
    exact bind_eq_ok.2 ⟨r₁, hcol, bind_eq_ok.2 ⟨_, hres, henr⟩⟩

/-- After its passes a run settles the settings and cleans up. -/
theorem work_eq_ok (hok : c.work k changes full = .ok (finished, r)) :
    ∃ files r₀ r₁, c.passed k changes full = .ok (files, r₀) ∧
      r₀.settle files = .ok (finished, r₁) ∧ (finished.foldl Run.markReady r₁).tidy = .ok r := by
  obtain ⟨r₁, hcol, hok⟩ := bind_eq_ok.1 hok
  obtain ⟨⟨resolved, r₂⟩, hres, hok⟩ := bind_eq_ok.1 hok
  obtain ⟨⟨files, r₃⟩, henr, hok⟩ := bind_eq_ok.1 hok
  obtain ⟨⟨finished', r₄⟩, hsettle, hok⟩ := bind_eq_ok.1 hok
  obtain ⟨r₅, htidy, hok⟩ := bind_eq_ok.1 hok
  obtain ⟨rfl, rfl⟩ := Prod.mk.inj (Except.ok.inj hok)
  exact ⟨files, r₃, r₄, passed_eq_ok.2 ⟨r₁, resolved, r₂, hcol, hres, henr⟩, hsettle, htidy⟩

theorem Within.passed (hw : c.Within names k changes full)
    (h : c.passed k changes full = .ok (files, r)) :
    ∀ fqn, r.settingsTable.symbols.contains fqn = true → fqn ∈ names := by
  obtain ⟨r₁, resolved, r₂, hcol, hres, henr⟩ := passed_eq_ok.1 h
  exact hw.widest _
    (bind_eq_ok.2 ⟨r₁, hcol, bind_eq_ok.2 ⟨_, hres, bind_eq_ok.2 ⟨_, henr, rfl⟩⟩⟩)

theorem passed_steps (hc : c.Orderly names) (hw : c.Within names k changes full)
    (h : c.passed k changes full = .ok (files, r)) :
    Run.Steps names (c.begun k changes full).2 (c.begun k changes full).1 r := by
  have hknown := hw.passed h
  obtain ⟨r₁, resolved, r₂, hcol, hres, henr⟩ := passed_eq_ok.1 h
  have hcollects := Run.collect_collects (singlePaths_begun c k changes full) (hw.covered hc) hcol
  obtain ⟨hpass, henrich, -⟩ := Run.passes_passed (hw.covered hc) hcollects hres henr
    fun fqn hfqn => hknown fqn ((Run.settingsTable_taught r).contains hfqn)
  exact (hcollects.steps.trans hpass.steps).trans henrich.steps

/-- A run that asks for the edges of the settings closes, if after its passes they have a node or no
edges. -/
theorem Ran.closed_of_passed [Sink σ] {r₀ : Run σ} (hc : c.Orderly names)
    (hw : c.Within names k changes full)
    (hbegun : (c.begun k changes full).1.settingsAffected = true)
    (hran : Ran names k changes full c finished r report c') (hcalm : r.report.cancelled = false)
    (hpassed : c.passed k changes full = .ok (files, r₀))
    (hcleared : r₀.table.containsFile settingsFile = true ∨ r₀.table.edgesOf settingsFile = []) :
    Run.Closed names r₀ r := by
  obtain ⟨files', r₃, r₄, hpassed', hsettle, htidy⟩ := work_eq_ok hran.work
  cases hpassed.symm.trans hpassed'
  have hknown := hw.passed hpassed
  have hsteps := passed_steps hc hw hpassed
  have h₀ := (hw.covered hc).steps hsteps
  have hasked : r₀.settingsAffected = true := (Run.Steps.stays hsteps).settings hbegun
  obtain ⟨records, touched, hready⟩ := Run.foldl_markReady_eq finished r₄
  rw [hready] at htidy
  obtain ⟨htidied, hconsistent⟩ := Run.tidy_eq_ok htidy
  have hreport : r.report = r₄.report := by rw [htidied]; rfl
  obtain ⟨hrefresh, hrunning⟩ := Run.settle_eq_ok hasked (hreport ▸ hcalm) hsettle
  have hrefreshed : Run.Refreshed names (c.begun k changes full).2 r₀ r₄ :=
    Run.refreshSettings_refreshed h₀ hasked hknown hrefresh
  have h₄ := h₀.steps hrefreshed.steps
  have hsettles := Run.Settles.of_refreshed h₀ hknown hcleared hrefresh
  rw [htidied] at hconsistent ⊢
  exact ⟨hsettles.pruned h₄.table fun id hid => (IdSet.contains_union _ _ id).2 hid, hknown,
    hrunning, h₄.table.pruned, hconsistent⟩

/-- A full run without failures closes, if no source stands in the place of the settings. -/
theorem Ran.closed [Sink σ] (hc : c.Orderly names) (hw : c.Within names k changes true)
    (hsettings : c.sketches.get? settingsFile = none)
    (hsources : ∀ s, .modified s ∈ changes → s.path ≠ settingsFile) (hcalm : r.Calm)
    (hran : Ran names k changes true c finished r report c') :
    ∃ r₀, Run.Steps names (c.begun k changes true).2 (c.begun k changes true).1 r₀ ∧
      Run.Closed names r₀ r := by
  obtain ⟨files, r₀, -, hpassed, -⟩ := work_eq_ok hran.work
  refine ⟨r₀, passed_steps hc hw hpassed, hran.closed_of_passed hc hw
    (begun_settingsAffected k changes c) hcalm.2 hpassed (.inr ?_)⟩
  have hknown := hw.passed hpassed
  obtain ⟨r₁, resolved, r₂, hcol, hres, henr⟩ := passed_eq_ok.1 hpassed
  -- the passes do not come to the settings file
  have hcollects := Run.collect_collects (singlePaths_begun c k changes true) (hw.covered hc) hcol
  obtain ⟨hpass, henrich, -⟩ := Run.passes_passed (hw.covered hc) hcollects hres henr
    fun fqn hfqn => hknown fqn ((Run.settingsTable_taught r₀).contains hfqn)
  have hbare : r₁.sketches.get? settingsFile = none := by
    refine Option.eq_none_iff_forall_ne_some.2 fun f hf => ?_
    rcases Run.Steps.sketches hcollects.steps hf with hf | ⟨s, hs, hpath, -⟩
    · cases hsettings.symm.trans (begun_sketches hf)
    · exact hsources s (Run.takeChanges_due hs).2 hpath
  have hskip : settingsFile ∉
      r₁.affected.toList.filter fun p => (r₁.sketches.get? p).isSome := by
    simp [hbare]
  rw [henrich.edges _ fun hmem => hskip (hpass.sublist.subset hmem), hpass.edges _ hskip]
  exact hcollects.settings (begun_settingsAffected k changes c)

end Controller

end CodeAtlas
