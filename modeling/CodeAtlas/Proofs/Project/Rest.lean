import Mathlib
import CodeAtlas.Proofs.Project.Closing
import CodeAtlas.Proofs.Project.Leftovers
import CodeAtlas.Proofs.Project.Rewriting

/-!
# Projects at rest

A project is at rest if nothing waits for a run: all files are resolved, the table and the store have
of the settings what they declare, and what the settings mention in vain is in neither. A full run
without failures and refused batches comes to rest, if it leaves all files resolved.

Main results:

* `Controller.AtRest`: what rest is.
* `Controller.Ran.remembered`: after a run the settings of the run are those on record.
* `Controller.Ran.atRest`: how a project comes to rest.
-/

namespace CodeAtlas

open SortedMap SymbolLookup

variable {σ : Type} {names : Set String}

namespace Table

variable {t t' : Table}

/-- The identifier of a name that the table does not know leads nowhere. -/
theorem Sound.findId?_ofFqn_eq_none (h : t.Sound names) {fqn : String} (hfqn : fqn ∈ names)
    (hnone : t.symbols.get? fqn = none) : findId? t (.ofFqn fqn) = none := by
  change (t.ids.get? (.ofFqn fqn)).bind t.symbols.get? = none
  rw [h.ids_ofFqn hfqn, contains_eq_false_iff.2 hnone]
  rfl

theorem SameContents.inconsistency?_eq_none (h : SameContents t t') :
    t'.inconsistency? = none ↔ t.inconsistency? = none := by
  rw [inconsistency?_eq_none_iff, inconsistency?_eq_none_iff]
  simp only [h.edges.edgesOf, h.ids, h.symbols]

end Table

/-! ## Which settings are on record -/

namespace Run

variable {due : List SourceFile} {r r' : Run σ} {p : String}

theorem previousSettings_eq (r : Run σ) : r.previousSettings =
    ((r.records.get? settingsFile).map (·.fingerprint)).getD (EnrichmentSettings.fingerprint {}) := by
  unfold previousSettings
  cases r.records.get? settingsFile <;> rfl

theorem checkSettings_previousSettings (r : Run σ) (now : Timestamp) :
    (r.checkSettings now).previousSettings = r.settings.enrichment.fingerprint := by
  unfold checkSettings
  split
  · next heq => exact beq_iff_eq.1 heq
  · have hm := markAllStale_marked r
      (StringSet.ofList (r.records.filter fun _ x => x.sketches.isSome).keys)
    rw [previousSettings_eq, ← hm.setup.settings]
    unfold recordSettings
    dsimp only
    split
    · next hdefault =>
      rw [get?_erase_eq, if_pos rfl]
      exact (beq_iff_eq.1 hdefault).symm
    · rw [get?_insert_self]
      rfl

theorem Revises.fingerprint {o : Option FileRecord} {x : FileRecord} (h : r.Revises due p o x)
    (hp : ∀ s ∈ due, s.path ≠ p) : o.map (·.fingerprint) = some x.fingerprint := by
  cases h with
  | state => rfl
  | first _ _ _ _ offered =>
    obtain ⟨s, hs, hpath⟩ := offered
    exact absurd hpath (hp s hs)

/-- A file that is not offered keeps the fingerprint in its record. -/
theorem Step.fingerprint (hs : Step names due r r') (hp : ∀ s ∈ due, s.path ≠ p) :
    (r'.records.get? p).map (·.fingerprint) = (r.records.get? p).map (·.fingerprint) := by
  have hrevised : (∀ {x}, r'.records.get? p = some x → r'.Revises due p (r.records.get? p) x) →
      (r.records.contains p = true → r'.records.contains p = true) →
      (r'.records.get? p).map (·.fingerprint) = (r.records.get? p).map (·.fingerprint) := by
    intro hrev hkept
    cases hx : r'.records.get? p with
    | some x => exact ((hrev hx).fingerprint hp).symm
    | none =>
      rw [contains, contains, hx] at hkept
      cases hy : r.records.get? p with
      | none => rfl
      | some y => simp [hy] at hkept
  cases hs with
  | records hs => exact hrevised hs.revised (hs.kept p)
  | @commit c summary hs =>
    rw [hs.records p (Ne.symm (hp _ hs.offered))]
    split <;> cases r.records.get? p <;> simp
  | edges hs => exact hrevised hs.revised fun hc => (hs.contains p).trans hc
  | learn hs | adopt hs | retire hs | prune hs => rw [hs.records]

theorem Steps.fingerprint (hs : Steps names due r r') (hp : ∀ s ∈ due, s.path ≠ p) :
    (r'.records.get? p).map (·.fingerprint) = (r.records.get? p).map (·.fingerprint) := by
  induction hs with
  | refl => rfl
  | tail _ hstep ih => exact (hstep.fingerprint hp).trans ih

end Run

namespace Controller

section

variable {c c' : Controller σ} {k : Conditions} {changes : List FileChange} {full : Bool}
  {finished : List String} {r : Run σ} {report : RunReport}

theorem begun_previousSettings (k : Conditions) (changes : List FileChange) (full : Bool)
    (c : Controller σ) :
    (c.begun k changes full).1.previousSettings = c.settings.enrichment.fingerprint := by
  refine Run.takeChanges_induct (I := fun r : Run σ =>
    r.previousSettings = c.settings.enrichment.fingerprint) changes
    (Run.checkSettings_previousSettings (Run.start c full) k.now) (fun r r' path h hr => ?_)
    fun r r' s h he => ?_
  · rw [Run.previousSettings_eq, hr.records, if_neg (Ne.symm hr.path_ne), if_neg (by simp),
      ← Run.previousSettings_eq]
    exact h
  · rw [Run.previousSettings_eq, he.controller, ← Run.previousSettings_eq]
    exact h

/-- After a run the settings of the run are those on record, unless a source stands in their
place. -/
theorem Ran.remembered [Sink σ] (hsources : ∀ s, .modified s ∈ changes → s.path ≠ settingsFile)
    (hran : Ran names k changes full c finished r report c') :
    (Run.start c' full).previousSettings = c.settings.enrichment.fingerprint := by
  have hdue : ∀ s ∈ (c.begun k changes full).2, s.path ≠ settingsFile := fun s hs =>
    hsources s (Run.takeChanges_due hs).2
  have hprint : (c'.records.get? settingsFile).map (·.fingerprint) =
      (r.records.get? settingsFile).map (·.fingerprint) := by
    rw [← hran.deliver_eq]
    rcases Run.deliver_records k.now finished hran.forgets settingsFile with
      heq | ⟨-, heq⟩ | ⟨hmem, -⟩
    · rw [heq]
    · rw [heq]
      cases r.records.get? settingsFile <;> simp
    · exact absurd rfl (hran.forgets _ hmem).1
  rw [Run.previousSettings_eq, ← begun_previousSettings k changes full c, Run.previousSettings_eq,
    ← Run.Steps.fingerprint hran.worked.steps hdue, ← hprint]
  rfl

end

/-! ## Rest -/

/-- Nothing waits for a run, and of what the settings declare the table and the store have all that
is left after pruning. -/
structure AtRest (names : Set String) (c : Controller MemoryStore) : Prop where
  coherent : c.Coherent names
  standard : c.plugins ⊆ Plugin.standard
  resolved : ∀ {p x}, c.records.get? p = some x → x.state = .resolved
  remembered : (Run.start c true).previousSettings = c.settings.enrichment.fingerprint
  running : c.cancelled = false
  pruned : c.table.Pruned
  consistent : c.table.inconsistency? = none
  edges : c.table.edgesOf settingsFile = Table.dropRepeats (Edge.sort c.declared)
  node : c.table.containsFile settingsFile = true ↔ c.declared ≠ []
  held : c.table.HeldBy c.sink settingsFile
  accepts : c.sink.rejections = 0
  /-- The names that the settings need are of the project; those that are pruned are not in the
  store. -/
  needs : ∀ {fqn}, Plugin.Needs c.plugins c.settings.enrichment c.view fqn → fqn ∈ names ∧
    (c.table.symbols.get? fqn = none → c.sink.nodes.get? (.ofFqn fqn) = none)

section

variable {c c' : Controller MemoryStore} {k : Conditions} {changes : List FileChange}
  {finished : List String} {r : Run MemoryStore} {report : RunReport}

/-- The settings are the last file of a full run, and only that. -/
theorem Ran.finished_eq (hsettings : c.sketches.get? settingsFile = none)
    (hsources : ∀ s, .modified s ∈ changes → s.path ≠ settingsFile) (hcalm : r.Calm)
    (hran : Ran names k changes true c finished r report c') :
    ∃ files, finished = files ++ [settingsFile] ∧ settingsFile ∉ files := by
  obtain ⟨files, hfiles, -, hsketches⟩ := hran.worked.files
  have hnot : settingsFile ∉ files := by
    intro hmem
    obtain ⟨f, hf⟩ := Option.isSome_iff_exists.1 (hsketches _ hmem).2
    rcases Run.Steps.sketches hran.worked.steps hf with hf | ⟨s, hs, hpath, -⟩
    · cases hsettings.symm.trans (begun_sketches hf)
    · exact hsources s (Run.takeChanges_due hs).2 hpath
  have hmem : settingsFile ∈ finished := (hran.worked.complete hcalm).1
    ((Run.Steps.stays hran.worked.steps).settings (begun_settingsAffected k changes c))
  refine ⟨files, hfiles.resolve_left ?_, hnot⟩
  rintro rfl
  exact hnot hmem

/-- A store that takes every batch of a full run holds the settings, and has none of the nodes that
the run forgets. -/
theorem Ran.heldBy (hc : c.Coherent names) (hsettings : c.sketches.get? settingsFile = none)
    (hsources : ∀ s, .modified s ∈ changes → s.path ≠ settingsFile) (hcalm : r.Calm)
    (hok : report.sinkFailures = 0) (hran : Ran names k changes true c finished r report c') :
    c'.table.HeldBy c'.sink settingsFile ∧ c'.sink.rejections = 0 ∧
      ∀ id, r.droppedIds.contains id = true → findId? r.table id = none →
        c'.sink.nodes.get? id = none := by
  obtain ⟨files, rfl, hnot⟩ := hran.finished_eq hsettings hsources hcalm
  obtain ⟨taken, refused, hdel⟩ := hran.delivered_groups
  have hnone := hdel.refused_eq_nil hok
  have hsound := (hran.orderly.coherent hc.distinct).sound
  have hcount : (files ++ [settingsFile]).count settingsFile ≤ 1 := by
    simp [List.count_eq_zero.2 hnot]
  have hrows : (r.table.rowsAfter taken r.sink).SameRows c'.sink :=
    MemoryStore.hasRows_iff.1 (hdel.rows (MemoryStore.hasRows_iff.2 (.refl _)))
  obtain ⟨hheld, hgone⟩ := Table.heldBy_rowsAfter (m := r.sink) hsound hran.orderly.owned (by decide)
    hcount (fun id hid => by simpa using (List.mem_filter.1 hid).2) (hdel.whole hnone)
  have hoffers := Run.deliver_offers k.now (files ++ [settingsFile]) r
  have hconc := Run.deliver_concludes k.now (files ++ [settingsFile]) r
  rw [hran.delivered] at hoffers hconc
  refine ⟨hheld.of_same hoffers.table.sameContents hrows, ?_, fun id hid hunknown => ?_⟩
  · obtain ⟨records, removed, hsink, -⟩ := hconc.sink
    rw [hsink]
    refine Run.rejections_flush (by simp) ?_
    have hfailures := hdel.failures
    rw [← hconc.sinkFailures, hok]
    rw [hok, hnone, List.length_nil, add_zero] at hfailures
    exact hfailures
  · rw [hrows.nodes]
    exact hgone id (List.mem_filter.2 ⟨mem_keys.2 hid, by simp [hunknown]⟩)

/-- A full run without failures and refused batches after which all files are resolved comes to
rest, if no source stands in the place of the settings and the settings do not mention that
place. -/
theorem Ran.atRest (hc : c.Coherent names) (hstandard : c.plugins ⊆ Plugin.standard)
    (hmentioned : settingsFile ∉ c.settings.enrichment.mentioned)
    (hw : c.Within names k changes true) (hsettings : c.sketches.get? settingsFile = none)
    (hsources : ∀ s, .modified s ∈ changes → s.path ≠ settingsFile)
    (hcalm : report.failures = [] ∧ report.cancelled = false) (hok : report.sinkFailures = 0)
    (hresolved : ∀ {p x}, c'.records.get? p = some x → x.state = .resolved)
    (hran : Ran names k changes true c finished r report c') : c'.AtRest names := by
  have hoffers := hran.offers
  have hcalm : r.Calm := ⟨hoffers.failures ▸ hcalm.1, hoffers.reportCancelled ▸ hcalm.2⟩
  obtain ⟨r₀, hsteps, hclosed⟩ := hran.closed hc hw hsettings hsources hcalm
  -- the settings of the run are those of before and after
  have hbegun := begun_setup hc.toOrderly k changes true
  have hsetup₀ := (Run.Steps.stays hsteps).setup
  have hplugins₀ : r₀.plugins = c.plugins := hsetup₀.plugins.trans hbegun.plugins
  have henrichment₀ : r₀.settings = c.settings := hsetup₀.settings.trans hbegun.settings
  obtain ⟨henrichment, -, hplugins, -⟩ := hran.sameKind hc.toOrderly
  have hgraph : r.table.SameContents c'.table := hoffers.table.sameContents
  have hnamed : ∀ {c : Controller MemoryStore}, c.Orderly names → c.view.snapshot.Named :=
    fun h _ _ hx => (h.table.symbol hx).2
  have h₀ := (hw.covered hc).steps hsteps
  -- the settings declare on the new symbols what they declared on those of the run
  have hfindings : Plugin.SameFindings c.plugins c.settings.enrichment r₀.view c'.view := by
    by_cases hnil : r₀.declared = []
    · refine Plugin.sameFindings_of_silent hstandard ?_ _
      rw [← hplugins₀, ← henrichment₀]
      exact Run.settingsEdges_eq_nil.1 hnil
    · refine Plugin.sameFindings_of_defined hstandard (hnamed h₀) (hnamed hran.after)
        fun fqn hfqn => ?_
      have hne : fqn ≠ settingsFile := fun heq => hmentioned (heq ▸ hfqn)
      refine (hclosed.settles.alike hnil fqn hne).trans ?_
      show _ = (findDefined? c'.table.snapshot fqn).isSome
      have hsnapshot : c'.table.snapshot = r.table.snapshot := by
        unfold Table.snapshot
        rw [hgraph.symbols]
      rw [hsnapshot]
  have hdeclared : c'.declared = r₀.declared := by
    unfold declared
    rw [hplugins, henrichment, hplugins₀, henrichment₀]
    exact (hfindings.settingsEdges _ _).symm
  obtain ⟨hheld, haccepts, hgone⟩ := hran.heldBy hc hsettings hsources hcalm hok
  refine ⟨hran.after.coherent hc.distinct, hplugins ▸ hstandard, hresolved, ?_, ?_, ?_, ?_, ?_, ?_,
    hheld, haccepts, fun {fqn} hneeds => ?_⟩
  · rw [henrichment]
    exact hran.remembered hsources
  · exact hoffers.cancelled.trans hclosed.running
  · exact Table.Pruned.of_same hclosed.pruned hoffers.table
  · rw [hgraph.inconsistency?_eq_none]
    exact hclosed.consistent
  · rw [hgraph.edges.edgesOf, hdeclared, hclosed.settles.edges]
  · rw [Table.containsFile, hgraph.files, hdeclared]
    exact hclosed.settles.node
  · rw [hplugins, henrichment] at hneeds
    have hneeds₀ := hfindings.needs hneeds
    rw [← hplugins₀, ← henrichment₀] at hneeds₀
    have hfqn : fqn ∈ names :=
      hclosed.known fqn (Plugin.contains_settingsEdges.2 (.inr hneeds₀))
    refine ⟨hfqn, fun hunknown => ?_⟩
    rw [hgraph.symbols] at hunknown
    have hdropped := (hclosed.settles.needs hneeds₀).resolve_left
      (by simp [contains, hunknown])
    exact hgone _ hdropped
      ((hran.orderly.coherent hc.distinct).sound.findId?_ofFqn_eq_none hfqn hunknown)

end

end Controller

end CodeAtlas
