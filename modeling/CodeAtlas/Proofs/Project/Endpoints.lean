import Mathlib
import CodeAtlas.Proofs.Project.Catalogue
import CodeAtlas.Proofs.Project.Synchrony
import CodeAtlas.Proofs.Resolve.Sources
import CodeAtlas.Proofs.Table.Namespaces

/-!
# Endpoints of edges

Cascades follow the targets of edges only. That the source of an edge is known too rests on who
chooses it: the edges of a file start at its own symbols, and go when the file goes. Two kinds of
edges are not protected by this, and both belong to the settings: an edge that starts at a declared
listener outlives the file that defined the listener, and a source that stands in the place of the
settings is resolved once more after the settings lost their node.

Main results:

* `Rooted`: every edge starts at a symbol that its owner lists, up to these exceptions, and leads to
  a known symbol.
* `Step.rooted`, `begun_rooted`, `deliver_rooted`: it is kept through a run.
* `endpoints_of_reaches`: the endpoints of all edges of a project with the standard plugins.
-/

namespace CodeAtlas

open SortedMap

variable {σ : Type} {names : Set String} {A : SourceFile → Prop}

namespace Controller

variable {c c' : Controller σ} {o p : String} {e : Edge} {f : FileSketch}

/-- The edge is one that the settings declare from a listener. -/
def ListensFor (c : Controller σ) (e : Edge) (listener : String) : Prop :=
  e.type = .listens ∧ c.settings.enrichment.DeclaresListener listener ∧ e.source = .ofFqn listener

/-- The settings declare no edge, and the table knows no file in their place. -/
def Vacant (c : Controller σ) : Prop :=
  ¬c.Declares ∧ c.table.containsFile settingsFile = false

/-- The edge starts at a symbol of a source that was offered in the place of the settings. -/
def Supplied (A : SourceFile → Prop) (c : Controller σ) (e : Edge) : Prop :=
  ∃ s f, A s ∧ s.path = settingsFile ∧ (c.registry.collect s).outcome = .done f ∧
    f.Defines e.source

/-- An edge of `o` starts at a symbol that `o` lists; the exceptions are edges of the settings. -/
def Starts (A : SourceFile → Prop) (c : Controller σ) (o : String) (e : Edge) : Prop :=
  (∃ g, c.table.Lists o g ∧ e.source = .ofFqn g) ∨
    o = settingsFile ∧ ((∃ l, c.ListensFor e l) ∨ c.Vacant ∧ c.Supplied A e)

/-- A file lists the symbols of its sketch, unless it stands in the place of the settings. -/
def Covers (c : Controller σ) (p : String) (f : FileSketch) : Prop :=
  (∀ s ∈ f.assembleSymbols, c.table.Lists p s.fqn) ∨ p = settingsFile ∧ c.Vacant

/-- Every edge leads to a known symbol. -/
def Leads (c : Controller σ) : Prop :=
  ∀ o, ∀ e ∈ c.table.edgesOf o, ∃ g, c.table.symbols.contains g = true ∧ .ofFqn g = e.target

/-- Where the edges of a project start and lead to; `A` holds of the sources that were offered. -/
structure Rooted (A : SourceFile → Prop) (c : Controller σ) : Prop where
  node : ∀ {p}, c.table.containsFile p = true → c.table.Lists p p
  sketch : ∀ {p f}, c.sketches.get? p = some f → c.Covers p f
  source : ∀ {o e}, e ∈ c.table.edgesOf o → c.Starts A o e
  target : c.Leads

/-- What is set up is the same, and so is the entry of one file. -/
structure SameEntry (c c' : Controller σ) (p : String) : Prop where
  kind : c.SameKind c'
  entry : c'.table.files.get? p = c.table.files.get? p

theorem ListensFor.of_sameKind {l : String} (h : c.ListensFor e l) (hk : c.SameKind c') :
    c'.ListensFor e l := by
  rwa [ListensFor, hk.settings]

namespace SameEntry

theorem lists (h : c.SameEntry c' p) {g : String} : c'.table.Lists p g ↔ c.table.Lists p g := by
  rw [Table.Lists, Table.Lists, getD, getD, h.entry]

theorem containsFile (h : c.SameEntry c' p) : c'.table.containsFile p = c.table.containsFile p := by
  rw [Table.containsFile, Table.containsFile, contains, contains, h.entry]

theorem vacant (h : c.SameEntry c' settingsFile) (hv : c.Vacant) : c'.Vacant := by
  refine ⟨fun hd => hv.1 ?_, h.containsFile.trans hv.2⟩
  rwa [Declares, h.kind.plugins, h.kind.settings] at hd

theorem starts (h : c.SameEntry c' o) (hs : c.Starts A o e) : c'.Starts A o e := by
  rcases hs with ⟨g, hg, hsource⟩ | ⟨rfl, ⟨l, hl⟩ | ⟨hv, hsupplied⟩⟩
  · exact .inl ⟨g, h.lists.2 hg, hsource⟩
  · exact .inr ⟨rfl, .inl ⟨l, hl.of_sameKind h.kind⟩⟩
  · refine .inr ⟨rfl, .inr ⟨h.vacant hv, ?_⟩⟩
    rwa [Supplied, h.kind.registry]

theorem covers (h : c.SameEntry c' p) (hc : c.Covers p f) : c'.Covers p f := by
  rcases hc with hl | ⟨rfl, hv⟩
  · exact .inl fun s hs => h.lists.2 (hl s hs)
  · exact .inr ⟨rfl, h.vacant hv⟩

end SameEntry

namespace Rooted

/-- One file changes in the table; elsewhere edges and sketches are at most lost. -/
theorem of_entry (h : c.Rooted A) (file : String) (hsame : ∀ p, p ≠ file → c.SameEntry c' p)
    (hsketches : ∀ {p f}, p ≠ file → c'.sketches.get? p = some f → c.sketches.get? p = some f)
    (hedges : ∀ {o e}, o ≠ file → e ∈ c'.table.edgesOf o → e ∈ c.table.edgesOf o)
    (hnode : c'.table.containsFile file = true → c'.table.Lists file file)
    (hsketch : ∀ {f}, c'.sketches.get? file = some f → c'.Covers file f)
    (hsource : ∀ {e}, e ∈ c'.table.edgesOf file → c'.Starts A file e) (htarget : c'.Leads) :
    c'.Rooted A := by
  refine ⟨fun {p} hp => ?_, fun {p f} hf => ?_, fun {o e} he => ?_, htarget⟩
  · by_cases hpf : p = file
    · subst hpf
      exact hnode hp
    · rw [(hsame p hpf).containsFile] at hp
      exact (hsame p hpf).lists.2 (h.node hp)
  · by_cases hpf : p = file
    · subst hpf
      exact hsketch hf
    · exact (hsame p hpf).covers (h.sketch (hsketches hpf hf))
  · by_cases hof : o = file
    · subst hof
      exact hsource he
    · exact (hsame o hof).starts (h.source (hedges hof he))

/-- The files of the table are the same; edges and sketches are at most lost. -/
theorem of_files (h : c.Rooted A) (hsame : ∀ p, c.SameEntry c' p)
    (hsketches : ∀ {p f}, c'.sketches.get? p = some f → c.sketches.get? p = some f)
    (hedges : ∀ {o e}, e ∈ c'.table.edgesOf o → e ∈ c.table.edgesOf o) (htarget : c'.Leads) :
    c'.Rooted A where
  node hp := (hsame _).lists.2 (h.node ((hsame _).containsFile ▸ hp))
  sketch hf := (hsame _).covers (h.sketch (hsketches hf))
  source he := (hsame _).starts (h.source (hedges he))
  target := htarget

/-- A sketch of a file that the table does not know stands in the place of the settings. -/
theorem vacant_of_sketch (h : c.Rooted A) (hnone : c.table.files.get? p = none)
    (hf : c.sketches.get? p = some f) : c.Vacant := by
  rcases h.sketch hf with hl | ⟨-, hv⟩
  · have hmem := hl f.fileSymbol (List.mem_cons_self ..)
    rw [Table.Lists, getD_of_none hnone] at hmem
    cases hmem
  · exact hv

end Rooted

theorem IsNew.rooted (h : c.IsNew) : c.Rooted A := by
  have hedges : ∀ {o e}, e ∉ c.table.edgesOf o := by
    intro o e he
    rw [h.table] at he
    cases he
  refine ⟨fun hp => ?_, fun hf => ?_, fun he => absurd he hedges, fun _ _ he => absurd he hedges⟩
  · rw [h.table] at hp
    cases hp
  · rw [Run.get?_sketches, h.records] at hf
    cases hf

namespace Leads

theorem of_update (h : c.Leads) {file : String} {fresh : String → Prop} {removed : IdSet}
    {stale : StringSet} (hup : Table.Update names file fresh removed stale c.table c'.table) :
    c'.Leads := by
  intro o e he
  obtain ⟨g, hg, hid⟩ := h o e (hup.mem_edgesOf he)
  have hkept : removed.contains e.target = false := by
    by_cases ho : o = file
    · exact (hup.own e (ho ▸ he)).2
    · rw [hup.edges o ho, List.mem_filter] at he
      simpa using he.2
  obtain ⟨s, hs⟩ := contains_iff.1 hg
  obtain ⟨s', hs', -⟩ := hup.survives hs (hid ▸ hkept)
  exact ⟨g, contains_of_get? hs', hid⟩

theorem of_same (h : c.Leads) (hs : c.table.SameGraph c'.table) : c'.Leads := by
  intro o e he
  obtain ⟨g, hg, hid⟩ := h o e (hs.edges.edgesOf o ▸ he)
  exact ⟨g, hs.symbols.symbols ▸ hg, hid⟩

end Leads

end Controller

open Controller (Rooted SameEntry Leads)

namespace Run

variable {due : List SourceFile} {r r' : Run σ}

/-! ## Steps -/

theorem Stays.sameEntry (hs : Stays due r r') {p : String}
    (hentry : r'.table.files.get? p = r.table.files.get? p) : r.SameEntry r'.toController p :=
  ⟨hs.setup.sameKind, hentry⟩

variable (hplug : r.plugins ⊆ Plugin.standard) (h : r.Rooted A)

include h

theorem RecordsStep.rooted (hs : RecordsStep due r r') : r'.Rooted A :=
  h.of_files (fun _ => hs.toStays.sameEntry (by rw [hs.same.symbols.files]))
    (fun hf => Controller.sketches_of_collection? (hs.collection? _) ▸ hf)
    (fun he => hs.same.edges.edgesOf _ ▸ he) (h.target.of_same hs.same)

theorem CommitStep.rooted {c : Collected} {summary : CommitSummary}
    (hs : CommitStep due c summary r r') (hc : r.Covered names due) : r'.Rooted A := by
  have hup := hs.update hc
  obtain ⟨n, -, -, hcol⟩ := hs.collection?
  have hlists : ∀ s ∈ c.symbols, r'.table.Lists c.source.path s.fqn := by
    obtain ⟨t, ht, hsame⟩ := hs.table
    obtain ⟨entry, hfiles, hentry⟩ := Table.commitFile_entry ht
    intro s hmem
    rw [Table.Lists, hsame.symbols.files, hfiles, getD_insert, if_pos rfl]
    exact hentry s hmem
  refine h.of_entry c.source.path (fun p hp => hs.toStays.sameEntry (hup.files p hp))
    (fun hp hf => Controller.sketches_of_collection? (hs.collection?_of_ne hp) ▸ hf)
    (fun _ he => hup.mem_edgesOf he) (fun _ => ?_) (fun {f} hf => .inl ?_) (fun he => ?_)
    (h.target.of_update hup)
  · have hnode := hlists c.sketches.fileSymbol (List.mem_cons_self ..)
    rwa [show c.sketches.fileSymbol.fqn = c.source.path from hs.path.1] at hnode
  · rw [Controller.get?_sketches_eq_map, hcol] at hf
    cases hf
    exact hlists
  · have hold := (hup.own _ he).1
    rw [hs.blank] at hold
    cases hold

include hplug in
/-- What a pass finds starts at a symbol that the owner lists. -/
theorem Traced.starts {e : Edge} (ht : r.Traced e) (hc : r.Orderly names) (hsrc : r.Sourced A) :
    r.Starts A e.owner e := by
  obtain ⟨v, f, found, rfl, -, ⟨p, hp⟩, -, hfinds⟩ := ht
  obtain ⟨howner, hdefines⟩ : found.edge.owner = f.path ∧ f.Defines found.edge.source := by
    rcases hfinds with hfound | ⟨plugin, hmem, l, hl, hfound⟩
    · exact v.findings_starts hfound
    · exact Plugin.standard_starts (hplug hmem) hl hfound
  rw [howner, sketch_path hc hp]
  rcases h.sketch hp with hl | ⟨rfl, hv⟩
  · obtain ⟨s, hs, hid⟩ := hdefines
    exact .inl ⟨s.fqn, hl s hs, hid ▸ f.assembleSymbols_id hs⟩
  · obtain ⟨x, hx, rfl⟩ := Option.map_eq_some_iff.1 (Controller.get?_sketches_eq_map .. ▸ hp)
    obtain ⟨s, hA, hpath, -, hcollected⟩ := hsrc.origin hx
    exact .inr ⟨rfl, .inr ⟨hv, s, _, hA, hpath, hcollected, hdefines⟩⟩

include hplug in
/-- What the settings declare starts at their node or at a listener. -/
theorem Declared.starts {e : Edge} (hd : r.Declared e) : r.Starts A e.owner e := by
  obtain ⟨hknown, v, hv, plugin, hmem, he⟩ := hd
  obtain ⟨howner, hsource⟩ :=
    Plugin.standard_settings_starts (hplug (List.mem_filter.1 hmem).1) hv he
  rw [howner]
  rcases hsource with hsource | ⟨htype, l, hl, hsource⟩
  · exact .inl ⟨settingsFile, h.node hknown, hsource⟩
  · exact .inr ⟨rfl, .inl ⟨l, htype, hl, hsource⟩⟩

include hplug in
theorem EdgesStep.rooted {path : String} {edges : List Edge} (hs : EdgesStep due path edges r r')
    (hc : r.Coherent names) (hsrc : r.Sourced A) : r'.Rooted A := by
  have hsame : ∀ p, r.SameEntry r'.toController p := fun p =>
    hs.toStays.sameEntry (by rw [hs.rewires.same.files])
  have hleads : r'.Leads := by
    intro o e he
    rw [hs.rewires.same.symbols]
    rw [hs.rewires.edgesOf] at he
    split at he
    · rcases hs.targets e he with hold | hid
      · exact h.target path e hold
      · obtain ⟨g, hg⟩ := contains_iff.1 hid
        exact ⟨g, (hc.sound.indexed _ _).1 hg⟩
    · exact h.target o e he
  refine h.of_entry path (fun p _ => hsame p)
    (fun _ hf => Controller.sketches_of_collection? (hs.collection? _) ▸ hf) (fun ho he => ?_)
    (fun hp => (hsame path).lists.2 (h.node ((hsame path).containsFile ▸ hp)))
    (fun hf => (hsame path).covers
      (h.sketch (Controller.sketches_of_collection? (hs.collection? _) ▸ hf)))
    (fun {e} he => (hsame path).starts ?_) hleads
  · rwa [hs.rewires.edgesOf, if_neg ho] at he
  · rw [hs.rewires.edgesOf, if_pos rfl] at he
    rcases hs.origin e he with hold | ht | hd
    · exact h.source hold
    · exact hs.owned e he ▸ ht.starts hplug h hc.toOrderly hsrc
    · exact hs.owned e he ▸ hd.starts hplug h

theorem LearnStep.rooted (hs : LearnStep names due r r') : r'.Rooted A := by
  refine h.of_files (fun _ => hs.toStays.sameEntry (by rw [hs.taught.files]))
    (fun hf => Controller.sketches_of_collection?
      (Controller.collection?_of_records hs.records _) ▸ hf)
    (fun he => hs.taught.edges.edgesOf _ ▸ he) fun o e he => ?_
  obtain ⟨g, hg, hid⟩ := h.target o e (hs.taught.edges.edgesOf o ▸ he)
  exact ⟨g, hs.taught.contains hg, hid⟩

theorem AdoptStep.rooted (hs : AdoptStep due r r') (hc : r.Covered names due) : r'.Rooted A := by
  obtain ⟨summary, ht⟩ := hs.table
  have hup := Table.commitFile_update hc.table hc.counted (by decide)
    (settingsSymbol_usesNames hc.settings) ht
  have hsketches : ∀ {p f}, r'.sketches.get? p = some f → r.sketches.get? p = some f := fun hf =>
    Controller.sketches_of_collection? (Controller.collection?_of_records hs.records _) ▸ hf
  -- the settings declare an edge, so that no source stands in their place
  have hoccupied : ¬r.Vacant := fun hv => hv.1 hs.declared
  refine h.of_entry settingsFile (fun p hp => hs.toStays.sameEntry (hup.files p hp))
    (fun _ hf => hsketches hf) (fun _ he => hup.mem_edgesOf he) (fun _ => ?_)
    (fun hf => absurd (h.vacant_of_sketch hs.unknown (hsketches hf)) hoccupied) (fun he => ?_)
    (h.target.of_update hup)
  · obtain ⟨entry, hfiles, hentry⟩ := Table.commitFile_entry ht
    rw [Table.Lists, hfiles, getD_insert, if_pos rfl]
    exact hentry settingsSymbol (List.mem_singleton_self _)
  · rcases h.source (hup.own _ he).1 with ⟨g, hg, -⟩ | ⟨-, ⟨l, hl⟩ | ⟨hv, -⟩⟩
    · rw [Table.Lists, getD_of_none hs.unknown] at hg
      cases hg
    · refine .inr ⟨rfl, .inl ⟨l, ?_⟩⟩
      rwa [Controller.ListensFor, hs.setup.settings]
    · exact absurd hv hoccupied

include hplug in
theorem RetireStep.rooted (hs : RetireStep due r r') (hc : r.Orderly names) : r'.Rooted A := by
  obtain ⟨hup, hnil, hnone⟩ := Table.removeFile_update hc.table hc.counted settingsFile
  rw [← hs.table] at hup hnil hnone
  have hunknown : r'.table.containsFile settingsFile = false := contains_eq_false_iff.2 hnone
  have hvacant : r'.Vacant := by
    refine ⟨fun hd => ?_, hunknown⟩
    obtain ⟨v, hv⟩ := hs.toStays.declares.1 hd
    obtain ⟨v', hv'⟩ := hs.undeclared
    exact hv (Plugin.steady_of_subset_standard hplug _ v' v hv')
  refine h.of_entry settingsFile (fun p hp => hs.toStays.sameEntry (hup.files p hp))
    (fun _ hf => Controller.sketches_of_collection?
      (Controller.collection?_of_records hs.records _) ▸ hf) (fun _ he => hup.mem_edgesOf he)
    (fun hp => ?_) (fun _ => .inr ⟨rfl, hvacant⟩) (fun he => ?_) (h.target.of_update hup)
  · rw [hunknown] at hp
    cases hp
  · rw [hnil] at he
    cases he

theorem PruneStep.rooted (hs : PruneStep due r r') (hc : r.Orderly names) : r'.Rooted A := by
  obtain ⟨hedges, hfiles, -, -, hsym, -⟩ :=
    Table.pruneExternals_spec fun hs => (hc.table.symbol hs).1
  rw [← hs.table] at hedges hfiles hsym
  refine h.of_files (fun _ => hs.toStays.sameEntry (by rw [hfiles]))
    (fun hf => Controller.sketches_of_collection?
      (Controller.collection?_of_records hs.records _) ▸ hf)
    (fun he => hedges.edgesOf _ ▸ he) fun o e he => ?_
  rw [hedges.edgesOf] at he
  obtain ⟨g, hg, hid⟩ := h.target o e he
  obtain ⟨s, hg⟩ := contains_iff.1 hg
  -- what an edge targets is no orphan
  have hdep := hc.counted.contains_dependents.2 ⟨o, e, he, rfl⟩
  have hkeep : r.table.isOrphan s = false := by
    rw [← hid, ← (hc.table.symbol hg).2] at hdep
    simp [Table.isOrphan, hdep]
  refine ⟨g, contains_of_get? (a := s) ?_, hid⟩
  simp [hsym, hg, Option.filter, hkeep]

include hplug in
theorem Step.rooted (hs : Step names due r r') (hc : r.Covered names due)
    (hd : Set.InjOn SymbolId.ofFqn names) (hsrc : r.Sourced A) : r'.Rooted A := by
  cases hs with
  | records hs | learn hs => exact hs.rooted h
  | commit hs | adopt hs => exact hs.rooted h hc
  | edges hs => exact hs.rooted hplug h ⟨hc, hd⟩ hsrc
  | retire hs => exact hs.rooted hplug h hc.toOrderly
  | prune hs => exact hs.rooted h hc.toOrderly

include hplug in
theorem Steps.rooted (hs : Steps names due r r') (hc : r.Covered names due)
    (hd : Set.InjOn SymbolId.ofFqn names) (hA : ∀ s ∈ due, A s) (ht : r.Tallies A) :
    r'.Rooted A := by
  induction hs with
  | refl => exact h
  | tail hs hstep ih =>
    exact hstep.rooted ((Steps.stays hs).setup.plugins ▸ hplug) ih (hc.steps hs) hd
      (Steps.tallies hs hc hA ht).1

/-! ## The beginning and the end of a run -/

theorem checkSettings_rooted (hc : r.Orderly names) (now : Timestamp) :
    (r.checkSettings now).Rooted A := by
  obtain ⟨-, hcar⟩ : _ ∧ Carries (fun _ => True) _ _ := checkSettings_carries hc now
  have htable := checkSettings_table r now
  refine h.of_files (fun _ => ⟨hcar.setup.sameKind, by rw [htable]⟩)
    (fun hf => checkSettings_sketches r now hf) (fun he => htable ▸ he)
    (h.target.of_same (by rw [htable]))

theorem Removal.rooted {path : String} (hc : r.Orderly names) (hr : Removal path r r') :
    r'.Rooted A := by
  obtain ⟨hup, hnil, hnone⟩ := Table.removeFile_update hc.table hc.counted path
  rw [← hr.table] at hup hnil hnone
  refine h.of_entry path (fun p hp => ⟨hr.setup.sameKind, hup.files p hp⟩)
    (fun _ hf => hr.sketches hf) (fun _ he => hup.mem_edgesOf he) (fun hp => ?_)
    (fun hf => ?_) (fun he => ?_) (h.target.of_update hup)
  · rw [Table.containsFile, contains, hnone] at hp
    cases hp
  · rw [Controller.get?_sketches_eq_map, hr.collection?, if_pos rfl] at hf
    cases hf
  · rw [hnil] at he
    cases he

theorem deliver_rooted [Sink σ] (hf : r.Forgets) (now : Timestamp) (finished : List String) :
    (r.deliver now finished).2.Rooted A := by
  have hoffers := deliver_offers now finished r
  refine h.of_files
    (fun _ => ⟨⟨hoffers.settings, hoffers.registry, hoffers.plugins, hoffers.root⟩,
      by rw [hoffers.table.symbols.files]⟩)
    (fun hf' => Controller.sketches_of_collection? (deliver_collection? hf now finished _) ▸ hf')
    (fun he => hoffers.table.edges.edgesOf _ ▸ he) (h.target.of_same hoffers.table)

end Run

/-! ## Every state of a project -/

namespace Controller

theorem begun_rooted {c : Controller σ} (hc : c.Orderly names) (h : c.Rooted A) (k : Conditions)
    (changes : List FileChange) (full : Bool) : (c.begun k changes full).1.Rooted A := by
  have hstart := Run.start_orderly hc full
  have hrooted : (Run.start c full).Rooted A := ⟨h.node, h.sketch, h.source, h.target⟩
  exact Run.takeChanges_keeps (J := fun c => c.Rooted A) (Run.checkSettings_orderly hstart k.now)
    changes (Run.checkSettings_rooted hrooted hstart k.now) fun _ _ _ hc h hr => hr.rooted h hc

section

variable [Sink σ] {P : RunKind σ} {Q : σ → σ → Prop} {c c' c₀ : Controller σ}

theorem Ran.rooted {k : Conditions} {changes : List FileChange} {full : Bool}
    {finished : List String} {r : Run σ} {report : RunReport} (hc : c.Coherent names)
    (hw : c.Within names k changes full) (hplug : c.plugins ⊆ Plugin.standard)
    (hA : ∀ s, .modified s ∈ changes → A s) (ht : c.Tallies A) (h : c.Rooted A)
    (hran : Ran names k changes full c finished r report c') : c'.Rooted A := by
  have hsetup := begun_setup hc.toOrderly k changes full
  have hr := Run.Steps.rooted (hsetup.plugins ▸ hplug) (begun_rooted hc.toOrderly h k changes full)
    hran.worked.steps (hw.covered hc) hc.distinct (fun s hs => hA s (Run.takeChanges_due hs).2)
    (begun_tallies ht k changes full)
  exact hran.deliver_eq ▸ Run.deliver_rooted hr hran.forgets k.now finished

theorem Reaches.tallies_rooted (hnew : c₀.IsNew) (hplug : c₀.plugins ⊆ Plugin.standard)
    (hinj : Set.InjOn SymbolId.ofFqn names)
    (hA : ∀ {k changes full c report}, P k changes full c report →
      ∀ s, .modified s ∈ changes → A s) (h : Reaches names P Q c₀ c) :
    c.Tallies A ∧ c.Rooted A := by
  refine h.induct (I := fun c => c.Tallies A ∧ c.Rooted A) hnew.orderly
    ⟨hnew.tallies, hnew.rooted⟩ (fun hc hsame hw hP ⟨ht, h⟩ hran => ?_)
    fun _ ⟨⟨hs, l, hl⟩, h⟩ => ⟨⟨hs.of_le le_rfl rfl id, l, hl.records, hl.entries, hl.ordered⟩,
      h.node, h.sketch, h.source, h.target⟩
  exact ⟨hran.tallies hc hw (hA hP) ht,
    hran.rooted (hc.coherent hinj) hw (hsame.plugins ▸ hplug) (hA hP) ht h⟩

/-- Both endpoints of every edge of a project with the standard plugins are known, after any runs:
its target always, its source unless the edge belongs to the settings, and either starts at a
declared listener that the project does not know any more, or was found in a source that was offered
in the place of settings which declare nothing and have lost their node. -/
theorem endpoints_of_reaches (hnew : c₀.IsNew) (hplug : c₀.plugins ⊆ Plugin.standard)
    (hinj : Set.InjOn SymbolId.ofFqn names)
    (hA : ∀ {k changes full c report}, P k changes full c report →
      ∀ s, .modified s ∈ changes → A s) (h : Reaches names P Q c₀ c) :
    ∀ e ∈ c.table.allEdges, (∃ s, SymbolLookup.findId? c.table e.target = some s) ∧
      ((∃ s, SymbolLookup.findId? c.table e.source = some s) ∨
        e.owner = settingsFile ∧ ((∃ l, c.ListensFor e l ∧ c.table.symbols.get? l = none) ∨
          c.Vacant ∧ c.Supplied A e)) := by
  intro e he
  obtain ⟨o, ho⟩ := Table.mem_allEdges.1 he
  obtain ⟨hc, -⟩ := h.coherent_sameKind (hnew.coherent hinj)
  obtain ⟨⟨-, l, hcat⟩, hroot⟩ := h.tallies_rooted hnew hplug hinj hA
  have hfound : ∀ {g id}, c.table.symbols.contains g = true → .ofFqn g = id →
      ∃ s, SymbolLookup.findId? c.table id = some s := by
    rintro g id hg rfl
    obtain ⟨s, hs⟩ := contains_iff.1 hg
    obtain ⟨hfqn, hid⟩ := hc.sound.symbol hs
    exact ⟨s, hc.sound.findId?_eq_some.2 ⟨hfqn.symm ▸ hs, hid⟩⟩
  obtain ⟨g, hg, htarget⟩ := hroot.target o e ho
  refine ⟨hfound hg htarget, ?_⟩
  rw [hc.owned ho]
  rcases hroot.source ho with ⟨g, hg, hsource⟩ | ⟨rfl, ⟨l, hl⟩ | hv⟩
  · exact .inl (hfound (hcat.records.contains_of_listed hg) hsource.symm)
  · cases hs : c.table.symbols.get? l with
    | none => exact .inr ⟨rfl, .inl ⟨l, hl, hs⟩⟩
    | some s => exact .inl (hfound (contains_of_get? hs) hl.2.2.symm)
  · exact .inr ⟨rfl, .inr hv⟩

end

/-- Two files, of which the settings make the first one listen to an event. -/
def leaving : Controller MemoryStore :=
  { ofSketches [.extending "a.go" "T", .extending "b.go" "T"] with
    settings := { enrichment := { events := { listeners := .ofList [("e", ["a.go"])] } } } }

def leavingNames : List String := [settingsFile, "a.go", "b.go", "T", "event:e"]

theorem runs_leaving : (leavingNames.map SymbolId.ofFqn).Nodup ∧
    leaving.usesOnly leavingNames {} [.seen "a.go", .seen "b.go"] false = true ∧
    ∃ x, leaving.run {} [.seen "a.go", .seen "b.go"] false = .ok x ∧
      x.2.usesOnly leavingNames {} [.removed "a.go"] false = true ∧
      ∃ y, x.2.run {} [.removed "a.go"] false = .ok y ∧
        y.2.table.allEdges.map
            (fun e => (e.owner, (SymbolLookup.findId? y.2.table e.source).isSome)) =
          [("b.go", true), (settingsFile, false)] := by
  decide +kernel

/-- The listener is removed. Both endpoints of the edge of the other file are known; the edge of the
settings starts at nothing. -/
theorem endpoints_of_reaches_leaving : ∃ c, Reaches {n | n ∈ leavingNames}
      (fun _ changes _ _ _ => ∀ s, .modified s ∈ changes → s.path ≠ settingsFile)
      (fun _ _ => True) leaving c ∧
    c.table.allEdges.map (fun e => (e.owner, (SymbolLookup.findId? c.table e.source).isSome)) =
      [("b.go", true), (settingsFile, false)] ∧
    ∀ e ∈ c.table.allEdges, (∃ s, SymbolLookup.findId? c.table e.target = some s) ∧
      ((∃ s, SymbolLookup.findId? c.table e.source = some s) ∨
        e.owner = settingsFile ∧ ((∃ l, c.ListensFor e l ∧ c.table.symbols.get? l = none) ∨
          c.Vacant ∧ c.Supplied (fun s => s.path ≠ settingsFile) e)) := by
  obtain ⟨hnodup, huses, ⟨report, c₁⟩, hrun, huses', ⟨report', c⟩, hrun', hedges⟩ := runs_leaving
  have hreach : Reaches {n | n ∈ leavingNames}
      (fun _ changes _ _ _ => ∀ s, .modified s ∈ changes → s.path ≠ settingsFile)
      (fun _ _ => True) leaving c :=
    .run (.run .start (within_of_usesOnly huses) (by decide) hrun) (within_of_usesOnly huses')
      (by decide) hrun'
  exact ⟨c, hreach, hedges, endpoints_of_reaches (A := fun s => s.path ≠ settingsFile)
    ⟨rfl, rfl, rfl⟩ (List.Subset.refl _) (injOn_ofFqn hnodup) (fun h => h) hreach⟩

end Controller

end CodeAtlas
