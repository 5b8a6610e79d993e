import Mathlib
import CodeAtlas.Project.Workspace
import CodeAtlas.Proofs.Project.Catalogue
import CodeAtlas.Proofs.Project.Repetition

/-!
# Bringing a project up to date twice

To bring a project up to date, its files are read and what is on record without being there any
more is removed. If the run over that goes well, the project has all sources that were read and
records of nothing else, so that reading the same files again shows nothing new.

Main results:

* `Controller.sync_eq_ok`: what a synchronisation runs over.
* `Controller.Ran.hasSource`, `Controller.Ran.recorded`: what is on record after a run.
* `Controller.resync_changes_nothing`: a second synchronisation changes nothing.
-/

namespace CodeAtlas

open SortedMap

variable {σ : Type} {names : Set String}

/-! ## Files of a project -/

namespace Workspace

variable {w : Workspace} {registry : Registry} {root : String} {present : List (String × String)}
  {x y : String × String}

/-- The sources among some files. -/
def sources (w : Workspace) (root : String) (present : List (String × String)) : List SourceFile :=
  present.filterMap fun x => w.source? root x.1 x.2

theorem path_of_source? {path language : String} {s : SourceFile}
    (h : w.source? root path language = some s) : s.path = path := by
  obtain ⟨bytes, -, rfl⟩ := Option.map_eq_some_iff.1 h
  rfl

theorem paths_sources (h : ∀ x ∈ present, (w.source? root x.1 x.2).isSome = true) :
    (w.sources root present).map (·.path) = present.map (·.1) := by
  induction present with
  | nil => rfl
  | cons x rest ih =>
    obtain ⟨s, hs⟩ := Option.isSome_iff_exists.1 (h x (List.mem_cons_self ..))
    have hcons : w.sources root (x :: rest) = s :: w.sources root rest :=
      List.filterMap_cons_some (f := fun x : String × String => w.source? root x.1 x.2) hs
    rw [hcons, List.map_cons, List.map_cons, path_of_source? hs,
      ih fun y hy => h y (List.mem_cons_of_mem _ hy)]

section

variable (h : w.projectFiles? registry root = some present)

include h

/-- A file of a project has a language by its path, or it is the root. -/
theorem projectFiles?_cases : (∃ language, ∀ x ∈ present, x = ("", language)) ∨
      ∀ x ∈ present, (registry.forPath? x.1).map (·.language) = some x.2 := by
  unfold projectFiles? at h
  split at h
  · left
    obtain rfl := Option.some.inj h
    cases registry.forPath? root with
    | none => exact ⟨"", by simp⟩
    | some c => exact ⟨c.language, by simp⟩
  · right
    split at h
    · obtain ⟨place, -, rfl⟩ := Option.map_eq_some_iff.1 h
      intro x hx
      obtain ⟨path, -, hpath⟩ := List.mem_filterMap.1 (List.mem_mergeSort.1 hx)
      obtain ⟨parts, -, hparts⟩ := Option.bind_eq_some_iff.1 hpath
      split at hparts
      · cases hparts
      · obtain ⟨c, hc, rfl⟩ := Option.map_eq_some_iff.1 hparts
        simp [hc]
    · cases h

theorem path_ne_settingsFile
    (hlanguage : registry.forPath? settingsFile = none) (hx : x ∈ present) :
    x.1 ≠ settingsFile := by
  intro heq
  rcases projectFiles?_cases h with ⟨language, hroot⟩ | hlanguages
  · have hne : "" ≠ settingsFile := by decide
    rw [hroot x hx] at heq
    exact hne heq
  · have := hlanguages x hx
    rw [heq, hlanguage] at this
    cases this

/-- The path of a file tells its language. -/
theorem eq_of_path_eq (hx : x ∈ present) (hy : y ∈ present) (heq : x.1 = y.1) : x = y := by
  rcases projectFiles?_cases h with ⟨language, hroot⟩ | hlanguages
  · rw [hroot x hx, hroot y hy]
  · refine Prod.ext heq (Option.some.inj ?_)
    rw [← hlanguages x hx, ← hlanguages y hy, heq]

end

end Workspace

/-! ## Plans -/

namespace Plan

theorem contains_modified_foldl {changes : List FileChange} {plan : Plan} {s : SourceFile}
    (h : plan.modified.contains s.path = true ∨ .modified s ∈ changes)
    (hkept : .removed s.path ∉ changes) :
    (changes.foldl add plan).modified.contains s.path = true := by
  induction changes generalizing plan with
  | nil => exact h.resolve_right (by simp)
  | cons x rest ih =>
    have hrest : .removed s.path ∉ rest := fun hmem => hkept (List.mem_cons_of_mem _ hmem)
    refine ih ?_ hrest
    rcases h with h | h
    · left
      cases x with
      | removed path =>
        have hne : s.path ≠ path := fun heq => hkept (heq ▸ List.mem_cons_self ..)
        simp [add, contains_erase, h, hne]
      | modified s' => simp [add, contains_insert, h]
    · rcases List.mem_cons.1 h with rfl | h
      · left
        simp [add, contains_insert]
      · exact .inr h

theorem contains_removals_foldl {changes : List FileChange} {plan : Plan} {p : String}
    (h : plan.removals.contains p = true ∨ .removed p ∈ changes)
    (hgone : ∀ s, .modified s ∈ changes → s.path ≠ p) :
    (changes.foldl add plan).removals.contains p = true := by
  induction changes generalizing plan with
  | nil => exact h.resolve_right (by simp)
  | cons x rest ih =>
    have hrest : ∀ s, .modified s ∈ rest → s.path ≠ p :=
      fun s hs => hgone s (List.mem_cons_of_mem _ hs)
    refine ih ?_ hrest
    rcases h with h | h
    · left
      cases x with
      | removed path => simp [add, StringSet.contains_add, h]
      | modified s =>
        have hne : p ≠ s.path := Ne.symm (hgone s (List.mem_cons_self ..))
        simp [add, contains_erase, h, hne]
    · rcases List.mem_cons.1 h with rfl | h
      · left
        simp [add, StringSet.contains_add]
      · exact .inr h

end Plan

/-! ## What is on record after a run -/

namespace Run

variable {r : Run σ} {changes : List FileChange} {s : SourceFile}

theorem hasSource_of_need (h : FileRecord.need s.fingerprint (r.records.get? s.path) ≠ .collection) :
    r.HasSource s := by
  rw [Controller.hasSource_iff]
  cases hx : r.records.get? s.path with
  | none => exact absurd (by rw [hx]; rfl) h
  | some x =>
    refine ⟨x, rfl, ?_⟩
    by_contra hnot
    refine h ?_
    rw [hx, FileRecord.need, if_neg (by simpa using hnot)]

theorem foldl_examine_collection? (l : List SourceFile) (acc : Run σ × List SourceFile) (p : String) :
    (l.foldl examine acc).1.collection? p = acc.1.collection? p := by
  induction l generalizing acc with
  | nil => rfl
  | cons s rest ih =>
    refine (ih _).trans ?_
    rw [show examine acc s = examine (acc.1, acc.2) s from rfl,
      (examine_examined acc.1 acc.2 s).1.controller]

/-- A planned file is to be collected, or its content is known. -/
theorem takeChanges_hasSource (h : (r.plan changes).modified.get? s.path = some s) :
    s ∈ (r.takeChanges changes).2 ∨ (r.takeChanges changes).1.HasSource s := by
  unfold takeChanges
  set r' := (r.plan changes).removals.toList.foldl removeFile r
  by_cases hneed : FileRecord.need s.fingerprint (r'.records.get? s.path) = .collection
  · exact .inl (mem_foldl_examine_of_need (.inr ⟨mem_values.2 ⟨_, h⟩, hneed⟩))
  · right
    unfold Controller.HasSource
    rw [foldl_examine_collection?]
    exact hasSource_of_need hneed

theorem takeChanges_removes {p : String} (hp : p ≠ settingsFile)
    (hc : r.records.contains p = true) (hmem : .removed p ∈ changes)
    (hgone : ∀ s, .modified s ∈ changes → s.path ≠ p) : p ∈ (r.takeChanges changes).1.removed := by
  have hplan : (r.plan changes).removals.contains p = true :=
    Plan.contains_removals_foldl (.inr hmem) hgone
  unfold takeChanges
  rw [foldl_examine_removed]
  exact mem_foldl_removeFile hp (.inr ⟨StringSet.mem_toList.2 hplan, hc⟩)

end Run

namespace Controller

section

variable [Sink σ] {c c' : Controller σ} {k : Conditions} {changes : List FileChange} {full : Bool}
  {finished : List String} {r : Run σ} {report : RunReport} {s : SourceFile}

/-- A run without failures has the sources of its changes. -/
theorem Ran.hasSource (hcalm : r.Calm) (hran : Ran names k changes full c finished r report c')
    (hmem : .modified s ∈ changes) (hkept : .removed s.path ∉ changes)
    (hsame : ∀ s', .modified s' ∈ changes → s'.path = s.path → s' = s) : c'.HasSource s := by
  have hplan : (((Run.start c full).checkSettings k.now).plan changes).modified.get? s.path =
      some s := by
    obtain ⟨s', hs'⟩ := contains_iff.1 (Plan.contains_modified_foldl (.inr hmem) hkept)
    obtain ⟨hpath, hmem'⟩ := (Run.plan_fits _ changes).modified hs'
    rwa [hsame s' hmem' hpath] at hs'
  have hr : r.HasSource s := by
    by_cases hdue : s ∈ (c.begun k changes full).2
    · obtain ⟨-, f, x, -, hx, hprint, hf⟩ := (hran.worked.complete hcalm).2 s hdue
      exact hasSource_iff.2 ⟨x, hx, hprint, Option.isSome_of_eq_some hf⟩
    · have hnot : ∀ s' ∈ (c.begun k changes full).2, s'.path ≠ s.path := by
        intro s' hs' hpath
        exact hdue (hsame s' (Run.takeChanges_due hs').2 hpath ▸ hs')
      unfold HasSource
      rw [Run.Steps.collection?_eq hran.worked.steps hnot]
      exact (Run.takeChanges_hasSource hplan).resolve_left hdue
  unfold HasSource
  rw [← hran.deliver_eq, Run.deliver_collection? hran.forgets]
  exact hr

/-- A file is resolved after a run if it was offered, or it was on record and is not removed. -/
theorem Ran.recorded {p : String} {x : FileRecord} (hsettings : c.sketches.get? settingsFile = none)
    (hran : Ran names k changes full c finished r report c') (hp : p ≠ settingsFile)
    (hx : c'.records.get? p = some x) (hresolved : x.state = .resolved) :
    (∃ s, .modified s ∈ changes ∧ s.path = p) ∨
      c.records.contains p = true ∧ .removed p ∉ changes := by
  have hr : r.records.contains p = true := by
    rw [← hran.deliver_eq] at hx
    rcases Run.deliver_records k.now finished hran.forgets p with heq | ⟨-, heq⟩ | ⟨-, heq⟩
    · exact contains_of_get? (heq ▸ hx)
    · obtain ⟨y, hy, -⟩ := Option.map_eq_some_iff.1 (heq ▸ hx)
      exact contains_of_get? hy
    · obtain rfl := Option.some.inj (heq.symm.trans hx)
      cases hresolved
  by_cases hoffered : ∃ s, .modified s ∈ changes ∧ s.path = p
  · exact .inl hoffered
  · right
    have hgone : ∀ s, .modified s ∈ changes → s.path ≠ p :=
      fun s hs hpath => hoffered ⟨s, hs, hpath⟩
    have hprepared := Run.checkSettings_prepared (Run.start_prepared hsettings full) k.now
    have hbegun : (c.begun k changes full).1.records.contains p = true := by
      refine (Run.Steps.created hran.worked.steps hr).resolve_right ?_
      rintro ⟨s, hs, hpath⟩
      exact hgone s (Run.takeChanges_due hs).2 hpath
    obtain ⟨z, hz⟩ := contains_iff.1 hbegun
    obtain ⟨y, hy, -⟩ := (Run.takeChanges_prepared hprepared changes).origin hp hz
    refine ⟨contains_of_get? hy, fun hmem => ?_⟩
    -- a removed file has no record
    have hknown : ((Run.start c full).checkSettings k.now).records.contains p = true := by
      rcases hprepared.kept hp hy with hremoved | ⟨hknown, -⟩
      · rw [checkSettings_removed] at hremoved
        cases hremoved
      · exact hknown
    have hremoved : p ∈ r.removed := by
      rw [(Run.Steps.stays hran.worked.steps).removed]
      exact Run.takeChanges_removes hp hknown hmem hgone
    rw [contains, (hran.forgets p hremoved).2] at hr
    cases hr

end

/-! ## Synchronisation -/

/-- The files that are on record and not among some files. -/
def gone (c : Controller σ) (present : List (String × String)) : List String :=
  c.records.keys.filter fun p => p != settingsFile && !(present.map (·.1)).contains p

/-- The changes that a project sees in its files. -/
def observed (w : Workspace) (present : List (String × String)) (c : Controller σ) :
    List FileChange :=
  (w.sources c.root present).map .modified ++ (c.gone present).map .removed

variable {w : Workspace} {c : Controller σ} {present : List (String × String)} {p : String}

theorem mem_gone : p ∈ c.gone present ↔
    c.records.contains p = true ∧ p ≠ settingsFile ∧ p ∉ present.map (·.1) := by
  rw [gone, List.mem_filter, mem_keys]
  simp

theorem modified_mem_observed {s : SourceFile} :
    .modified s ∈ c.observed w present ↔ s ∈ w.sources c.root present := by
  simp [observed]

theorem removed_mem_observed : .removed p ∈ c.observed w present ↔ p ∈ c.gone present := by
  simp [observed]

theorem foldl_observeSource (w : Workspace) (c : Controller σ) (l : List (String × String))
    (o : Observed) : (l.foldl (observeSource w c) o).changes =
        o.changes ++ (w.sources c.root l).map .modified ∧
      ((l.foldl (observeSource w c) o).unreadable = [] ↔
        o.unreadable = [] ∧ ∀ x ∈ l, (w.source? c.root x.1 x.2).isSome = true) := by
  induction l generalizing o with
  | nil => simp [Workspace.sources]
  | cons x rest ih =>
    obtain ⟨hchanges, hunreadable⟩ := ih (observeSource w c o x)
    rw [List.foldl_cons, hchanges, hunreadable]
    unfold observeSource Workspace.sources
    cases hs : w.source? c.root x.1 x.2 <;> simp [hs]

/-- The files of a project that can be read. -/
def Reads (w : Workspace) (present : List (String × String)) (c : Controller σ) : Prop :=
  w.projectFiles? c.registry c.root = some present ∧
    ∀ x ∈ present, (w.source? c.root x.1 x.2).isSome = true

section

variable [Sink σ] {k : Conditions} {report : RunReport} {c' : Controller σ}

/-- A synchronisation without failures is a run over what the project sees in its files. -/
theorem sync_eq_ok : (c.sync k w = .ok (report, c') ∧ report.failures = []) ↔
    ∃ present, c.Reads w present ∧ c.run k (c.observed w present) true = .ok (report, c') ∧
      report.failures = [] := by
  unfold sync Reads
  cases hfiles : w.projectFiles? c.registry c.root with
  | none => simp
  | some present =>
    obtain ⟨hchanges, hunreadable⟩ := foldl_observeSource w c present {}
    have hobserved : (present.foldl (observeSource w c) {}).changes ++
        (c.gone present).map .removed = c.observed w present := by
      rw [hchanges]
      rfl
    dsimp only [runObserved]
    rw [show (c.records.keys.filter fun p => p != settingsFile && !(present.map (·.1)).contains p) =
      c.gone present from rfl, hobserved]
    constructor
    · rintro ⟨hok, hfailures⟩
      cases hrun : c.run k (c.observed w present) true with
      | error e => simp [hrun] at hok
      | ok x =>
        obtain ⟨report', c''⟩ := x
        simp only [hrun, Except.ok.injEq, Prod.mk.injEq] at hok
        obtain ⟨rfl, rfl⟩ := hok
        obtain ⟨hnone, hread⟩ := List.append_eq_nil_iff.1 hfailures
        refine ⟨present, ⟨rfl, (hunreadable.1 hread).2⟩, ?_, hfailures⟩
        rw [hrun, hread, List.append_nil]
    · rintro ⟨_, ⟨hsame, hread⟩, hrun, hfailures⟩
      cases hsame
      refine ⟨?_, hfailures⟩
      rw [hrun, hunreadable.2 ⟨rfl, hread⟩]
      dsimp only
      rw [List.append_nil]

end

/-! ## The second synchronisation -/

/-- Runs over sources none of which stands in the place of the settings. -/
def Unrivalled : RunKind σ := fun _ changes _ _ _ =>
  ∀ s, .modified s ∈ changes → s.path ≠ settingsFile

theorem Reaches.sketches_settingsFile [Sink σ] {Q : σ → σ → Prop} {c₀ : Controller σ}
    (hnew : c₀.IsNew) (h : Reaches names Unrivalled Q c₀ c) :
    c.sketches.get? settingsFile = none := by
  refine h.induct (I := fun c : Controller σ => c.sketches.get? settingsFile = none) hnew.orderly
    ?_ (fun hc _ _ hkind hnone hran => ?_) fun _ hnone => hnone
  · unfold sketches
    rw [hnew.records]
    rfl
  · refine Option.eq_none_iff_forall_not_mem.2 fun f hf => ?_
    rcases hran.sketches hc hf with hold | ⟨s, hs, hpath, -⟩
    · cases hnone.symm.trans hold
    · exact hkind s hs hpath

section

variable {c c' : Controller MemoryStore} {k : Conditions} {finished : List String}
  {r : Run MemoryStore} {report : RunReport}

/-- After a synchronisation that left all files resolved, the project has the sources that it read,
and nothing is gone. -/
theorem Ran.observed_eq (hreads : c.Reads w present)
    (hsettings : c.sketches.get? settingsFile = none)
    (hcalm : report.failures = [] ∧ report.cancelled = false)
    (hresolved : ∀ p x, c'.records.get? p = some x → x.state = .resolved) (hsame : c.SameKind c')
    (hran : Ran names k (c.observed w present) true c finished r report c') :
    c'.observed w present = (w.sources c.root present).map .modified ∧
      ∀ s ∈ w.sources c.root present, c'.HasSource s := by
  have hoffers := hran.offers
  have hcalm : r.Calm := ⟨hoffers.failures ▸ hcalm.1, hoffers.reportCancelled ▸ hcalm.2⟩
  have hpaths := Workspace.paths_sources hreads.2
  constructor
  · have hgone : c'.gone present = [] := by
      refine List.eq_nil_iff_forall_not_mem.2 fun p hp => ?_
      obtain ⟨hc, hne, habsent⟩ := mem_gone.1 hp
      obtain ⟨x, hx⟩ := contains_iff.1 hc
      rcases hran.recorded hsettings hne hx (hresolved p x hx) with ⟨s, hs, hpath⟩ | ⟨hold, hkept⟩
      · refine habsent (hpaths ▸ hpath ▸ List.mem_map_of_mem ?_)
        exact modified_mem_observed.1 hs
      · exact hkept (removed_mem_observed.2 (mem_gone.2 ⟨hold, hne, habsent⟩))
    rw [observed, hgone, hsame.root]
    simp
  · intro s hs
    refine hran.hasSource hcalm (modified_mem_observed.2 hs) (fun hmem => ?_) fun s' hs' hpath => ?_
    · refine (mem_gone.1 (removed_mem_observed.1 hmem)).2.2 (hpaths ▸ List.mem_map_of_mem hs)
    · -- the two sources were read from one file
      obtain ⟨x, hx, hxs⟩ := List.mem_filterMap.1 hs
      obtain ⟨y, hy, hys⟩ := List.mem_filterMap.1 (modified_mem_observed.1 hs')
      have heq : y.1 = x.1 := by
        rw [← Workspace.path_of_source? hxs, ← Workspace.path_of_source? hys, hpath]
      rw [Workspace.eq_of_path_eq hreads.1 hy hx heq] at hys
      exact Option.some.inj (hys.symm.trans hxs)

/-- A second synchronisation changes nothing. If a project is brought up to date without failures,
cancellation and refused batches and all its files are resolved, then to bring it up to date once
more over the same files skips every file and leaves symbols, edges, dependents and store as they
are. The settings may be any that do not mention their own file; no source stands in its place. -/
theorem resync_changes_nothing {c₀ : Controller MemoryStore}
    {Q : MemoryStore → MemoryStore → Prop} {k' : Conditions} (hnew : c₀.IsNew)
    (hstandard : c₀.plugins ⊆ Plugin.standard)
    (hmentioned : settingsFile ∉ c₀.settings.enrichment.mentioned)
    (hlanguage : c₀.registry.forPath? settingsFile = none)
    (hinj : Set.InjOn SymbolId.ofFqn names) (h : Reaches names Unrivalled Q c₀ c)
    (hw : ∀ present, c.Reads w present → c.Within names k (c.observed w present) true)
    (hsync : c.sync k w = .ok (report, c'))
    (hcalm : report.failures = [] ∧ report.cancelled = false) (hok : report.sinkFailures = 0)
    (hresolved : ∀ p x, c'.records.get? p = some x → x.state = .resolved) :
    ∃ present report' c'', w.projectFiles? c.registry c.root = some present ∧
      c'.sync k' w = .ok (report', c'') ∧ report'.filesCollected = 0 ∧ report'.resolved = [] ∧
      report'.filesRemoved = 0 ∧ report'.filesSkipped = (present.map (·.1)).dedup.length ∧
      c''.table.allSymbols = c'.table.allSymbols ∧ c''.table.allEdges = c'.table.allEdges ∧
      c''.table.dependents = c'.table.dependents ∧ c''.sink.nodes = c'.sink.nodes ∧
      c''.sink.edges = c'.sink.edges := by
  obtain ⟨hc, hkind⟩ := h.coherent_sameKind (hnew.coherent hinj)
  have hsettings := h.sketches_settingsFile hnew
  obtain ⟨present, hreads, hrun, -⟩ := sync_eq_ok.1 ⟨hsync, hcalm.1⟩
  have hwithin := hw present hreads
  obtain ⟨finished, r, hran⟩ := ran_of_run hc.toOrderly hwithin hrun
  have hsame := hran.sameKind hc.toOrderly
  have hpaths := Workspace.paths_sources hreads.2
  have hsources : ∀ s, .modified s ∈ c.observed w present → s.path ≠ settingsFile := by
    intro s hs
    have hmem : s.path ∈ present.map (·.1) :=
      hpaths ▸ List.mem_map_of_mem (modified_mem_observed.1 hs)
    obtain ⟨x, hx, hpath⟩ := List.mem_map.1 hmem
    rw [← hpath]
    exact Workspace.path_ne_settingsFile hreads.1 (hkind.registry ▸ hlanguage) hx
  have hrest : c'.AtRest names := hran.atRest hc (hkind.plugins ▸ hstandard)
    (hkind.settings ▸ hmentioned) hwithin hsettings hsources hcalm hok (hresolved _ _)
  obtain ⟨hobserved, hhas⟩ := hran.observed_eq hreads hsettings hcalm hresolved hsame
  obtain ⟨report', c'', hrun', hskipped, hcollected, hremoved, hres, hfailures, -, -, hcontents,
    hrows⟩ := hrest.run k' hhas
  have hreads' : c'.Reads w present := by
    unfold Reads
    rw [hsame.registry, hsame.root]
    exact hreads
  rw [← hobserved] at hrun'
  refine ⟨present, report', c'', hreads.1, (sync_eq_ok.2 ⟨present, hreads', hrun', hfailures⟩).1,
    hcollected, hres, hremoved, by rw [hskipped, hpaths], congrArg SortedMap.values hcontents.symbols,
    ?_, hcontents.edges.dependents, hrows.nodes, hrows.edges⟩
  unfold Table.allEdges
  rw [hcontents.edges.edges]

end

/-- A folder with an empty file. -/
def folder : Workspace := { files := (∅ : SortedMap String (List UInt8)).insert "a.go" [] }

/-- A project in the folder. The file refers to itself, and the settings make it listen to an
event. -/
def listening : Controller MemoryStore :=
  { ofSketches [.extending "a.go" "a.go"] with
    settings := { enrichment := { events := { listeners := .ofList [("e", ["a.go"])] } } } }

def listeningNames : List String := [settingsFile, "a.go", "event:e"]

theorem sync_listening : (listeningNames.map SymbolId.ofFqn).Nodup ∧
    folder.projectFiles? listening.registry "" = some [("a.go", "go")] ∧
    listening.usesOnly listeningNames {} (listening.observed folder [("a.go", "go")]) true = true ∧
    ∃ x, listening.sync {} folder = .ok x ∧
      (x.1.failures = [] ∧ x.1.cancelled = false) ∧ x.1.sinkFailures = 0 ∧
      (∀ y ∈ x.2.records.values, y.state = .resolved) ∧
      x.2.table.allEdges.map (·.owner) = ["a.go", settingsFile] := by
  decide +kernel

/-- The folder is brought up to date, which finds an edge in the file and one in the settings; to do so
once more skips the file and changes nothing, though the edge of the settings is computed anew. -/
theorem resync_changes_nothing_listening : ∃ report c',
    listening.sync {} folder = .ok (report, c') ∧
    c'.table.allEdges.map (·.owner) = ["a.go", settingsFile] ∧
    ∃ present report' c'', folder.projectFiles? listening.registry listening.root = some present ∧
      c'.sync {} folder = .ok (report', c'') ∧ report'.filesCollected = 0 ∧
      report'.resolved = [] ∧ report'.filesRemoved = 0 ∧
      report'.filesSkipped = (present.map (·.1)).dedup.length ∧
      c''.table.allSymbols = c'.table.allSymbols ∧ c''.table.allEdges = c'.table.allEdges ∧
      c''.table.dependents = c'.table.dependents ∧ c''.sink.nodes = c'.sink.nodes ∧
      c''.sink.edges = c'.sink.edges := by
  obtain ⟨hnodup, hfiles, huses, ⟨report, c'⟩, hsync, hcalm, hok, hresolved, hedges⟩ := sync_listening
  refine ⟨report, c', hsync, hedges, ?_⟩
  refine resync_changes_nothing (Q := fun _ _ => True) ⟨rfl, rfl, rfl⟩ (List.Subset.refl _)
    (by decide) rfl (injOn_ofFqn hnodup) .start (fun present hreads => ?_) hsync hcalm hok
    fun p x hx => hresolved x (mem_values.2 ⟨p, hx⟩)
  cases hreads.1.symm.trans hfiles
  exact within_of_usesOnly huses

end Controller

end CodeAtlas
