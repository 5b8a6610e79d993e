import Mathlib
import CodeAtlas.Proofs.Project.Delivery

/-!
# Histories of a project

The states that a project comes to by successful runs, starting from nothing. Between two runs the
project may be cancelled or taken up again, and its store may change as far as `Q` allows.

Main results:

* `Reaches.orderly_sameKind`: whatever the runs meet, the project stays orderly; over names without
  clashes of identifiers it stays coherent.
* `Reaches.induct`: what holds of a new project and is kept by every run and by all that happens in
  between holds of every state.
* `within_of_usesOnly`: that a run stays within given names can be found by computing it.
-/

namespace CodeAtlas

open SortedMap

variable {σ : Type} {names : Set String}

namespace Controller

/-- A project before its first run. -/
structure IsNew (c : Controller σ) : Prop where
  table : c.table = .empty
  records : c.records = ∅
  settled : c.settingsDirty = false

/-- A kind of runs: which conditions and changes a project meets, whether the run is full, and what
it reports. -/
abbrev RunKind (σ : Type) :=
  Conditions → List FileChange → Bool → Controller σ → RunReport → Prop

/-- The states that a project comes to by successful runs of a kind over these names. -/
inductive Reaches [Sink σ] (names : Set String) (P : RunKind σ) (Q : σ → σ → Prop)
    (c₀ : Controller σ) : Controller σ → Prop
  | start : Reaches names P Q c₀ c₀
  | run {c c' : Controller σ} {k : Conditions} {changes : List FileChange} {full : Bool}
      {report : RunReport} (before : Reaches names P Q c₀ c)
      (within : c.Within names k changes full) (kind : P k changes full c report)
      (ok : c.run k changes full = .ok (report, c')) : Reaches names P Q c₀ c'
  | outside {c : Controller σ} {cancelled : Bool} {sink : σ} (before : Reaches names P Q c₀ c)
      (store : Q c.sink sink) : Reaches names P Q c₀ { c with cancelled, sink }

/-- All names are names. -/
theorem within_univ (c : Controller σ) (k : Conditions) (changes : List FileChange) (full : Bool) :
    c.Within Set.univ k changes full :=
  ⟨trivial, fun _ _ _ _ _ _ => ⟨trivial, fun _ _ => trivial⟩, fun _ _ _ _ => trivial⟩

theorem IsNew.orderly {c : Controller σ} (h : c.IsNew) : c.Orderly names := by
  have hedges : ∀ o, c.table.edgesOf o = [] := fun o => by rw [h.table]; rfl
  refine ⟨h.table ▸ Table.orderly_empty, h.table ▸ Table.counted_empty, fun {o e} he => ?_,
    fun {o} _ he => ?_, fun {p x} hx => ?_⟩
  · rw [hedges] at he
    cases he
  · exact absurd (hedges o) he
  · rw [h.records] at hx
    cases hx

theorem IsNew.coherent {c : Controller σ} (h : c.IsNew) (hinj : Set.InjOn SymbolId.ofFqn names) :
    c.Coherent names :=
  h.orderly.coherent hinj

/-- Until the first pass a run has no new sketches. -/
theorem begun_sketches {c : Controller σ} {k : Conditions} {changes : List FileChange} {full : Bool}
    {p : String} {f : FileSketch} (h : (c.begun k changes full).1.sketches.get? p = some f) :
    c.sketches.get? p = some f :=
  Run.checkSettings_sketches _ k.now (Run.takeChanges_sketches _ changes h)

section

variable [Sink σ] {P : RunKind σ} {Q : σ → σ → Prop} {c₀ c c' : Controller σ} {k : Conditions}
  {changes : List FileChange} {full : Bool} {finished : List String} {r : Run σ}
  {report : RunReport}

/-- What a project keeps of its setup. -/
structure SameKind (c c' : Controller σ) : Prop where
  settings : c'.settings = c.settings
  registry : c'.registry = c.registry
  plugins : c'.plugins = c.plugins
  root : c'.root = c.root

omit [Sink σ] in
theorem SameSetup.sameKind (h : c.SameSetup c') : c.SameKind c' :=
  ⟨h.settings, h.registry, h.plugins, h.root⟩

theorem Ran.sameKind (hc : c.Orderly names)
    (h : Ran names k changes full c finished r report c') : c.SameKind c' := by
  have hbegun := begun_setup hc k changes full
  have hsteps := (Run.Steps.stays h.worked.steps).setup
  have hoffers := h.offers
  exact ⟨hoffers.settings.trans (hsteps.settings.trans hbegun.settings),
    hoffers.registry.trans (hsteps.registry.trans hbegun.registry),
    hoffers.plugins.trans (hsteps.plugins.trans hbegun.plugins),
    hoffers.root.trans (hsteps.root.trans hbegun.root)⟩

/-- After a run every sketch is an old one or was collected from an offered source. -/
theorem Ran.sketches (hc : c.Orderly names)
    (h : Ran names k changes full c finished r report c') {p : String} {f : FileSketch}
    (hf : c'.sketches.get? p = some f) : c.sketches.get? p = some f ∨
      ∃ s, .modified s ∈ changes ∧ s.path = p ∧ (c.registry.collect s).outcome = .done f := by
  have hbefore := Run.deliver_sketches h.forgets k.now finished (h.deliver_eq ▸ hf)
  rcases Run.Steps.sketches h.worked.steps hbefore with hf | ⟨s, hs, hp, ho⟩
  · exact .inl (begun_sketches hf)
  · exact .inr ⟨s, (Run.takeChanges_due hs).2, hp, (begun_setup hc k changes full).registry ▸ ho⟩

theorem Reaches.orderly_sameKind (h₀ : c₀.Orderly names) (h : Reaches names P Q c₀ c) :
    c.Orderly names ∧ c₀.SameKind c := by
  induction h with
  | start => exact ⟨h₀, rfl, rfl, rfl, rfl⟩
  | run _ hw _ hok ih =>
    obtain ⟨finished, r, hran⟩ := ran_of_run ih.1 hw hok
    have hsame := hran.sameKind ih.1
    exact ⟨hran.after, hsame.settings.trans ih.2.settings, hsame.registry.trans ih.2.registry,
      hsame.plugins.trans ih.2.plugins, hsame.root.trans ih.2.root⟩
  | outside _ _ ih =>
    exact ⟨⟨ih.1.table, ih.1.counted, ih.1.owned, ih.1.recorded, ih.1.record⟩, ih.2.settings,
      ih.2.registry, ih.2.plugins, ih.2.root⟩

theorem Reaches.coherent_sameKind (h₀ : c₀.Coherent names) (h : Reaches names P Q c₀ c) :
    c.Coherent names ∧ c₀.SameKind c :=
  (h.orderly_sameKind h₀).imp_left fun hc => hc.coherent h₀.distinct

/-- An invariant of successful runs holds of every state. -/
theorem Reaches.induct {I : Controller σ → Prop} (h₀ : c₀.Orderly names) (hstart : I c₀)
    (hrun : ∀ {c c' : Controller σ} {k : Conditions} {changes : List FileChange} {full : Bool}
      {finished : List String} {r : Run σ} {report : RunReport}, c.Orderly names →
      c₀.SameKind c → c.Within names k changes full → P k changes full c report → I c →
      Ran names k changes full c finished r report c' → I c')
    (houtside : ∀ {c : Controller σ} {cancelled : Bool} {sink : σ}, Q c.sink sink → I c →
      I { c with cancelled, sink }) (h : Reaches names P Q c₀ c) : I c := by
  induction h with
  | start => exact hstart
  | run hbefore hw hkind hok ih =>
    obtain ⟨hc, hsame⟩ := hbefore.orderly_sameKind h₀
    obtain ⟨finished, r, hran⟩ := ran_of_run hc hw hok
    exact hrun hc hsame hw hkind ih hran
  | outside _ hq ih => exact houtside hq ih

end

end Controller

/-! ## Histories that are computed -/

instance Except.decidableExistsOk {ε α : Type} {p : α → Prop} [DecidablePred p] (x : Except ε α) :
    Decidable (∃ a, x = .ok a ∧ p a) :=
  match x with
  | .ok a => decidable_of_iff (p a) ⟨fun h => ⟨a, rfl, h⟩, fun ⟨_, h, hp⟩ => Except.ok.inj h ▸ hp⟩
  | .error _ => .isFalse nofun

/-- The source of a file that has not been removed. -/
def FileChange.source? : FileChange → Option SourceFile
  | .modified s => some s
  | .removed _ => none

theorem FileChange.mem_filterMap_source? {changes : List FileChange} {s : SourceFile} :
    s ∈ changes.filterMap source? ↔ .modified s ∈ changes := by
  rw [List.mem_filterMap]
  refine ⟨?_, fun h => ⟨_, h, rfl⟩⟩
  rintro ⟨s' | path, hmem, hs⟩
  · exact Option.some.inj hs ▸ hmem
  · cases hs

instance FileChange.decidableModified {p : SourceFile → Prop} [DecidablePred p]
    (changes : List FileChange) : Decidable (∀ s, .modified s ∈ changes → p s) :=
  decidable_of_iff (∀ s ∈ changes.filterMap source?, p s)
    (forall_congr' fun _ => imp_congr_left mem_filterMap_source?)

theorem injOn_ofFqn {l : List String} (h : (l.map SymbolId.ofFqn).Nodup) :
    Set.InjOn SymbolId.ofFqn {n | n ∈ l} :=
  fun _ ha _ hb => List.inj_on_of_nodup_map h ha hb

namespace Controller

/-- Whether a run uses only names of a list. -/
def usesOnly (l : List String) (k : Conditions) (changes : List FileChange) (full : Bool)
    (c : Controller σ) : Bool :=
  let uses (f : FileSketch) : Bool :=
    f.assembleSymbols.all fun s => l.contains s.fqn && s.moduleName.all l.contains
  let collected : FileChange → Bool
    | .modified s => match (c.registry.collect s).outcome with
      | .done f => uses f
      | _ => true
    | .removed _ => true
  l.contains settingsFile && changes.all collected &&
    (c.widestTable k changes full).toOption.all fun t => t.symbols.keys.all l.contains

theorem within_of_usesOnly {l : List String} {k : Conditions} {changes : List FileChange}
    {full : Bool} {c : Controller σ} (h : c.usesOnly l k changes full = true) :
    c.Within {n | n ∈ l} k changes full := by
  simp only [usesOnly, Bool.and_eq_true, List.all_eq_true, List.contains_iff_mem] at h
  obtain ⟨⟨hset, hchanges⟩, htable⟩ := h
  refine ⟨hset, fun s hs f hf x hx => ?_, fun t ht fqn hfqn => ?_⟩
  · have huses := hchanges _ hs
    simp only [hf, List.all_eq_true, Bool.and_eq_true, List.contains_iff_mem] at huses
    obtain ⟨hfqn, hmodule⟩ := huses x hx
    refine ⟨hfqn, fun ns hns => ?_⟩
    rw [hns] at hmodule
    exact List.contains_iff_mem.1 hmodule
  · rw [ht] at htable
    exact List.contains_iff_mem.1 (List.all_eq_true.1 htable fqn (mem_keys.2 hfqn))

/-- A new project over a store in memory. What its collector sees in a file is one of the
sketches. -/
def ofSketches (l : List FileSketch) : Controller MemoryStore :=
  let collect (path _content : String) : Attempt FileSketch :=
    match l.find? (·.path == path) with
    | some f => .done f
    | none => .failed ["unreadable"]
  { root := "", settings := {}, sink := {}
    registry := ⟨[{ language := "go", extensions := [".go"], collect }]⟩ }

theorem isNew_ofSketches (l : List FileSketch) : (ofSketches l).IsNew := ⟨rfl, rfl, rfl⟩

theorem mem_of_collect {l : List FileSketch} {s : SourceFile} {f : FileSketch}
    (h : ((ofSketches l).registry.collect s).outcome = .done f) : f ∈ l := by
  unfold Registry.collect at h
  split at h
  · cases h
  · next collector hget =>
    obtain rfl := List.mem_singleton.1 (List.mem_of_find?_eq_some hget)
    dsimp only at h
    cases hfind : l.find? (·.path == s.path) with
    | none => simp [hfind, Attempt.failed] at h
    | some f' =>
      simp only [hfind, Attempt.done, Outcome.done.injEq] at h
      exact h ▸ List.mem_of_find?_eq_some hfind

end Controller

/-- A file that refers to one type. -/
def FileSketch.extending (path base : String) : FileSketch :=
  { path, language := "go", separator := "."
    references := [{ kind := .extendsType, target := .name base, line := 1, column := 1 }] }

/-- A file has become what a collector sees in it. -/
def FileChange.seen (path : String) : FileChange := .modified (.ofContent path "go" "")

end CodeAtlas
