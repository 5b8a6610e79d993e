import Mathlib
import CodeAtlas.Proofs.Table.Ledger

/-!
# Commits in a row

A table is built from files that are committed one after the other.

Main results:

* `commitFile_accepts`: as long as no two names share an identifier, the table has no say in whether
  a set of symbols is accepted.
* `commitAll_accepts`: then a row of commits is accepted, too.
* `Records.commitAll`: the ledger has one entry for each file of an accepted row, the latest first.
-/

namespace CodeAtlas.Table

open SortedMap

variable {names : Set String} {t t' : Table} {l : Ledger} {file : String} {symbols : List Symbol}
  {files : List (String × List Symbol)}

/-- Commit files one after the other. -/
def commitAll (t : Table) (files : List (String × List Symbol)) : Except AtlasError Table :=
  files.foldlM (fun t f =>
    match t.commitFile f.1 f.2 with
    | (.ok _, t) => .ok t
    | (.error e, _) => .error e) t

/-- The definition of a name that belongs to a file. -/
def definition? (t : Table) (fqn : String) : Option Symbol :=
  (t.symbols.get? fqn).filter Symbol.isPlaced

theorem Records.definition?_eq (h : Records t l) (fqn : String) :
    t.definition? fqn = (l.latest? fqn).map (·.2) := by
  ext s
  rw [definition?, Option.filter_eq_some_iff, Option.map_eq_some_iff]
  constructor
  · rintro ⟨hs, hp⟩
    exact ⟨_, h.latest?_of_find hs hp, rfl⟩
  · rintro ⟨⟨f, s'⟩, hl, rfl⟩
    refine ⟨h.find_of_latest? hl, ?_⟩
    obtain ⟨m, hmem, hget, -⟩ := h.latest?_own hl
    have hdef : s' ∈ (t.cell fqn).definitions := by
      rw [h.definitions]
      exact List.mem_filterMap.2 ⟨_, hmem, hget⟩
    exact ((h.ok fqn).isDefinition_of_mem hdef).isPlaced

/-! ## Acceptance -/

/-- Definitions of a file. -/
def Acceptable (file : String) (symbols : List Symbol) : Prop :=
  ∀ s ∈ symbols, s.fqn ≠ "" ∧ s.file = file ∧ s.isExternal = false ∧ s.id = .ofFqn s.fqn

theorem symbolRefusal?_of_free {s : Symbol}
    (h : s.fqn ≠ "" ∧ s.file = file ∧ s.isExternal = false ∧ s.id = .ofFqn s.fqn)
    (hfree : ∀ g, t.ids.get? s.id = some g → g = s.fqn) : t.symbolRefusal? file s = none := by
  obtain ⟨hne, hfile, hext, hid⟩ := h
  unfold symbolRefusal?
  rw [if_neg (by simpa using hne), if_neg (by simpa using hfile), if_neg (by simp [hext]),
    if_neg (by simpa using hid)]
  split
  · next g hg => exact if_neg (by simpa using hfree g hg)
  · rfl

theorem admitSymbols_of_free {symbols admitted : List Symbol} {reports : List Diagnostic}
    (h : ∀ s ∈ symbols, t.symbolRefusal? file s = none) :
    ∃ result reports', t.admitSymbols file symbols admitted reports = (.ok result, reports') := by
  induction symbols generalizing admitted reports with
  | nil => exact ⟨_, _, rfl⟩
  | cons s rest ih =>
    rw [admitSymbols, h s (List.mem_cons_self ..)]
    dsimp only
    split <;> exact ih fun x hx => h x (List.mem_cons_of_mem _ hx)

/-- Acceptable symbols are accepted. -/
theorem commitFile_accepts (h : Sound names t) (hs : Acceptable file symbols)
    (hn : UsesNames names symbols) :
    ∃ summary t', t.commitFile file symbols = (.ok summary, t') := by
  obtain ⟨admitted, reports, hadm⟩ : ∃ admitted reports,
      t.admitSymbols file symbols [] [] = (.ok admitted, reports) :=
    admitSymbols_of_free fun s hmem => symbolRefusal?_of_free (hs s hmem) fun g hg => by
      rw [(hs s hmem).2.2.2, h.ids_ofFqn (hn s hmem).1] at hg
      split at hg
      · exact (Option.some.inj hg).symm
      · cases hg
  unfold commitFile
  rw [hadm]
  exact ⟨_, _, rfl⟩

/-! ## A new file -/

theorem declaredModule?_of_forall {ns : Option String} (hns : ∀ s ∈ symbols, s.moduleName = ns)
    (hne : symbols ≠ []) : declaredModule? symbols = ns := by
  cases hd : declaredModule? symbols with
  | some n =>
    obtain ⟨s, hs, hn⟩ := exists_of_declaredModule? hd
    exact hn.symm.trans (hns s hs)
  | none =>
    obtain ⟨s, hs⟩ := List.exists_mem_of_ne_nil symbols hne
    exact (List.findSome?_eq_none_iff.1 (Option.or_eq_none_iff.1 hd).2 s hs).symm.trans (hns s hs)

theorem foldl_commitSymbol_fields (file : String) (symbols : List Symbol)
    (hnodup : (symbols.map (·.fqn)).Nodup) (a : CommitSummary × Table) :
    (symbols.foldl (commitSymbol file) a).2.files = a.2.files ∧
      SameEdges a.2 (symbols.foldl (commitSymbol file) a).2 ∧
      ∀ g, (symbols.foldl (commitSymbol file) a).2.symbols.get? g =
        (symbols.find? fun s => s.fqn == g).or (a.2.symbols.get? g) := by
  induction symbols generalizing a with
  | nil => exact ⟨rfl, .refl _, fun g => rfl⟩
  | cons s rest ih =>
    obtain ⟨hnew, hnodup⟩ := List.nodup_cons.1 hnodup
    obtain ⟨hsym, -, hfiles, -, hedges⟩ := insertSymbol_fields (a.2.purgeShadowed s.fqn file) s
    obtain ⟨hfiles', hedges', hsym'⟩ := ih hnodup (commitSymbol file a s)
    refine ⟨hfiles'.trans hfiles, .trans ⟨hedges.edges, hedges.dependents⟩ hedges', fun g => ?_⟩
    have hget : (commitSymbol file a s).2.symbols.get? g =
        if g = s.fqn then some s else a.2.symbols.get? g :=
      (congrArg (SortedMap.get? · g) hsym).trans (get?_insert_eq ..)
    rw [List.foldl_cons, hsym', hget, List.find?_cons]
    by_cases hg : g = s.fqn
    · rw [find?_eq_none_of_notMem (hg ▸ hnew), if_pos hg, hg, beq_self_eq_true]
      rfl
    · have hsg : (s.fqn == g) = false := by simpa using Ne.symm hg
      simp [hsg, hg]

/-- A file that the table does not know declares its namespace and adds its symbols; there is
nothing to give up. -/
theorem commitAdmitted_fresh (hfile : t.files.get? file = none)
    (hnodup : (symbols.map (·.fqn)).Nodup) : SameEdges t (t.commitAdmitted file symbols).2 ∧
      (∀ p, p ≠ file → (t.commitAdmitted file symbols).2.files.get? p = t.files.get? p) ∧
      ∀ g, (t.commitAdmitted file symbols).2.symbols.get? g =
        ((symbols.find? fun s => s.fqn == g).or (t.symbols.get? g)).or
          (if declaredModule? symbols = some g then some (moduleSymbol g) else none) := by
  obtain ⟨t₁, hdeclare, hedges, hfiles, hsym⟩ : ∃ t₁,
      Withdrawn.declare { table := t } file none (declaredModule? symbols) = { table := t₁ } ∧
      SameEdges t t₁ ∧ t₁.files = t.files ∧ ∀ g, t₁.symbols.get? g = (t.symbols.get? g).or
        (if declaredModule? symbols = some g then some (moduleSymbol g) else none) := by
    cases declaredModule? symbols with
    | none => exact ⟨t, rfl, .refl t, rfl, fun g => (Option.or_none).symm⟩
    | some ns =>
      obtain ⟨⟨htouches, hcell⟩, -⟩ := acquireModule_spec t ns file
      refine ⟨t.acquireModule ns file, rfl, htouches.edges, htouches.files, fun g => ?_⟩
      rw [htouches.get?_of_acquire hcell g]
      by_cases hg : ns = g <;> simp [hg]
  obtain ⟨hfiles', hedges', hsym'⟩ := foldl_commitSymbol_fields file symbols hnodup ({}, t₁)
  have hcommit : (t.commitAdmitted file symbols).2 =
      { (symbols.foldl (commitSymbol file) ({}, t₁)).2 with
        files := (symbols.foldl (commitSymbol file) ({}, t₁)).2.files.insert file
          ⟨symbols.map (·.fqn), declaredModule? symbols⟩ } := by
    unfold commitAdmitted
    rw [getD_of_none hfile]
    simp only [List.filter_nil, withdrawAll, List.foldl_nil, hdeclare]
    rfl
  rw [hcommit]
  refine ⟨hedges.trans ⟨hedges'.edges, hedges'.dependents⟩, fun p hp => ?_, fun g => ?_⟩
  · rw [get?_insert_eq, if_neg hp, hfiles', hfiles]
  · rw [Option.or_assoc, ← hsym]
    exact hsym' g

/-- The first commit of a file adds its definitions, and the symbol of its namespace where nothing
stands under that name. -/
theorem commitFile_fresh {summary : CommitSummary} {ns : Option String}
    (hfile : t.files.get? file = none) (hns : ∀ s ∈ symbols, s.moduleName = ns)
    (hne : symbols ≠ []) (hok : t.commitFile file symbols = (.ok summary, t')) :
    SameEdges t t' ∧ (∀ p, p ≠ file → t'.files.get? p = t.files.get? p) ∧
      ∀ g, t'.symbols.get? g = (((Ledger.definitionsOf symbols).get? g).or (t.symbols.get? g)).or
        (if ns = some g then some (moduleSymbol g) else none) := by
  obtain ⟨admitted, reports, hadm, heq⟩ := commitFile_eq_ok hok
  obtain ⟨hnodup, hlast⟩ := admitSymbols_last (m := ∅) hadm List.nodup_nil fun _ => rfl
  have hadmitted : admitted ≠ [] := by
    rintro rfl
    obtain ⟨s, hs⟩ := List.exists_mem_of_ne_nil symbols hne
    have hc : (Ledger.definitionsOf symbols).contains s.fqn = true :=
      (SortedMap.contains_ofList ..).2 (List.mem_map.2 ⟨_, List.mem_map.2 ⟨s, hs, rfl⟩, rfl⟩)
    obtain ⟨x, hx⟩ := contains_iff.1 hc
    cases (hlast s.fqn).symm.trans hx
  have hfresh := commitAdmitted_fresh
    (t := { t with diagnostics := t.diagnostics ++ reports }) hfile hnodup
  rw [heq, declaredModule?_of_forall (fun s hs => hns s (admitted_spec hadm hs).1) hadmitted] at hfresh
  obtain ⟨hedges, hfiles, hsym⟩ := hfresh
  refine ⟨⟨hedges.edges, hedges.dependents⟩, hfiles, fun g => (hsym g).trans ?_⟩
  rw [← hlast]
  rfl

/-! ## A row of commits -/

theorem without_eq_self (h : ∀ e ∈ l, e.1 ≠ file) : l.without file = l :=
  List.filter_eq_self.2 fun e he => by simpa using h e he

theorem commitAll_cons_eq_ok {f : String × List Symbol} :
    t.commitAll (f :: files) = .ok t' ↔ ∃ summary t₁, t.commitFile f.1 f.2 = (.ok summary, t₁) ∧
      t₁.commitAll files = .ok t' := by
  unfold commitAll
  rw [List.foldlM_cons]
  rcases t.commitFile f.1 f.2 with ⟨e | summary, t₁⟩
  · simp [bind, Except.bind]
  · simp [bind, Except.bind]

theorem commitAll_append_eq_ok {f : String × List Symbol} :
    t.commitAll (files ++ [f]) = .ok t' ↔ ∃ t₁ summary, t.commitAll files = .ok t₁ ∧
      t₁.commitFile f.1 f.2 = (.ok summary, t') := by
  induction files generalizing t with
  | nil =>
    rw [List.nil_append, commitAll_cons_eq_ok]
    constructor
    · rintro ⟨summary, t₁, hf, hrest⟩
      cases hrest
      exact ⟨t, summary, rfl, hf⟩
    · rintro ⟨t₁, summary, hrest, hf⟩
      cases hrest
      exact ⟨summary, t', hf, rfl⟩
  | cons x rest ih =>
    simp only [List.cons_append, commitAll_cons_eq_ok, ih]
    constructor
    · rintro ⟨summary, t₁, hx, t₂, summary', hrest, hf⟩
      exact ⟨t₂, summary', ⟨summary, t₁, hx, hrest⟩, hf⟩
    · rintro ⟨t₂, summary', ⟨summary, t₁, hx, hrest⟩, hf⟩
      exact ⟨summary, t₁, hx, t₂, summary', hrest, hf⟩

/-- Files that the ledger does not have are entered one after the other. -/
theorem Records.commitAll (h : Records t l) (hfiles : ∀ f ∈ files, f.1 ≠ "")
    (hnodup : (files.map (·.1)).Nodup) (hnew : ∀ f ∈ files, ∀ e ∈ l, e.1 ≠ f.1)
    (hok : t.commitAll files = .ok t') :
    Records t' ((files.map fun f => (f.1, Ledger.definitionsOf f.2)).reverse ++ l) := by
  induction files generalizing t l with
  | nil =>
    cases hok
    exact h
  | cons f rest ih =>
    obtain ⟨summary, t₁, hcommit, hrest⟩ := commitAll_cons_eq_ok.1 hok
    obtain ⟨hfresh, hnodup⟩ := List.nodup_cons.1 hnodup
    have h₁ := h.commitFile_ok (hfiles f (List.mem_cons_self ..)) hcommit
    rw [without_eq_self (hnew f (List.mem_cons_self ..))] at h₁
    have h' := ih h₁ (fun g hg => hfiles g (List.mem_cons_of_mem _ hg)) hnodup
      (fun g hg e he => by
        rcases List.mem_cons.1 he with rfl | he
        · exact fun heq => hfresh (List.mem_map.2 ⟨g, hg, heq.symm⟩)
        · exact hnew g (List.mem_cons_of_mem _ hg) e he) hrest
    simpa using h'

/-- Without clashes of identifiers a row of commits is accepted. -/
theorem commitAll_accepts (files : List (String × List Symbol)) (h : Sound names t) (hc : Counted t)
    (hfiles : ∀ f ∈ files, f.1 ≠ "" ∧ Acceptable f.1 f.2 ∧ UsesNames names f.2) :
    ∃ t', t.commitAll files = .ok t' ∧ Sound names t' ∧ Counted t' := by
  induction files generalizing t with
  | nil => exact ⟨t, rfl, h, hc⟩
  | cons f rest ih =>
    obtain ⟨hne, hacc, hn⟩ := hfiles f (List.mem_cons_self ..)
    obtain ⟨summary, t₁, hcommit⟩ := commitFile_accepts h hacc hn
    have hup := commitFile_update h.toOrderly hc hne hn hcommit
    obtain ⟨t', hall, hs', hc'⟩ := ih (hup.orderly.sound h.distinct) hup.counted
      fun g hg => hfiles g (List.mem_cons_of_mem _ hg)
    exact ⟨t', commitAll_cons_eq_ok.2 ⟨summary, t₁, hcommit, hall⟩, hs', hc'⟩

end CodeAtlas.Table
