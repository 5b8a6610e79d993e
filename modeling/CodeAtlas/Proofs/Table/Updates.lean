import Mathlib
import CodeAtlas.Proofs.Table.Symbols

/-!
# What commits and removals do

A commit or a removal of a file withdraws definitions, changes the declared namespace, stores new
definitions and at last drops the edges to all symbols that are gone. Every step before the last is
an `Evolves`: symbols survive unless they are listed as gone, and other files get no symbol back
unless they are listed as restored.

Main results:

* `commitFile_update`, `removeFile_update`: an accepted commit and a removal are an `Update`.
* `cascade_spec`: dropping the edges to symbols that are gone, and who lost one.
-/

namespace CodeAtlas.Table

open SortedMap

variable {names : Set String} {t t' t'' : Table} {fqn file : String} {w : Withdrawn}
  {symbols : List Symbol} {summary : CommitSummary}

/-! ## Steps on symbols -/

/-- What a step that works for `file` may do to the symbols: names that are `fresh` may turn from
placeholders into definitions, symbols with an identifier that is `gone` may vanish, and files that
are `back` may get a hidden definition back. -/
structure Evolves (file : String) (fresh : String → Prop) (gone : SymbolId → Prop)
    (back : String → Prop) (t t' : Table) : Prop where
  edges : SameEdges t t'
  files : t'.files = t.files
  survives : ∀ {fqn s}, t.symbols.get? fqn = some s → ¬gone (.ofFqn fqn) →
    ∃ s', t'.symbols.get? fqn = some s' ∧ (¬fresh fqn → s'.isExternal = s.isExternal)
  foreign : ∀ {fqn s}, t'.symbols.get? fqn = some s → s.file ≠ file → s.file ≠ "" →
    t.symbols.get? fqn = some s ∨ back s.file

namespace Evolves

variable {fresh fresh' : String → Prop} {gone gone' : SymbolId → Prop} {back back' : String → Prop}

theorem refl (t : Table) : Evolves file fresh gone back t t :=
  ⟨.refl t, rfl, fun hs _ => ⟨_, hs, fun _ => rfl⟩, fun hs _ _ => .inl hs⟩

theorem trans (h : Evolves file fresh gone back t t') (h' : Evolves file fresh gone back t' t'') :
    Evolves file fresh gone back t t'' := by
  refine ⟨h.edges.trans h'.edges, h'.files.trans h.files, fun hs hg => ?_, fun hs hf he => ?_⟩
  · obtain ⟨s', hs', hext⟩ := h.survives hs hg
    obtain ⟨s'', hs'', hext'⟩ := h'.survives hs' hg
    exact ⟨s'', hs'', fun hn => (hext' hn).trans (hext hn)⟩
  · rcases h'.foreign hs hf he with hs | hb
    · exact h.foreign hs hf he
    · exact .inr hb

theorem mono (h : Evolves file fresh gone back t t') (hfresh : ∀ g, fresh g → fresh' g)
    (hgone : ∀ id, gone id → gone' id) (hback : ∀ p, back p → back' p) :
    Evolves file fresh' gone' back' t t' := by
  refine ⟨h.edges, h.files, fun hs hg => ?_, fun hs hf he => (h.foreign hs hf he).imp_right (hback _)⟩
  obtain ⟨s', hs', hext⟩ := h.survives hs fun hgo => hg (hgone _ hgo)
  exact ⟨s', hs', fun hn => hext fun hfr => hn (hfresh _ hfr)⟩

/-- A step on one cell. -/
theorem of_touches (ht : Touches fqn t t')
    (hsurvives : ∀ s, t.symbols.get? fqn = some s → ¬gone (.ofFqn fqn) →
      ∃ s', t'.symbols.get? fqn = some s' ∧ (¬fresh fqn → s'.isExternal = s.isExternal))
    (hforeign : ∀ s, t'.symbols.get? fqn = some s → s.file ≠ file → s.file ≠ "" →
      t.symbols.get? fqn = some s ∨ back s.file) : Evolves file fresh gone back t t' := by
  have hsym : ∀ g, g ≠ fqn → t'.symbols.get? g = t.symbols.get? g := fun g hg =>
    congrArg Cell.current (ht.cells g hg)
  refine ⟨ht.edges, ht.files, fun {g s} hs hg => ?_, fun {g s} hs hf he => ?_⟩
  · by_cases hgf : g = fqn
    · subst hgf
      exact hsurvives s hs hg
    · exact ⟨s, (hsym g hgf).trans hs, fun _ => rfl⟩
  · by_cases hgf : g = fqn
    · subst hgf
      exact hforeign s hs hf he
    · exact .inl ((hsym g hgf).symm.trans hs)

end Evolves

/-! ## Withdrawals -/

/-- Withdrawing a definition: the answer tells what is gone or back. -/
theorem withdraw_evolves (h : Orderly names t) (fqn file : String) :
    Evolves file (fun _ => False) (fun id => (t.withdraw fqn file).1 = .gone id)
      (fun p => (t.withdraw fqn file).1 = .restored p) t (t.withdraw fqn file).2 := by
  obtain ⟨⟨ht, hc⟩, -, hfits⟩ := withdraw_spec (h.ok fqn).regular file
  rw [← hc] at hfits
  cases hw : (t.withdraw fqn file).1 with
  | gone id =>
    rw [hw] at hfits
    obtain ⟨rfl, hnone⟩ := hfits
    refine .of_touches ht (fun s _ hg => absurd rfl hg) fun s hs _ _ => ?_
    cases hs.symm.trans hnone
  | restored owner =>
    rw [hw] at hfits
    obtain ⟨s, s', hs, hext, hs', hext', rfl⟩ := hfits
    refine .of_touches ht (fun x hx _ => ⟨s', hs', fun _ => ?_⟩) fun x hx _ _ => .inr ?_
    · rw [hext', Option.some.inj (hx.symm.trans hs), hext]
    · rw [Option.some.inj (hx.symm.trans hs')]
  | kept =>
    rw [hw] at hfits
    rcases hfits with hsame | ⟨s, hs, hext, hs'⟩
    · refine .of_touches ht (fun x hx _ => ⟨x, hsame.trans hx, fun _ => rfl⟩) fun x hx _ _ => .inl ?_
      exact hsame.symm.trans hx
    · refine .of_touches ht (fun x hx _ => ⟨_, hs', fun _ => ?_⟩) fun x hx _ hne => absurd ?_ hne
      · rw [Option.some.inj (hx.symm.trans hs), hext]
        rfl
      · rw [Option.some.inj (hx.symm.trans hs')]
        rfl

/-- How a running withdrawal for `file` goes on. -/
structure Advances (names : Set String) (file : String) (w w' : Withdrawn) : Prop where
  orderly : Orderly names w'.table
  removed : ∀ id, w.removed.contains id = true → w'.removed.contains id = true
  restored : ∀ p, w.restored.contains p = true → w'.restored.contains p = true
  evolves : Evolves file (fun _ => False) (fun id => w'.removed.contains id = true)
    (fun p => w'.restored.contains p = true) w.table w'.table

namespace Advances

variable {w w' w'' : Withdrawn}

theorem refl (h : Orderly names w.table) : Advances names file w w :=
  ⟨h, fun _ => id, fun _ => id, .refl _⟩

theorem trans (h : Advances names file w w') (h' : Advances names file w' w'') :
    Advances names file w w'' :=
  ⟨h'.orderly, fun id hi => h'.removed id (h.removed id hi),
    fun p hp => h'.restored p (h.restored p hp),
    (h.evolves.mono (fun _ => id) h'.removed h'.restored).trans h'.evolves⟩

end Advances

theorem step_advances (h : Orderly names w.table) (hfqn : fqn ∈ names) (file : String) :
    Advances names file w (Withdrawn.step file w fqn) := by
  have horderly := h.withdraw hfqn file
  have hev := withdraw_evolves h fqn file
  unfold Withdrawn.step
  rcases hw : w.table.withdraw fqn file with ⟨_ | _ | _, t'⟩ <;> rw [hw] at horderly hev
  · next dead =>
    have hmem : ∀ x, (w.removed.insert dead ()).contains x = true ↔
        x = dead ∨ w.removed.contains x = true := by
      intro x
      rw [contains_insert]
      simp
    refine ⟨horderly, fun x hx => (hmem x).2 (.inr hx), fun _ => id,
      hev.mono (fun _ => id) (fun x hx => ?_) fun p hp => by cases hp⟩
    cases hx
    exact (hmem _).2 (.inl rfl)
  · next owner =>
    have hmem : ∀ x, (w.restored.add owner).contains x = true ↔
        x = owner ∨ w.restored.contains x = true := by
      intro x
      rw [StringSet.contains_add]
      simp
    refine ⟨horderly, fun _ => id, fun x hx => (hmem x).2 (.inr hx),
      hev.mono (fun _ => id) (fun x hx => by cases hx) fun p hp => ?_⟩
    cases hp
    exact (hmem _).2 (.inl rfl)
  · exact ⟨horderly, fun _ => id, fun _ => id,
      hev.mono (fun _ => id) (fun x hx => by cases hx) fun p hp => by cases hp⟩

theorem foldl_step_advances (l : List String) (h : Orderly names w.table)
    (hl : ∀ f ∈ l, f ∈ names) (file : String) :
    Advances names file w (l.foldl (Withdrawn.step file) w) := by
  induction l generalizing w with
  | nil => exact .refl h
  | cons f rest ih =>
    have hstep := step_advances h (hl f (List.mem_cons_self ..)) file
    exact hstep.trans (ih hstep.orderly fun g hg => hl g (List.mem_cons_of_mem _ hg))

/-! ## Namespaces -/

theorem release_advances (h : Orderly names w.table) {ns : String} (hns : ns ∈ names)
    (file : String) : Advances names file w (w.release ns file) := by
  have horderly := h.releaseModule hns file
  obtain ⟨⟨ht, hc⟩, -, hanswer⟩ := releaseModule_spec (h.ok ns).regular (h.ok ns).declared_of_bare file
  -- a symbol of the table after the release was there before
  have hold : ∀ s, (w.table.releaseModule ns file).2.symbols.get? ns = some s →
      w.table.symbols.get? ns = some s := by
    intro s hs
    have hcur : ((w.table.releaseModule ns file).2.cell ns).current = some s := hs
    rw [hc] at hcur
    exact (Option.filter_eq_some_iff.1 hcur).1
  unfold Withdrawn.release
  rcases hr : w.table.releaseModule ns file with ⟨_ | dead, t'⟩ <;>
    rw [hr] at horderly ht hanswer hold
  · refine ⟨horderly, fun _ => id, fun _ => id, .of_touches ht (fun s hs _ => ⟨s, ?_, fun _ => rfl⟩)
      fun s hs _ _ => .inl (hold s hs)⟩
    exact (congrArg Cell.current hanswer.1).trans hs
  · obtain ⟨rfl, -⟩ := hanswer
    have hmem : ∀ x, (w.removed.insert (.ofFqn ns) ()).contains x = true ↔
        x = .ofFqn ns ∨ w.removed.contains x = true := by
      intro x
      rw [contains_insert]
      simp
    exact ⟨horderly, fun x hx => (hmem x).2 (.inr hx), fun _ => id,
      .of_touches ht (fun s _ hg => absurd ((hmem _).2 (.inl rfl)) hg)
        fun s hs _ _ => .inl (hold s hs)⟩

theorem acquire_advances (h : Orderly names w.table) {ns : String} (hns : ns ∈ names)
    (file : String) : Advances names file w { w with table := w.table.acquireModule ns file } := by
  obtain ⟨⟨ht, hc⟩, -⟩ := acquireModule_spec w.table ns file
  have hcur := congrArg Cell.current hc
  refine ⟨h.acquireModule hns file, fun _ => id, fun _ => id, .of_touches ht (fun s hs _ => ?_)
    fun s hs _ hne => ?_⟩
  · exact ⟨s, hcur.trans (by simp [Cell.acquire, cell, hs]), fun _ => rfl⟩
  · have : (w.table.symbols.get? ns).or (some (moduleSymbol ns)) = some s := hcur.symm.trans hs
    rcases Option.or_eq_some_iff.1 this with hs | ⟨-, hs⟩
    · exact .inl hs
    · cases hs
      exact absurd rfl hne

theorem declare_advances (h : Orderly names w.table) {old ns : Option String}
    (hold : ∀ n, old = some n → n ∈ names) (hns : ∀ n, ns = some n → n ∈ names) (file : String) :
    Advances names file w (w.declare file old ns) := by
  refine declare_induct (.refl h) (fun ho hw => ?_) fun hn hw => ?_
  · exact hw.trans (release_advances hw.orderly (hold _ ho) file)
  · exact hw.trans (acquire_advances hw.orderly (hns _ hn) file)

/-! ## New definitions -/

/-- What a commit may store: symbols that the file defines. -/
def Committable (names : Set String) (file : String) (symbols : List Symbol) : Prop :=
  ∀ s ∈ symbols, s.file = file ∧ s.IsDefinition s.fqn ∧ s.fqn ∈ names

theorem foldl_commitSymbol (symbols : List Symbol) {a : CommitSummary × Table}
    (h : Orderly names a.2) (hs : Committable names file symbols) :
    Orderly names (symbols.foldl (commitSymbol file) a).2 ∧
      Evolves file (fun g => g ∈ symbols.map (·.fqn)) (fun _ => False) (fun _ => False) a.2
        (symbols.foldl (commitSymbol file) a).2 := by
  induction symbols generalizing a with
  | nil => exact ⟨h, .refl _⟩
  | cons s rest ih =>
    obtain ⟨rfl, hdef, hfqn⟩ := hs s (List.mem_cons_self ..)
    obtain ⟨⟨ht, hc⟩, -⟩ := commitSymbol_spec (t := a.2) hdef.fqn_eq hdef.id_eq a.1
    have hcur : (commitSymbol s.file a s).2.symbols.get? s.fqn = some s :=
      congrArg Cell.current hc
    obtain ⟨horderly, hev⟩ := ih (h.commitSymbol hfqn hdef a.1) fun x hx =>
      hs x (List.mem_cons_of_mem _ hx)
    refine ⟨horderly, .trans (.of_touches ht (fun x _ _ => ⟨s, hcur, fun hn => ?_⟩) fun x hx hf _ => ?_)
      (hev.mono (fun g hg => List.mem_cons_of_mem _ hg) (fun _ => id) fun _ => id)⟩
    · exact absurd (List.mem_cons_self ..) hn
    · cases hcur.symm.trans hx
      exact absurd rfl hf

/-! ## Dropping edges -/

theorem foldl_dropEdgesTo (removed : IdSet) (l : List String) (t : Table) :
    SameSymbols t (l.foldl (dropEdgesTo removed) t) ∧
      (Counted t → Counted (l.foldl (dropEdgesTo removed) t)) ∧
      ∀ o, (l.foldl (dropEdgesTo removed) t).edgesOf o =
        if o ∈ l then (t.edgesOf o).filter fun e => !removed.contains e.target
        else t.edgesOf o := by
  induction l generalizing t with
  | nil => exact ⟨.refl t, id, by simp⟩
  | cons x rest ih =>
    have hx := dropEdgesTo_rewires removed t x
    obtain ⟨hs, hc, he⟩ := ih (dropEdgesTo removed t x)
    refine ⟨hx.same.trans hs, fun h => hc (hx.counted h), fun o => ?_⟩
    rw [List.foldl_cons, he, hx.edgesOf]
    by_cases ho : o = x
    · subst ho
      simp
    · simp [ho]

theorem contains_foldl_addAll {α : Type} (f : α → List String) (l : List α) (s : StringSet)
    (x : String) : (l.foldl (fun s a => StringSet.addAll s (f a)) s).contains x = true ↔
      s.contains x = true ∨ ∃ a ∈ l, x ∈ f a := by
  induction l generalizing s with
  | nil => simp
  | cons a rest ih =>
    rw [List.foldl_cons, ih, StringSet.contains_addAll]
    simp only [List.mem_cons, exists_eq_or_imp]
    tauto

/-- Dropping the edges to symbols that are gone. The answer tells who else lost an edge. -/
theorem cascade_spec (h : Counted t) (removed : IdSet) (file : String) :
    SameSymbols t (t.cascade removed file).2 ∧ Counted (t.cascade removed file).2 ∧
      (∀ o, (t.cascade removed file).2.edgesOf o =
        (t.edgesOf o).filter fun e => !removed.contains e.target) ∧
      ∀ o, (t.cascade removed file).1.contains o = true ↔
        o ≠ file ∧ ∃ e ∈ t.edgesOf o, removed.contains e.target = true := by
  set owners : StringSet :=
    removed.keys.foldl (fun s id => StringSet.addAll s (t.dependentFiles id)) ∅ with howners
  have hmem : ∀ o, owners.contains o = true ↔
      ∃ e ∈ t.edgesOf o, removed.contains e.target = true := by
    intro o
    rw [howners, contains_foldl_addAll]
    simp only [contains_emptyCollection, Bool.false_eq_true, false_or, mem_keys,
      h.mem_dependentFiles]
    constructor
    · rintro ⟨id, hid, e, he, rfl⟩
      exact ⟨e, he, hid⟩
    · rintro ⟨e, he, hid⟩
      exact ⟨e.target, hid, e, he, rfl⟩
  obtain ⟨hs, hc, he⟩ := foldl_dropEdgesTo removed owners.toList t
  refine ⟨hs, hc h, fun o => ?_, fun o => ?_⟩
  · refine (he o).trans ?_
    split
    · rfl
    · next ho =>
      -- an owner that is not listed has no edge to drop
      rw [StringSet.mem_toList, hmem] at ho
      symm
      rw [List.filter_eq_self]
      intro e hemem
      simpa using fun hcon => ho ⟨e, hemem, hcon⟩
  · change (owners.erase file).contains o = true ↔ _
    rw [contains_erase, Bool.and_eq_true, hmem]
    simp

theorem cascade_same (t : Table) (removed : IdSet) (file : String) :
    SameSymbols t (t.cascade removed file).2 :=
  (foldl_dropEdgesTo removed _ t).1

theorem commitAdmitted_same (t : Table) (file : String) (symbols : List Symbol) :
    SameSymbols (t.filed file symbols) (t.commitAdmitted file symbols).2 :=
  cascade_same _ _ file

theorem removeFile_same (t : Table) (file : String) :
    SameSymbols (t.goneWith file).table (t.removeFile file).2 :=
  (clearEdges_rewires (t.goneWith file).table file).same.trans (cascade_same _ _ file)

/-! ## Entries of files -/

theorem step_table (w : Withdrawn) (file fqn : String) :
    (w.step file fqn).table = (w.table.withdraw fqn file).2 := by
  unfold Withdrawn.step
  rcases w.table.withdraw fqn file with ⟨_ | _ | _, t'⟩ <;> rfl

theorem release_table (w : Withdrawn) (ns file : String) :
    (w.release ns file).table = (w.table.releaseModule ns file).2 := by
  unfold Withdrawn.release
  rcases w.table.releaseModule ns file with ⟨_ | _, t'⟩ <;> rfl

theorem withdraw_files (t : Table) (fqn file : String) :
    (t.withdraw fqn file).2.files = t.files := by
  rcases Cell.withdraw_cases file none (t.cell fqn) with
    ⟨-, hs⟩ | ⟨s, hs, hfile, hext, ⟨previous, rest, hr, -⟩ | ⟨hr, -⟩⟩
  · rw [withdraw_of_kept hs]
    rfl
  · rw [withdraw_of_hidden hs hfile hext hr]
    rfl
  · rw [withdraw_of_last hs hfile hext hr]
    dsimp only
    split <;> rfl

theorem foldl_step_files (l : List String) (w : Withdrawn) (file : String) :
    (l.foldl (Withdrawn.step file) w).table.files = w.table.files := by
  induction l generalizing w with
  | nil => rfl
  | cons fqn rest ih =>
    rw [List.foldl_cons, ih, step_table]
    exact withdraw_files ..

theorem release_files (w : Withdrawn) (ns file : String) :
    (w.release ns file).table.files = w.table.files := by
  rw [release_table]
  unfold releaseModule
  split
  · rfl
  · dsimp only
    split
    · split
      · split <;> rfl
      · rfl
    · rfl

theorem declare_files (w : Withdrawn) (file : String) (old new : Option String) :
    (w.declare file old new).table.files = w.table.files := by
  refine declare_induct (P := fun w' => w'.table.files = w.table.files) rfl (fun _ h => ?_)
    fun {n w'} _ h => ?_
  · exact (release_files ..).trans h
  · exact (acquireModule_spec w'.table n file).1.1.files.trans h

theorem foldl_commitSymbol_files (symbols : List Symbol) (file : String)
    (a : CommitSummary × Table) : (symbols.foldl (commitSymbol file) a).2.files = a.2.files := by
  induction symbols generalizing a with
  | nil => rfl
  | cons s rest ih =>
    rw [List.foldl_cons, ih]
    exact (insertSymbol_fields (a.2.purgeShadowed s.fqn file) s).2.2.1

theorem commitAdmitted_files (t : Table) (file : String) (symbols : List Symbol) :
    (t.commitAdmitted file symbols).2.files =
      t.files.insert file ⟨symbols.map (·.fqn), declaredModule? symbols⟩ := by
  unfold commitAdmitted
  simp only [(cascade_same _ _ file).files, foldl_commitSymbol_files, declare_files, withdrawAll,
    foldl_step_files]

theorem removeFile_files (t : Table) (file : String) :
    (t.removeFile file).2.files = t.files.erase file := by
  refine (removeFile_same t file).files.trans
    (goneWith_induct (P := fun w => w.table.files = t.files.erase file) rfl ?_ ?_)
  · exact fun _ h => (foldl_step_files ..).trans h
  · exact fun _ _ h => (release_files ..).trans h

/-! ## Commits and removals -/

/-- What a commit or a removal of `file` does: `removed` are the identifiers that may be gone, and
`stale` the other files that lost an edge or got a definition back. -/
structure Update (names : Set String) (file : String) (fresh : String → Prop) (removed : IdSet)
    (stale : StringSet) (t t' : Table) : Prop where
  orderly : Orderly names t'
  counted : Counted t'
  files : ∀ p, p ≠ file → t'.files.get? p = t.files.get? p
  survives : ∀ {fqn s}, t.symbols.get? fqn = some s → removed.contains (.ofFqn fqn) = false →
    ∃ s', t'.symbols.get? fqn = some s' ∧ (¬fresh fqn → s'.isExternal = s.isExternal)
  foreign : ∀ {fqn s}, t'.symbols.get? fqn = some s → s.file ≠ file → s.file ≠ "" →
    t.symbols.get? fqn = some s ∨ stale.contains s.file = true
  edges : ∀ o, o ≠ file →
    t'.edgesOf o = (t.edgesOf o).filter fun e => !removed.contains e.target
  own : ∀ e ∈ t'.edgesOf file, e ∈ t.edgesOf file ∧ removed.contains e.target = false
  lost : ∀ o, o ≠ file → (∃ e ∈ t.edgesOf o, removed.contains e.target = true) →
    stale.contains o = true

theorem Orderly.setFiles (h : Orderly names t) {files : SortedMap String FileEntry}
    (hf : ∀ {p entry}, files.get? p = some entry →
      (∀ fqn ∈ entry.fqns, fqn ∈ names) ∧ ∀ ns, entry.moduleName = some ns → ns ∈ names) :
    Orderly names { t with files } :=
  ⟨h.known, hf, h.indexed_of_distinct, h.ok⟩

theorem Orderly.entry (h : Orderly names t) (file : String) :
    (∀ fqn ∈ (t.files.getD file {}).fqns, fqn ∈ names) ∧
      ∀ ns, (t.files.getD file {}).moduleName = some ns → ns ∈ names := by
  cases hf : t.files.get? file with
  | none =>
    rw [getD_of_none hf]
    exact ⟨by simp, by simp⟩
  | some entry =>
    rw [getD_of_get? hf]
    exact h.listed hf

theorem commitAdmitted_stale (t : Table) (file : String) (symbols : List Symbol) (o : String) :
    (t.commitAdmitted file symbols).1.stale.contains o = true ↔ o ≠ file ∧
      (((t.filed file symbols).cascade (t.madeWay file symbols).removed file).1.contains o = true ∨
        (t.madeWay file symbols).restored.contains o = true) := by
  have hstale : (t.commitAdmitted file symbols).1.stale = SortedMap.erase (StringSet.addAll _ _) _ :=
    rfl
  rw [hstale, contains_erase, Bool.and_eq_true, StringSet.contains_addAll, StringSet.mem_toList,
    decide_eq_true_iff]
  exact Iff.rfl

theorem commitAdmitted_update (h : Orderly names t) (hc : Counted t)
    (hs : Committable names file symbols)
    (hns : ∀ ns, declaredModule? symbols = some ns → ns ∈ names) :
    Update names file (fun g => g ∈ symbols.map (·.fqn)) (t.commitAdmitted file symbols).1.removed
      (t.commitAdmitted file symbols).1.stale t (t.commitAdmitted file symbols).2 := by
  obtain ⟨hfqns, hmod⟩ := h.entry file
  set w := t.madeWay file symbols
  set t₁ := t.stored file symbols
  have hadv : Advances names file { table := t } w := by
    have hall := foldl_step_advances ((t.files.getD file {}).fqns.filter fun f =>
      !(symbols.map (·.fqn)).contains f) (w := { table := t }) h
        (fun f hf => hfqns f (List.mem_filter.1 hf).1) file
    exact hall.trans (declare_advances hall.orderly hmod hns file)
  obtain ⟨horderly, hev⟩ := foldl_commitSymbol symbols (a := ({}, w.table)) hadv.orderly hs
  set t₂ := t.filed file symbols with ht₂
  have hevolves : Evolves file (fun g => g ∈ symbols.map (·.fqn))
      (fun id => w.removed.contains id = true) (fun p => w.restored.contains p = true) t t₁ :=
    (hadv.evolves.mono (fun _ => False.elim) (fun _ => id) fun _ => id).trans
      (hev.mono (fun _ => id) (fun _ => False.elim) fun _ => False.elim)
  have horderly₂ : Orderly names t₂ := by
    refine horderly.setFiles fun {p entry} hp => ?_
    rw [get?_insert_eq] at hp
    split at hp
    · cases hp
      refine ⟨fun f hf => ?_, hns⟩
      obtain ⟨s, hsm, rfl⟩ := List.mem_map.1 hf
      exact (hs s hsm).2.2
    · exact horderly.listed hp
  have hcounted₂ : Counted t₂ := hc.of_same ⟨hevolves.edges.edges, hevolves.edges.dependents⟩
  obtain ⟨hsame, hcounted, hedges, howners⟩ := cascade_spec hcounted₂ w.removed file
  have hedgesOf : ∀ o, t₂.edgesOf o = t.edgesOf o := fun o => hevolves.edges.edgesOf o
  have hstale := fun o => commitAdmitted_stale t file symbols o
  have hremoved : (t.commitAdmitted file symbols).1.removed = w.removed := rfl
  have htable : (t.commitAdmitted file symbols).2 = (t₂.cascade w.removed file).2 := rfl
  rw [hremoved, htable]
  refine ⟨horderly₂.of_same hsame, hcounted, fun p hp => ?_, fun {g s} hg hr => ?_,
    fun {g s} hg hf he => ?_, fun o ho => ?_, fun e he => ?_, fun o ho hlost => ?_⟩
  · rw [hsame.files, ht₂]
    exact ((get?_insert_eq ..).trans (if_neg hp)).trans (by rw [hevolves.files])
  · rw [hsame.symbols]
    exact hevolves.survives hg (by simp [hr])
  · rw [hsame.symbols] at hg
    exact (hevolves.foreign hg hf he).imp_right fun hb => (hstale _).2 ⟨hf, .inr hb⟩
  · rw [hedges, hedgesOf]
  · rw [hedges, hedgesOf, List.mem_filter] at he
    exact ⟨he.1, by simpa using he.2⟩
  · refine (hstale o).2 ⟨ho, .inl ((howners o).2 ⟨ho, ?_⟩)⟩
    rw [hedgesOf]
    exact hlost

theorem symbolRefusal?_eq_none {s : Symbol} (h : t.symbolRefusal? file s = none) :
    s.fqn ≠ "" ∧ s.file = file ∧ s.isExternal = false ∧ s.id = .ofFqn s.fqn := by
  unfold symbolRefusal? at h
  split at h
  · cases h
  split at h
  · cases h
  split at h
  · cases h
  split at h
  · cases h
  simp_all

/-- Of an admitted set, no symbol was refused, and every admitted symbol was offered. -/
theorem admitSymbols_ok {l admitted result : List Symbol} {reports reports' : List Diagnostic}
    (h : t.admitSymbols file l admitted reports = (.ok result, reports')) :
    (∀ s ∈ l, t.symbolRefusal? file s = none) ∧ ∀ s ∈ result, s ∈ admitted ∨ s ∈ l := by
  induction l generalizing admitted reports with
  | nil =>
    cases h
    exact ⟨by simp, fun s hs => .inl hs⟩
  | cons x rest ih =>
    rw [admitSymbols] at h
    split at h
    · cases h
    · next hx =>
      have hrefusal : (∀ s ∈ rest, t.symbolRefusal? file s = none) →
          ∀ s ∈ x :: rest, t.symbolRefusal? file s = none := fun hall s hs => by
        rcases List.mem_cons.1 hs with rfl | hs
        · exact hx
        · exact hall s hs
      split at h
      · obtain ⟨hall, hmem⟩ := ih h
        refine ⟨hrefusal hall, fun s hs => ?_⟩
        rcases hmem s hs with hs | hs
        · obtain ⟨y, hy, rfl⟩ := List.mem_map.1 hs
          split
          · exact .inr (List.mem_cons_self ..)
          · exact .inl hy
        · exact .inr (List.mem_cons_of_mem _ hs)
      · obtain ⟨hall, hmem⟩ := ih h
        refine ⟨hrefusal hall, fun s hs => ?_⟩
        rcases hmem s hs with hs | hs
        · rcases List.mem_append.1 hs with hs | hs
          · exact .inl hs
          · exact .inr (List.mem_singleton.1 hs ▸ List.mem_cons_self ..)
        · exact .inr (List.mem_cons_of_mem _ hs)

theorem exists_of_declaredModule? {ns : String} (h : declaredModule? symbols = some ns) :
    ∃ s ∈ symbols, s.moduleName = some ns := by
  rcases Option.or_eq_some_iff.1 h with h | ⟨-, h⟩
  · obtain ⟨s, hs, hns⟩ := Option.bind_eq_some_iff.1 h
    exact ⟨s, List.mem_of_find?_eq_some hs, hns⟩
  · exact List.exists_of_findSome?_eq_some h

/-- The names that a set of symbols uses: its own and the namespace that it declares. -/
def UsesNames (names : Set String) (symbols : List Symbol) : Prop :=
  ∀ s ∈ symbols, s.fqn ∈ names ∧ ∀ ns, s.moduleName = some ns → ns ∈ names

theorem Update.of_sameGraph {t₀ : Table} {fresh : String → Prop} {removed : IdSet}
    {stale : StringSet} (hs : SameGraph t₀ t) (h : Update names file fresh removed stale t t') :
    Update names file fresh removed stale t₀ t' := by
  have hsym := hs.symbols.symbols
  have hedges : ∀ o, t.edgesOf o = t₀.edgesOf o := hs.edges.edgesOf
  refine ⟨h.orderly, h.counted, fun p hp => (h.files p hp).trans (by rw [hs.symbols.files]),
    fun hg => h.survives (hsym ▸ hg), fun hg hf he => hsym ▸ h.foreign hg hf he,
    fun o ho => hedges o ▸ h.edges o ho, fun e he => hedges file ▸ h.own e he,
    fun o ho => hedges o ▸ h.lost o ho⟩

section

variable (h : t.commitFile file symbols = (.ok summary, t'))

include h

theorem commitFile_eq_ok :
    ∃ admitted reports, t.admitSymbols file symbols [] [] = (.ok admitted, reports) ∧
      { t with diagnostics := t.diagnostics ++ reports }.commitAdmitted file admitted =
        (summary, t') := by
  unfold commitFile at h
  rcases hadm : t.admitSymbols file symbols [] [] with ⟨_ | admitted, reports⟩ <;> rw [hadm] at h
  · cases h
  · obtain ⟨h₁, h₂⟩ := Prod.mk.inj h
    exact ⟨admitted, reports, rfl, Prod.ext (Except.ok.inj h₁) h₂⟩

omit h in
theorem commitFile_eq_error {e : AtlasError} (h : t.commitFile file symbols = (.error e, t')) :
    SameGraph t t' := by
  unfold commitFile at h
  rcases hadm : t.admitSymbols file symbols [] [] with ⟨_ | admitted, reports⟩ <;> rw [hadm] at h
  · cases h
    exact .setDiagnostics t _
  · cases h

/-- Every symbol of an accepted set is a definition of the file. -/
theorem commitFile_admits {s : Symbol} (hs : s ∈ symbols) :
    s.fqn ≠ "" ∧ s.file = file ∧ s.isExternal = false ∧ s.id = .ofFqn s.fqn := by
  obtain ⟨admitted, reports, hadm, -⟩ := commitFile_eq_ok h
  exact symbolRefusal?_eq_none ((admitSymbols_ok hadm).1 s hs)

omit h in
/-- Every admitted symbol was offered, and is a definition of the file. -/
theorem admitted_spec {symbols admitted : List Symbol} {reports : List Diagnostic}
    (h : t.admitSymbols file symbols [] [] = (.ok admitted, reports)) {s : Symbol}
    (hs : s ∈ admitted) :
    s ∈ symbols ∧ s.id = .ofFqn s.fqn ∧ s.isExternal = false ∧ s.file = file := by
  obtain ⟨hrefusal, hoffered⟩ := admitSymbols_ok h
  have hmem := (hoffered s hs).resolve_left (by simp)
  obtain ⟨-, hfile, hint, hid⟩ := symbolRefusal?_eq_none (hrefusal s hmem)
  exact ⟨hmem, hid, hint, hfile⟩

omit h in
theorem admitSymbols_names {l admitted result : List Symbol} {reports reports' : List Diagnostic}
    (h : t.admitSymbols file l admitted reports = (.ok result, reports')) {fqn : String}
    (hfqn : fqn ∈ admitted.map (·.fqn) ∨ fqn ∈ l.map (·.fqn)) : fqn ∈ result.map (·.fqn) := by
  induction l generalizing admitted reports with
  | nil =>
    cases h
    simpa using hfqn
  | cons s rest ih =>
    rw [admitSymbols] at h
    split at h
    · cases h
    · split at h
      · refine ih h ?_
        have hnames : (admitted.map fun x => if x.fqn == s.fqn then s else x).map (·.fqn) =
            admitted.map (·.fqn) := by
          rw [List.map_map]
          refine List.map_congr_left fun x _ => ?_
          dsimp only [Function.comp]
          split
          · next hx => exact (beq_iff_eq.1 hx).symm
          · rfl
        rw [hnames]
        rcases hfqn with hf | hf
        · exact .inl hf
        · rcases List.mem_cons.1 hf with rfl | hf
          · next hany =>
            obtain ⟨x, hx, heq⟩ := List.any_eq_true.1 hany
            exact .inl (List.mem_map.2 ⟨x, hx, beq_iff_eq.1 heq⟩)
          · exact .inr hf
      · refine ih h ?_
        rw [List.map_append, List.mem_append]
        rcases hfqn with hf | hf
        · exact .inl (.inl hf)
        · rcases List.mem_cons.1 hf with rfl | hf
          · exact .inl (.inr (List.mem_singleton_self _))
          · exact .inr hf

/-- After an accepted commit the entry of the file lists every name that it offered. -/
theorem commitFile_entry :
    ∃ entry, t'.files = t.files.insert file entry ∧ ∀ s ∈ symbols, s.fqn ∈ entry.fqns := by
  obtain ⟨admitted, reports, hadm, heq⟩ := commitFile_eq_ok h
  have hfiles := commitAdmitted_files { t with diagnostics := t.diagnostics ++ reports } file admitted
  rw [heq] at hfiles
  exact ⟨_, hfiles, fun s hs => admitSymbols_names hadm (.inr (List.mem_map_of_mem hs))⟩

theorem containsFile_of_commitFile : t'.containsFile file = true := by
  obtain ⟨entry, hfiles, -⟩ := commitFile_entry h
  rw [containsFile, hfiles, contains_insert, decide_eq_true rfl, Bool.true_or]

end

/-- An accepted commit is an update. -/
theorem commitFile_update (h : Orderly names t) (hc : Counted t) (hfile : file ≠ "")
    (hnames : UsesNames names symbols) (hok : t.commitFile file symbols = (.ok summary, t')) :
    Update names file (fun g => g ∈ symbols.map (·.fqn)) summary.removed summary.stale t t' := by
  obtain ⟨admitted, reports, hadm, heq⟩ := commitFile_eq_ok hok
  have hmem : ∀ s ∈ admitted, s ∈ symbols := fun s hs => (admitted_spec hadm hs).1
  have hgraph := SameGraph.setDiagnostics t (t.diagnostics ++ reports)
  have hcommit : Committable names file admitted := by
    intro s hs
    obtain ⟨-, hid, hext, hsf⟩ := admitted_spec hadm hs
    exact ⟨hsf, ⟨rfl, hid, hext, hsf ▸ hfile⟩, (hnames s (hmem s hs)).1⟩
  have hns : ∀ ns, declaredModule? admitted = some ns → ns ∈ names := by
    intro ns hns
    obtain ⟨s, hs, hmod⟩ := exists_of_declaredModule? hns
    exact (hnames s (hmem s hs)).2 ns hmod
  have hup := (commitAdmitted_update (h.of_same hgraph.symbols) (hc.of_same hgraph.edges) hcommit
    hns).of_sameGraph hgraph
  rw [heq] at hup
  refine { hup with survives := fun hg hr => ?_ }
  obtain ⟨s', hs', hext⟩ := hup.survives hg hr
  refine ⟨s', hs', fun hn => hext fun hf => hn ?_⟩
  obtain ⟨s, hs, hsg⟩ := List.mem_map.1 hf
  exact List.mem_map.2 ⟨s, hmem s hs, hsg⟩

/-- The first commit of a file that declares no namespace takes nothing away. -/
theorem commitFile_first (hfile : t.files.get? file = none)
    (hns : ∀ s ∈ symbols, s.moduleName = none)
    (hok : t.commitFile file symbols = (.ok summary, t')) :
    (∀ id, summary.removed.contains id = false) ∧ ∀ p, summary.stale.contains p = false := by
  obtain ⟨admitted, reports, hadm, heq⟩ := commitFile_eq_ok hok
  have hdecl : declaredModule? admitted = none := by
    cases hd : declaredModule? admitted with
    | none => rfl
    | some ns =>
      obtain ⟨s, hs, hsns⟩ := exists_of_declaredModule? hd
      rw [hns s (admitted_spec hadm hs).1] at hsns
      cases hsns
  have hentry : t.files.getD file {} = {} := getD_of_none hfile
  have hsummary := congrArg Prod.fst heq
  unfold commitAdmitted at hsummary
  simp only [hentry, hdecl, List.filter_nil, withdrawAll, List.foldl_nil, Withdrawn.declare,
    if_true] at hsummary
  rw [← hsummary]
  refine ⟨fun id => rfl, fun p => ?_⟩
  simp only [cascade]
  rfl

/-- A removal is an update, after which the file has no edges and no entry. -/
theorem removeFile_update (h : Orderly names t) (hc : Counted t) (file : String) :
    Update names file (fun _ => False) (t.removeFile file).1.removed (t.removeFile file).1.stale t
        (t.removeFile file).2 ∧
      (t.removeFile file).2.edgesOf file = [] ∧ (t.removeFile file).2.files.get? file = none := by
  set w := t.goneWith file
  have hadv : Advances names file { table := { t with files := t.files.erase file } } w := by
    refine goneWith_induct (.refl (h.setFiles fun {p entry} hp => ?_)) (fun hf hw => ?_)
      fun hf hm hw => ?_
    · rw [get?_erase_eq] at hp
      split at hp
      · cases hp
      · exact h.listed hp
    · exact hw.trans (foldl_step_advances _ hw.orderly (h.listed hf).1 file)
    · exact hw.trans (release_advances hw.orderly ((h.listed hf).2 _ hm) file)
  have hclear := clearEdges_rewires w.table file
  have hsameEdges : SameEdges t w.table := ⟨hadv.evolves.edges.edges, hadv.evolves.edges.dependents⟩
  have hcounted := hclear.counted (hc.of_same hsameEdges)
  obtain ⟨hsame, hcounted', hedges, howners⟩ := cascade_spec hcounted w.removed file
  have hedgesOf : ∀ o, (w.table.clearEdges file).edgesOf o = if o = file then [] else t.edgesOf o :=
    fun o => (hclear.edgesOf o).trans (by rw [hsameEdges.edgesOf])
  have hfiles : ((w.table.clearEdges file).cascade w.removed file).2.files = t.files.erase file :=
    (hsame.files.trans hclear.same.files).trans hadv.evolves.files
  have hsym := hsame.symbols.trans hclear.same.symbols
  rw [removeFile_eq]
  refine ⟨⟨(hadv.orderly.of_same hclear.same).of_same hsame, hcounted', fun p hp => ?_,
    fun {g s} hg hr => ?_, fun {g s} hg hf he => ?_, fun o ho => ?_, fun e he => ?_,
    fun o ho hlost => ?_⟩, ?_, ?_⟩
  · rw [hfiles, get?_erase_eq, if_neg hp]
  · rw [hsym]
    exact hadv.evolves.survives hg (by simpa using hr)
  · rw [hsym] at hg
    refine (hadv.evolves.foreign hg hf he).imp_right fun hb => ?_
    exact (StringSet.contains_addAll ..).2 (.inr (StringSet.mem_toList.2 hb))
  · rw [hedges, hedgesOf, if_neg ho]
  · rw [hedges, hedgesOf, if_pos rfl] at he
    cases he
  · refine (StringSet.contains_addAll ..).2 (.inl ((howners o).2 ⟨ho, ?_⟩))
    rw [hedgesOf, if_neg ho]
    exact hlost
  · rw [hedges, hedgesOf, if_pos rfl]
    rfl
  · rw [hfiles, get?_erase_eq, if_pos rfl]

end CodeAtlas.Table
