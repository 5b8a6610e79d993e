import Mathlib
import CodeAtlas.Proofs.Table.Changes
import CodeAtlas.Proofs.Table.Namespaces
import CodeAtlas.Proofs.Table.Reports

/-!
# What removals and commits report

A removal or a commit of a file tells which identifiers are gone and which other files are to be
looked at again. Both answers are exact: a file is named if and only if it lost an edge or got a
hidden definition back. The running tally of the withdrawn definitions is compared with the cells of
the table that it started from (`Tally`), definition by definition.

Main results:

* `Tally.step`, `Tally.foldl_step`: the tally stays exact.
* `removeFile_reports`, `commitFile_reports`: what the two operations report.
* `updates_cascade_exactly`: both together, for every table.
-/

namespace CodeAtlas

open SortedMap

namespace Cell

variable {c c' : Cell} {fqn file : String} {declared : Bool}

/-! ## Losing and regaining a symbol -/

/-- The name had a symbol and has none any more. -/
def Loses (c c' : Cell) : Prop := c.current.isSome = true ∧ c'.current = none

/-- A hidden definition has become the symbol of the name. -/
def Regains (c c' : Cell) (s : Symbol) : Prop :=
  s ∈ c.hidden ∧ c'.current = some s ∧ c.current ≠ some s

theorem not_loses_self (c : Cell) : ¬c.Loses c := by
  rintro ⟨hsome, hnone⟩
  simp [hnone] at hsome

theorem not_regains_self (c : Cell) (s : Symbol) : ¬c.Regains c s := fun h => h.2.2 h.2.1

/-- A file gives its definition up only once. -/
theorem withdraw_withdraw (file : String) (fallback : Option Symbol) (c : Cell) :
    (c.withdraw file fallback).withdraw file fallback = c.withdraw file fallback := by
  have hkept : ∀ c : Cell, (∀ s, c.current = some s → s.file ≠ file ∨ s.isExternal = true) →
      (∀ s ∈ c.hidden, s.file ≠ file) → c.withdraw file fallback = c := by
    intro c hother hhidden
    have hall : (c.hidden.filter fun s => s.file != file) = c.hidden :=
      List.filter_eq_self.2 fun s hs => by simpa using hhidden s hs
    rcases withdraw_cases file fallback c with ⟨hw, -⟩ | ⟨s, hs, hfile, hext, -⟩
    · rw [hw, hall]
    · rcases hother s hs with hne | hne
      · exact absurd hfile hne
      · rw [hext] at hne
        cases hne
  have hrest : ∀ x ∈ c.hidden.filter fun s => s.file != file, x.file ≠ file := fun x hx => by
    simpa using (List.mem_filter.1 hx).2
  rcases withdraw_cases file fallback c with
    ⟨hw, hother⟩ | ⟨s, -, -, -, ⟨previous, rest, hr, hw⟩ | ⟨-, hw⟩⟩
  · rw [hw]
    exact hkept _ hother hrest
  · rw [hr] at hrest
    rw [hw]
    refine hkept _ (fun x hx => ?_) fun x hx => hrest x (List.mem_cons_of_mem _ hx)
    cases hx
    exact .inl (hrest previous (List.mem_cons_self ..))
  · rw [hw]
    rcases withdraw_cases file fallback ⟨fallback, []⟩ with
      ⟨hw', -⟩ | ⟨x, -, -, -, ⟨previous, rest, hr, -⟩ | ⟨-, hw'⟩⟩
    · rw [hw']
      rfl
    · cases hr
    · exact hw'

/-- Who has a symbol after a withdrawal had one before. -/
theorem isSome_of_withdraw (h : (c.withdraw file (fallback fqn declared)).current.isSome = true) :
    c.current.isSome = true := by
  rcases withdraw_cases file (fallback fqn declared) c with ⟨hw, -⟩ | ⟨s, hs, -⟩
  · rwa [hw] at h
  · simp [hs]

end Cell

namespace Table

variable {t t' t₀ : Table} {w : Withdrawn} {fqn file : String} {l : List String}
  {symbols : List Symbol}

/-- The answer to a withdrawal is exact: it tells whether the name lost its symbol, and whose hidden
definition came back. -/
theorem withdraw_answer (h : (t.cell fqn).Proper fqn) (file : String) :
    (∀ id, (t.withdraw fqn file).1 = .gone id ↔
      SymbolId.ofFqn fqn = id ∧ (t.cell fqn).Loses ((t.withdraw fqn file).2.cell fqn)) ∧
    ∀ p, (t.withdraw fqn file).1 = .restored p ↔
      ∃ s, (t.cell fqn).Regains ((t.withdraw fqn file).2.cell fqn) s ∧ s.file = p := by
  obtain ⟨⟨-, hc⟩, -⟩ := withdraw_spec h.regular file
  rw [hc]
  rcases Cell.withdraw_cases file (Cell.fallback fqn (t.modules.contains fqn)) (t.cell fqn) with
    ⟨hw, hs⟩ | ⟨s, hs, hsfile, hext, ⟨previous, rest, hr, hw⟩ | ⟨hr, hw⟩⟩
  · -- the symbol stays
    rw [withdraw_of_kept hs, hw]
    refine ⟨fun id => ⟨fun ha => (by cases ha), fun ⟨_, hsome, hnone⟩ => ?_⟩,
      fun p => ⟨fun ha => (by cases ha), fun ⟨x, ⟨_, hx, hne⟩, _⟩ => absurd hx hne⟩⟩
    rw [show (t.cell fqn).current = none from hnone] at hsome
    cases hsome
  · -- a hidden definition takes its place
    have hmem : previous ∈ (t.cell fqn).hidden.filter fun s => s.file != file :=
      hr ▸ List.mem_cons_self ..
    obtain ⟨hhidden, hother⟩ := List.mem_filter.1 hmem
    have hne : (t.cell fqn).current ≠ some previous := by
      intro he
      cases hs.symm.trans he
      simp [hsfile] at hother
    rw [withdraw_of_hidden hs hsfile hext hr, hw]
    refine ⟨fun id => ⟨fun ha => (by cases ha), fun ⟨_, _, hnone⟩ => (by cases hnone)⟩,
      fun p => ⟨fun ha => ?_, fun ⟨x, ⟨_, hx, _⟩, hp⟩ => ?_⟩⟩
    · cases ha
      exact ⟨previous, ⟨hhidden, rfl, hne⟩, rfl⟩
    · cases hx
      rw [hp]
  · -- the last definition goes
    have hnone : ∀ x, ¬(t.cell fqn).Regains ⟨Cell.fallback fqn (t.modules.contains fqn), []⟩ x := by
      rintro x ⟨hhidden, hx, -⟩
      obtain ⟨-, rfl⟩ := Cell.fallback_eq_some.1 hx
      exact (Symbol.isPlaced_iff.1 (h.hidden _ hhidden).2).2 rfl
    have hsid : s.id = .ofFqn fqn := (h.named hs).2
    have hsome : (t.cell fqn).current.isSome = true := by rw [hs]; rfl
    rw [withdraw_of_last hs hsfile hext hr, hw]
    by_cases hm : t.modules.contains fqn = true
    · simp only [hm, if_true] at hnone ⊢
      refine ⟨fun id => ⟨fun ha => (by cases ha), fun ⟨_, _, hgone⟩ => (by cases hgone)⟩,
        fun p => ⟨fun ha => (by cases ha), fun ⟨x, hx, _⟩ => absurd hx (hnone x)⟩⟩
    · simp only [hm] at hnone ⊢
      refine ⟨fun id => ⟨fun ha => ?_, fun ⟨hid, _⟩ => ?_⟩,
        fun p => ⟨fun ha => (by cases ha), fun ⟨x, hx, _⟩ => absurd hx (hnone x)⟩⟩
      · cases ha
        exact ⟨hsid.symm, hsome, rfl⟩
      · exact congrArg Withdrawal.gone (hsid.trans hid)

/-! ## The tally of withdrawn definitions -/

/-- What a running withdrawal lists is what became of the table `t₀` that it started from. -/
structure Exact (t₀ : Table) (w : Withdrawn) : Prop where
  removed : ∀ id, w.removed.contains id = true ↔
    ∃ g, SymbolId.ofFqn g = id ∧ (t₀.cell g).Loses (w.table.cell g)
  restored : ∀ p, w.restored.contains p = true ↔
    ∃ g s, (t₀.cell g).Regains (w.table.cell g) s ∧ s.file = p

/-- The state of a running withdrawal after the names `l`. -/
structure Tally (file : String) (l : List String) (t₀ : Table) (w : Withdrawn) : Prop
    extends Exact t₀ w where
  withdrawn : ∀ g ∈ l, w.table.cell g =
    (t₀.cell g).withdraw file (Cell.fallback g (t₀.modules.contains g))
  kept : ∀ g, g ∉ l → w.table.cell g = t₀.cell g
  modules : w.table.modules = t₀.modules
  proper : w.table.Proper

theorem exact_start (t : Table) : Exact t { table := t } where
  removed id := by simp [Cell.not_loses_self]
  restored p := by simp [Cell.not_regains_self]

theorem Tally.start (file : String) (h : t.Proper) : Tally file [] t { table := t } :=
  ⟨exact_start t, by simp, fun _ _ => rfl, rfl, h⟩

/-- What the step of a running withdrawal adds to the tally. -/
theorem step_contains (w : Withdrawn) (file fqn : String) :
    (∀ id, (w.step file fqn).removed.contains id = true ↔
      w.removed.contains id = true ∨ (w.table.withdraw fqn file).1 = .gone id) ∧
    ∀ p, (w.step file fqn).restored.contains p = true ↔
      w.restored.contains p = true ∨ (w.table.withdraw fqn file).1 = .restored p := by
  unfold Withdrawn.step
  rcases w.table.withdraw fqn file with ⟨_ | _ | _, t'⟩ <;>
    simp [contains_insert, StringSet.contains_add] <;> grind

/-- What happens to the cells in two steps, of which the second concerns one name, and does nothing
if the first one did something to it. -/
theorem exists_cell_iff {t₁ t₂ : Table} (hothers : ∀ g, g ≠ fqn → t₂.cell g = t₁.cell g)
    (hcell : t₁.cell fqn = t₀.cell fqn ∨ t₂.cell fqn = t₁.cell fqn)
    {P : String → Cell → Cell → Prop} (hself : ∀ g c, ¬P g c c) :
    (∃ g, P g (t₀.cell g) (t₂.cell g)) ↔
      (∃ g, P g (t₀.cell g) (t₁.cell g)) ∨ P fqn (t₁.cell fqn) (t₂.cell fqn) := by
  constructor
  · rintro ⟨g, hg⟩
    by_cases hgf : g = fqn
    · subst hgf
      rcases hcell with hold | hsame
      · exact .inr (hold ▸ hg)
      · exact .inl ⟨g, hsame ▸ hg⟩
    · exact .inl ⟨g, hothers g hgf ▸ hg⟩
  · rintro (⟨g, hg⟩ | hg)
    · by_cases hgf : g = fqn
      · subst hgf
        rcases hcell with hold | hsame
        · exact absurd (hold ▸ hg) (hself g _)
        · exact ⟨g, hsame ▸ hg⟩
      · exact ⟨g, (hothers g hgf).symm ▸ hg⟩
    · rcases hcell with hold | hsame
      · exact ⟨fqn, hold ▸ hg⟩
      · exact absurd (hsame ▸ hg) (hself fqn _)

theorem Tally.step (h : Tally file l t₀ w) (fqn : String) :
    Tally file (l ++ [fqn]) t₀ (w.step file fqn) := by
  obtain ⟨⟨ht, hc⟩, hm, -⟩ := withdraw_spec (h.proper fqn).regular file
  obtain ⟨hgone, hback⟩ := withdraw_answer (h.proper fqn) file
  obtain ⟨hremoved, hrestored⟩ := step_contains w file fqn
  rw [← step_table] at ht hc hm hgone hback
  rw [h.modules] at hc hm
  -- the name is withdrawn for the first time, or nothing happens to it
  have hagain : fqn ∈ l → (w.step file fqn).table.cell fqn = w.table.cell fqn := by
    intro hl
    rw [hc, h.withdrawn fqn hl, Cell.withdraw_withdraw]
  have hcell : w.table.cell fqn = t₀.cell fqn ∨
      (w.step file fqn).table.cell fqn = w.table.cell fqn := by
    by_cases hl : fqn ∈ l
    · exact .inr (hagain hl)
    · exact .inl (h.kept fqn hl)
  refine ⟨⟨fun id => ?_, fun p => ?_⟩, fun g hg => ?_, fun g hg => ?_, hm, ?_⟩
  · rw [hremoved, h.removed, hgone]
    exact (exists_cell_iff (P := fun g c c' => SymbolId.ofFqn g = id ∧ c.Loses c') ht.cells hcell
      fun g c hno => c.not_loses_self hno.2).symm
  · rw [hrestored, h.restored, hback]
    exact (exists_cell_iff (P := fun _ c c' => ∃ s, c.Regains c' s ∧ s.file = p) ht.cells hcell
      fun g c ⟨s, hno, _⟩ => c.not_regains_self s hno).symm
  · by_cases hgf : g = fqn
    · subst hgf
      by_cases hl : g ∈ l
      · rw [hagain hl, h.withdrawn g hl]
      · rw [hc, h.kept g hl]
    · rw [ht.cells g hgf]
      refine h.withdrawn g ((List.mem_append.1 hg).resolve_right fun hmem => hgf ?_)
      exact List.mem_singleton.1 hmem
  · have hne : g ≠ fqn := fun he => hg (he ▸ List.mem_append_right _ (List.mem_singleton_self _))
    rw [ht.cells g hne]
    exact h.kept g fun hmem => hg (List.mem_append_left _ hmem)
  · have hc : Change (fun _ => False) w.table (w.step file fqn).table := by
      rw [step_table]
      exact .withdraw fqn file
    exact h.proper.change hc

theorem Tally.foldl_step (names : List String) (h : Tally file l t₀ w) :
    Tally file (l ++ names) t₀ (names.foldl (Withdrawn.step file) w) := by
  induction names generalizing w l with
  | nil => simpa using h
  | cons fqn rest ih => simpa using ih (h.step fqn)

/-- All withdrawals of an update. -/
theorem withdrawAll_tally (h : t.Proper) (file : String) (names : List String) :
    Tally file names t (t.withdrawAll file names) :=
  (Tally.start file h).foldl_step names

/-! ## Namespaces -/

/-- The definitions of files that are current stay current, and no others become so. -/
def SamePlaced (t t' : Table) : Prop :=
  ∀ g s, s.isPlaced = true → ((t'.cell g).current = some s ↔ (t.cell g).current = some s)

theorem SamePlaced.trans {t'' : Table} (h : SamePlaced t t') (h' : SamePlaced t' t'') :
    SamePlaced t t'' := fun g s hs => (h' g s hs).trans (h g s hs)

theorem SamePlaced.regains (h : SamePlaced t t') (h₀ : t₀.Proper) (g : String) (s : Symbol) :
    (t₀.cell g).Regains (t'.cell g) s ↔ (t₀.cell g).Regains (t.cell g) s :=
  and_congr_right fun hs => and_congr_left' (h g s ((h₀ g).hidden s hs).2)

theorem releaseModule_samePlaced (t : Table) (ns file : String) :
    SamePlaced t (t.releaseModule ns file).2 := by
  intro g s hs
  rcases releaseModule_cases t ns file with ⟨modules, heq⟩ | ⟨x, hx, -, hfile, heq⟩
  · rw [heq]
    rfl
  · rw [heq]
    change (t.symbols.erase ns).get? g = some s ↔ t.symbols.get? g = some s
    rw [get?_erase_eq]
    split
    · next hg =>
      -- what goes belongs to no file
      refine ⟨fun hno => (by cases hno), fun hcur => absurd hfile ?_⟩
      rw [hg, hx] at hcur
      cases hcur
      exact (Symbol.isPlaced_iff.1 hs).2
    · rfl

theorem acquireModule_samePlaced (t : Table) (ns file : String) :
    SamePlaced t (t.acquireModule ns file) := by
  intro g s hs
  obtain ⟨⟨ht, hc⟩, -⟩ := acquireModule_spec t ns file
  change (t.acquireModule ns file).symbols.get? g = some s ↔ t.symbols.get? g = some s
  rw [ht.get?_of_acquire hc]
  constructor
  · intro hcur
    rcases Option.or_eq_some_iff.1 hcur with hcur | ⟨-, hcur⟩
    · exact hcur
    · split at hcur
      · cases hcur
        simp [Symbol.isPlaced] at hs
      · cases hcur
  · intro hcur
    rw [hcur]
    rfl

theorem declare_samePlaced (w : Withdrawn) (file : String) (old new : Option String) :
    SamePlaced w.table (w.declare file old new).table ∧
      (w.declare file old new).restored = w.restored := by
  have hrelease : ∀ ns, SamePlaced w.table (w.release ns file).table ∧
      (w.release ns file).restored = w.restored := by
    intro ns
    refine ⟨release_table w ns file ▸ releaseModule_samePlaced w.table ns file, ?_⟩
    unfold Withdrawn.release
    rcases w.table.releaseModule ns file with ⟨_ | _, t'⟩ <;> rfl
  unfold Withdrawn.declare
  split
  · exact ⟨fun _ _ _ => Iff.rfl, rfl⟩
  · cases old with
    | none =>
      cases new with
      | none => exact ⟨fun _ _ _ => Iff.rfl, rfl⟩
      | some n => exact ⟨acquireModule_samePlaced w.table n file, rfl⟩
    | some o =>
      obtain ⟨hsame, hrestored⟩ := hrelease o
      cases new with
      | none => exact ⟨hsame, hrestored⟩
      | some n => exact ⟨hsame.trans (acquireModule_samePlaced _ n file), hrestored⟩

/-! ## Removing a file -/

/-- With its last file the symbol of a namespace goes, and is listed. -/
theorem Tally.release (h : Tally file l t₀ w) (h₀ : t₀.Proper) (ns : String) :
    Exact t₀ (w.release ns file) := by
  have hsame : SamePlaced w.table (w.release ns file).table :=
    release_table w ns file ▸ releaseModule_samePlaced w.table ns file
  rcases releaseModule_cases w.table ns file with ⟨modules, heq⟩ | ⟨s, hs, -, -, heq⟩
  · have hrelease : w.release ns file = { w with table := { w.table with modules } } := by
      rw [Withdrawn.release, heq]
    rw [hrelease]
    exact ⟨h.removed, h.restored⟩
  · have hsid : s.id = .ofFqn ns := ((h.proper ns).named hs).2
    have hcell : ∀ g, (w.release ns file).table.cell g =
        if g = ns then ⟨none, (w.table.cell ns).hidden⟩ else w.table.cell g := by
      intro g
      rw [release_table, heq]
      split
      · next hg =>
        subst hg
        exact Cell.ext ((get?_erase_eq w.table.symbols g g).trans (if_pos rfl)) rfl
      · next hg => exact Cell.ext ((get?_erase_eq w.table.symbols ns g).trans (if_neg hg)) rfl
    have hremoved : ∀ id, (w.release ns file).removed.contains id = true ↔
        w.removed.contains id = true ∨ SymbolId.ofFqn ns = id := by
      intro id
      rw [Withdrawn.release, heq, hsid, contains_insert, Bool.or_eq_true, decide_eq_true_eq]
      exact or_comm.trans (or_congr_right eq_comm)
    have hrestored : (w.release ns file).restored = w.restored := by
      rw [Withdrawn.release, heq]
    refine ⟨fun id => ?_, fun p => ?_⟩
    · rw [hremoved, h.removed]
      constructor
      · rintro (⟨g, hid, hsome, hnone⟩ | hid)
        · refine ⟨g, hid, hsome, ?_⟩
          rw [hcell]
          split
          · rfl
          · exact hnone
        · refine ⟨ns, hid, ?_, by rw [hcell, if_pos rfl]⟩
          -- the symbol of the namespace was there before the file went
          have hknown : (w.table.cell ns).current.isSome = true := by
            rw [show (w.table.cell ns).current = some s from hs]
            rfl
          by_cases hl : ns ∈ l
          · rw [h.withdrawn ns hl] at hknown
            exact Cell.isSome_of_withdraw hknown
          · rwa [h.kept ns hl] at hknown
      · rintro ⟨g, hid, hsome, hnone⟩
        rw [hcell] at hnone
        split at hnone
        · next hg => exact .inr (hg ▸ hid)
        · exact .inl ⟨g, hid, hsome, hnone⟩
    · rw [hrestored, h.restored]
      exact exists_congr fun g => exists_congr fun x =>
        and_congr_left' (hsame.regains h₀ g x).symm

/-- What is withdrawn with a file is listed exactly. -/
theorem goneWith_exact (h : t.Proper) (file : String) : Exact t (t.goneWith file) := by
  cases hf : t.files.get? file with
  | none =>
    rw [show t.goneWith file = { table := t } by simp only [goneWith, hf]]
    exact exact_start t
  | some entry =>
    set t₁ : Table := { t with files := t.files.erase file } with ht₁
    have hproper : t₁.Proper := h
    have htally := withdrawAll_tally hproper file entry.fqns
    cases hm : entry.moduleName with
    | none =>
      rw [show t.goneWith file = t₁.withdrawAll file entry.fqns by
        simp only [goneWith, hf, hm, ht₁]]
      exact ⟨htally.removed, htally.restored⟩
    | some ns =>
      have hreleased := htally.release hproper ns
      rw [show t.goneWith file = (t₁.withdrawAll file entry.fqns).release ns file by
        simp only [goneWith, hf, hm, ht₁]]
      exact ⟨hreleased.removed, hreleased.restored⟩

/-- A file lost an edge, or a hidden definition of the file became current. -/
def Disturbed (t t' : Table) (g : String) : Prop :=
  (∃ e ∈ t.edgesOf g, e ∉ t'.edgesOf g) ∨
    ∃ fqn s, (t.cell fqn).Regains (t'.cell fqn) s ∧ s.file = g

/-- Who loses the edges to some symbols loses one if it had one. -/
theorem lost_edge_iff {removed : IdSet} {g : String}
    (h : t'.edgesOf g = (t.edgesOf g).filter fun e => !removed.contains e.target) :
    (∃ e ∈ t.edgesOf g, e ∉ t'.edgesOf g) ↔
      ∃ e ∈ t.edgesOf g, removed.contains e.target = true := by
  refine exists_congr fun e => and_congr_right fun he => ?_
  rw [h, List.mem_filter]
  simp [he]

/-- Nothing of a file is left. -/
structure IsRidOf (file : String) (t : Table) : Prop where
  entry : t.files.get? file = none
  symbols : ∀ {fqn s}, t.symbols.get? fqn = some s → s.file ≠ file
  hidden : ∀ {fqn s}, s ∈ t.shadowed.getD fqn [] → s.file ≠ file
  modules : ∀ ns, (t.modules.getD ns ∅).contains file = false
  edges : t.edgesOf file = []

/-- A file without an entry and edges has nothing else in the table. -/
theorem isRidOf_of_entry (hproper : t.Proper) (hhome : t.AtHome) (hfile : file ≠ "")
    (hentry : t.files.get? file = none) (hedges : t.edgesOf file = []) : t.IsRidOf file := by
  have hdefault : t.files.getD file {} = {} := getD_of_none hentry
  have hlists : ∀ {p fqn}, t.Lists p fqn → p ≠ file := by
    rintro p fqn hl rfl
    rw [Lists, hdefault] at hl
    cases hl
  refine ⟨hentry, fun {fqn s} hs => ?_, fun {fqn s} hs => ?_, fun ns => ?_, hedges⟩
  · rcases (hhome.cells fqn).current hs with hext | ⟨rfl, -⟩ | hl
    · rw [(hproper fqn).placeless hs hext]
      exact Ne.symm hfile
    · exact Ne.symm hfile
    · exact hlists hl
  · exact hlists ((hhome.cells fqn).hidden s hs).2.2
  · refine eq_false_of_ne_true fun hc => ?_
    have hd := (hhome.modules ns file).1 hc
    rw [Declares, hdefault] at hd
    cases hd

/-- The identifiers that are listed are those of the symbols that are gone. -/
theorem Exact.removed_iff (h : Exact t w) (hproper : t.Proper)
    (hcell : ∀ g, t'.cell g = w.table.cell g) (id : SymbolId) :
    w.removed.contains id = true ↔ ∃ fqn s, t.symbols.get? fqn = some s ∧ s.id = id ∧
      t'.symbols.contains fqn = false := by
  rw [h.removed]
  constructor
  · rintro ⟨g, rfl, hsome, hnone⟩
    obtain ⟨s, hs⟩ := Option.isSome_iff_exists.1 hsome
    exact ⟨g, s, hs, ((hproper g).named hs).2,
      contains_eq_false_iff.2 ((congrArg Cell.current (hcell g)).trans hnone)⟩
  · rintro ⟨g, s, hs, rfl, hgone⟩
    refine ⟨g, ((hproper g).named hs).2.symm, Option.isSome_iff_exists.2 ⟨s, hs⟩, ?_⟩
    rw [← hcell]
    exact contains_eq_false_iff.1 hgone

/-- What the removal of a file reports is what it did. -/
theorem removeFile_reports (h : Intact t) (hproper : t.Proper) (hhome : t.AtHome)
    {summary : RemovalSummary} (hr : t.removeFile file = (summary, t')) :
    (∀ id, summary.removed.contains id = true ↔ ∃ fqn s, t.symbols.get? fqn = some s ∧ s.id = id ∧
      t'.symbols.contains fqn = false) ∧ (∀ o, t'.edgesOf o = if o = file then []
      else (t.edgesOf o).filter fun e => !summary.removed.contains e.target) ∧
    ∀ g, summary.stale.contains g = true ↔ g ≠ file ∧ Disturbed t t' g := by
  have hhome' : t'.AtHome := by simpa only [hr] using (hhome.removeFile file).1
  have hproper' : t'.Proper := by
    have hchanges : Changes (fun _ => False) t (t.removeFile file).2 :=
      (keeps_changes _ t).removeFile .refl file
    simpa only [hr] using hproper.changes hchanges
  have hentry : t'.files.get? file = none := by
    have hfiles := removeFile_files t file
    rw [hr] at hfiles
    rw [hfiles, get?_erase_eq, if_pos rfl]
  set w := t.goneWith file with hw
  rw [removeFile_eq, ← hw] at hr
  obtain ⟨rfl, ht'⟩ := Prod.mk.inj hr
  have hexact : Exact t w := goneWith_exact hproper file
  have hedges : SameEdges t w.table := (h.anchored.goneWith file).edges
  have hclear := clearEdges_rewires w.table file
  obtain ⟨hsame, -, hkept, howners⟩ :=
    cascade_spec (hclear.counted (h.counted.of_same hedges)) w.removed file
  rw [ht'] at hsame hkept
  have hcell : ∀ g, t'.cell g = w.table.cell g := cell_of_same (hclear.same.trans hsame)
  have hcleared : ∀ o, (w.table.clearEdges file).edgesOf o = if o = file then [] else t.edgesOf o :=
    fun o => (hclear.edgesOf o).trans (by rw [hedges.edgesOf])
  have hfinal : ∀ o, t'.edgesOf o = if o = file then []
      else (t.edgesOf o).filter fun e => !w.removed.contains e.target := by
    intro o
    rw [hkept, hcleared]
    split <;> rfl
  refine ⟨hexact.removed_iff hproper hcell, hfinal, fun g => ?_⟩
  rw [StringSet.contains_addAll, StringSet.mem_toList, hexact.restored, howners]
  simp only [← hcell, hcleared]
  by_cases hg : g = file
  · -- no definition of the file itself comes back
    simp only [hg, ne_eq, not_true_eq_false, false_and, false_or, iff_false]
    rintro ⟨fqn, s, ⟨hhidden, hcur, -⟩, hs⟩
    have hplaced := Symbol.isPlaced_iff.1 ((hproper fqn).hidden s hhidden).2
    have hrid := isRidOf_of_entry hproper' hhome' (hs ▸ hplaced.2) hentry
      (hfinal file ▸ if_pos rfl)
    exact hrid.symbols hcur hs
  · simp only [hg, ne_eq, not_false_eq_true, true_and, if_false]
    refine or_congr (lost_edge_iff ?_).symm Iff.rfl
    rw [hfinal, if_neg hg]

/-! ## Committing a file -/

theorem foldl_commitSymbol_cells (symbols : List Symbol) {a : CommitSummary × Table}
    (hs : Offered file symbols) (g : String) : (g ∉ symbols.map (·.fqn) →
      (symbols.foldl (commitSymbol file) a).2.cell g = a.2.cell g) ∧ (g ∈ symbols.map (·.fqn) →
      ∃ s, ((symbols.foldl (commitSymbol file) a).2.cell g).current = some s ∧ s.file = file) := by
  induction symbols generalizing a with
  | nil => exact ⟨fun _ => rfl, fun hg => by cases hg⟩
  | cons s rest ih =>
    obtain ⟨hstands, -, rfl⟩ := hs s (List.mem_cons_self ..)
    obtain ⟨⟨ht, hc⟩, -⟩ := commitSymbol_spec (t := a.2) rfl hstands.2 a.1
    obtain ⟨hout, hin⟩ := ih (a := commitSymbol s.file a s) fun x hx =>
      hs x (List.mem_cons_of_mem _ hx)
    rw [List.map_cons, List.foldl_cons]
    refine ⟨fun hg => ?_, fun hg => ?_⟩
    · obtain ⟨hne, hrest⟩ := not_or.1 (List.mem_cons.not.1 hg)
      rw [hout hrest]
      exact ht.cells g hne
    · by_cases hrest : g ∈ rest.map (·.fqn)
      · exact hin hrest
      · obtain rfl := (List.mem_cons.1 hg).resolve_right hrest
        rw [hout hrest]
        exact ⟨s, congrArg Cell.current hc, rfl⟩

/-- A definition of another file that is listed as restored is still current once a file has stored
its symbols, for its own names are not among the withdrawn ones. -/
theorem restored_iff_regains (hproper : t.Proper) (hs : Offered file symbols) {old : List String}
    (hold : ∀ f ∈ old, f ∉ symbols.map (·.fqn)) (left joined : Option String) {p : String}
    (hp : p ≠ file) :
    ((t.withdrawAll file old).declare file left joined).restored.contains p = true ↔
      ∃ fqn s, (t.cell fqn).Regains ((symbols.foldl (commitSymbol file) (({} : CommitSummary),
        ((t.withdrawAll file old).declare file left joined).table)).2.cell fqn) s ∧ s.file = p := by
  have htally := withdrawAll_tally hproper file old
  obtain ⟨hplaced, hrestored⟩ := declare_samePlaced (t.withdrawAll file old) file left joined
  rw [hrestored, htally.restored]
  refine exists_congr fun fqn => exists_congr fun s => and_congr_left fun hfile => ?_
  rw [← hplaced.regains hproper]
  obtain ⟨hout, hin⟩ := foldl_commitSymbol_cells symbols (a := (({} : CommitSummary),
    ((t.withdrawAll file old).declare file left joined).table)) hs fqn
  by_cases hnew : fqn ∈ symbols.map (·.fqn)
  · constructor
    · intro hr
      refine absurd ?_ ((t.cell fqn).not_regains_self s)
      rw [hplaced.regains hproper, htally.kept fqn fun hmem => hold fqn hmem hnew] at hr
      exact hr
    · rintro ⟨-, hcur, -⟩
      obtain ⟨x, hx, hxfile⟩ := hin hnew
      cases hcur.symm.trans hx
      exact absurd (hfile.symm.trans hxfile) hp
  · rw [hout hnew]

/-- What an accepted set of symbols reports is what it did. -/
theorem commitAdmitted_reports (h : Intact t) (hproper : t.Proper) (hs : Offered file symbols) :
    (∀ o, (t.commitAdmitted file symbols).2.edgesOf o = (t.edgesOf o).filter fun e =>
      !(t.commitAdmitted file symbols).1.removed.contains e.target) ∧
    ∀ g, (t.commitAdmitted file symbols).1.stale.contains g = true ↔
      g ≠ file ∧ Disturbed t (t.commitAdmitted file symbols).2 g := by
  set old := (t.files.getD file {}).fqns.filter fun f => !(symbols.map (·.fqn)).contains f
  set w := t.madeWay file symbols
  set t₁ := t.stored file symbols
  set t₂ := t.filed file symbols
  -- the edges are those of the table, until the last step
  have haccounts : Accounts t w := h.anchored.madeWay file symbols
  have hcommitted := Intact.foldl_commitSymbol symbols file (a := (({} : CommitSummary), w.table))
    haccounts.anchored fun s hmem => (hs s hmem).1
  have hboth := haccounts.edges.trans hcommitted.2.1
  have hedges : SameEdges t t₂ := ⟨hboth.edges, hboth.dependents⟩
  obtain ⟨hsame, -, hkept, howners⟩ := cascade_spec (h.counted.of_same hedges) w.removed file
  have htable : (t.commitAdmitted file symbols).2 = (t₂.cascade w.removed file).2 := rfl
  have hcell : ∀ g, (t₂.cascade w.removed file).2.cell g = t₁.cell g := fun g =>
    cell_of_same (t := t₂) hsame g
  have hnew : ∀ f ∈ old, f ∉ symbols.map (·.fqn) := fun f hf => by
    simpa using (List.mem_filter.1 hf).2
  rw [htable]
  refine ⟨fun o => ?_, fun g => ?_⟩
  · rw [hkept, hedges.edgesOf]
    rfl
  · rw [commitAdmitted_stale]
    refine and_congr_right fun hg => or_congr ?_ ?_
    · have hlost := lost_edge_iff (t := t) ((hkept g).trans (by rw [hedges.edgesOf]))
      rw [howners, hedges.edgesOf, hlost]
      exact and_iff_right hg
    · simp only [hcell]
      exact restored_iff_regains hproper hs hnew _ _ hg

theorem commitFile_reports (h : Intact t) (hproper : t.Proper) {summary : CommitSummary}
    (hok : t.commitFile file symbols = (.ok summary, t')) :
    (∀ o, t'.edgesOf o = (t.edgesOf o).filter fun e => !summary.removed.contains e.target) ∧
    ∀ g, summary.stale.contains g = true ↔ g ≠ file ∧ Disturbed t t' g := by
  obtain ⟨admitted, reports, hadm, heq⟩ := commitFile_eq_ok hok
  have hoffered : Offered file admitted := fun s hs =>
    (admitted_spec hadm hs).2.imp_left fun hid => ⟨rfl, hid⟩
  have hreports := commitAdmitted_reports (t := { t with diagnostics := t.diagnostics ++ reports })
    (h.of_sameGraph (.setDiagnostics t _)) hproper hoffered
  rw [heq] at hreports
  exact hreports

/-- The removal of a file reports exactly the identifiers of the symbols that are gone, leaves
nothing of the file and takes from every other owner the edges to what is gone, in order. An accepted
commit takes from every owner the edges to what it reports as gone. Both name exactly the other files
that lost an edge or got a hidden definition back. -/
theorem updates_cascade_exactly (ops : List Operation) {file : String} (hfile : file ≠ "") :
    (∀ summary t', (after ops).removeFile file = (summary, t') →
      (∀ id, summary.removed.contains id = true ↔ ∃ fqn s, (after ops).symbols.get? fqn = some s ∧
        s.id = id ∧ t'.symbols.contains fqn = false) ∧
      t'.IsRidOf file ∧
      (∀ o, o ≠ file → t'.edgesOf o =
        ((after ops).edgesOf o).filter fun e => !summary.removed.contains e.target) ∧
      ∀ g, summary.stale.contains g = true ↔ g ≠ file ∧ Disturbed (after ops) t' g) ∧
    ∀ symbols summary t', (after ops).commitFile file symbols = (.ok summary, t') →
      (∀ o, t'.edgesOf o =
        ((after ops).edgesOf o).filter fun e => !summary.removed.contains e.target) ∧
      ∀ g, summary.stale.contains g = true ↔ g ≠ file ∧ Disturbed (after ops) t' g := by
  have hintact := intact_after ops
  have hproper := proper_after ops
  refine ⟨fun summary t' hr => ?_,
    fun symbols summary t' hok => commitFile_reports hintact hproper hok⟩
  obtain ⟨hremoved, hedges, hstale⟩ := removeFile_reports hintact hproper (homed_after ops) hr
  have hafter : after (ops ++ [.remove file]) = t' :=
    (List.foldl_append ..).trans (congrArg Prod.snd hr)
  have hentry : t'.files.get? file = none := by
    have hfiles := removeFile_files (after ops) file
    rw [hr] at hfiles
    rw [hfiles, get?_erase_eq, if_pos rfl]
  refine ⟨hremoved, ?_, fun o ho => (hedges o).trans (if_neg ho), hstale⟩
  refine isRidOf_of_entry ?_ ?_ hfile hentry ((hedges file).trans (if_pos rfl))
  · exact hafter ▸ proper_after _
  · exact hafter ▸ homed_after _

/-- A class of the shop, as a file defines it. -/
def shopClass (name file : String) : Symbol :=
  { Symbol.ofName ("shop." ++ name) name .classType with file }

/-- Two files define one class, and a third file extends a class of the second one. -/
def sharedShop : List Operation :=
  [.commit "a.go" [shopClass "Cart" "a.go"],
    .commit "b.go" [shopClass "Cart" "b.go", shopClass "Item" "b.go"],
    .replace "c.go" [.ofScore .extendsType (.ofFqn "c.go") (.ofFqn "shop.Item") Confidence.exact
      "c.go" 1]]

theorem updates_cascade_exactly_shared :
    Disturbed (after sharedShop) ((after sharedShop).removeFile "b.go").2 "a.go" ∧
      Disturbed (after sharedShop) ((after sharedShop).removeFile "b.go").2 "c.go" ∧
      ∃ summary t', (after sharedShop).commitFile "b.go" [] = (.ok summary, t') ∧
        Disturbed (after sharedShop) t' "c.go" := by
  set t : Table := { after sharedShop with diagnostics := (after sharedShop).diagnostics ++ [] }
  have hstale : ((after sharedShop).removeFile "b.go").1.stale.contains "a.go" = true ∧
      ((after sharedShop).removeFile "b.go").1.stale.contains "c.go" = true ∧
      (t.commitAdmitted "b.go" []).1.stale.contains "c.go" = true := by decide +kernel
  have hfile : "b.go" ≠ "" := by decide
  obtain ⟨hremove, hcommit⟩ := updates_cascade_exactly sharedShop hfile
  obtain ⟨-, -, -, hremoved⟩ := hremove _ _ rfl
  obtain ⟨-, hcommitted⟩ := hcommit [] (t.commitAdmitted "b.go" []).1 _ rfl
  exact ⟨((hremoved _).1 hstale.1).2, ((hremoved _).1 hstale.2.1).2, _, _, rfl,
    ((hcommitted _).1 hstale.2.2).2⟩

end Table

end CodeAtlas
