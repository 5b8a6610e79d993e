import Mathlib
import CodeAtlas.Proofs.Table.Ledger

/-!
# Declared namespaces

A namespace has a symbol as long as a file declares it. The name of the namespace is one slot for
all: a definition of that name stands before the symbol of the namespace, which comes back when the
last definition goes. Only a placeholder that was there before the namespace was declared stays, and
the namespace has no definition until a commit defines its name.

Main results:

* `homed_after`: in every table a symbol of the project is that of a declared namespace or is listed
  by its file, and the index of namespaces tells which files declare what.
* `declared_namespace_defined`: a declared namespace is defined, unless a placeholder had its name
  when it was declared and no commit has defined it since; a symbol of a namespace stands for a
  declared one.
-/

namespace CodeAtlas

open SortedMap

namespace Cell

variable {fqn file : String} {declared declared' : Bool} {home home' : String → Prop} {c : Cell}

/-! ## Where a symbol belongs -/

/-- Every symbol of the project in the cell belongs to a file of `home`, or stands for the namespace
if it is declared. -/
structure Homed (fqn : String) (declared : Bool) (home : String → Prop) (c : Cell) : Prop where
  named : ∀ {s}, c.current = some s → s.StandsFor fqn
  current : ∀ {s}, c.current = some s → s.isExternal = true ∨
    s = Table.moduleSymbol fqn ∧ declared = true ∨ home s.file
  hidden : ∀ s ∈ c.hidden, s.StandsFor fqn ∧ s.isExternal = false ∧ home s.file

namespace Homed

section

variable (h : c.Homed fqn declared home)

include h

theorem regular : c.Regular fqn :=
  ⟨fun hs => (h.named hs).2, fun s hs => (h.hidden s hs).2.1⟩

theorem mono (hd : declared = true → declared' = true)
    (hhome : ∀ p, home p → home' p) : c.Homed fqn declared' home' := by
  refine ⟨h.named, fun hs => ?_, fun s hs => ?_⟩
  · exact (h.current hs).imp_right fun hown => hown.imp (fun hm => ⟨hm.1, hd hm.2⟩) (hhome _)
  · obtain ⟨hstands, hint, hfile⟩ := h.hidden s hs
    exact ⟨hstands, hint, hhome _ hfile⟩

/-- A file that gives its definition up is no home any more. -/
theorem withdraw (file : String) :
    (c.withdraw file (fallback fqn declared)).Homed fqn declared fun p => home p ∧ p ≠ file := by
  refine ⟨fun {x} hx => ?_, fun {x} hx => ?_, fun x hx => ?_⟩
  · rcases current_withdraw hx with ⟨hx, -⟩ | ⟨hx, -⟩ | hx
    · exact h.named hx
    · exact (h.hidden x hx).1
    · obtain ⟨-, rfl⟩ := fallback_eq_some.1 hx
      exact ⟨rfl, rfl⟩
  · rcases current_withdraw hx with ⟨hx, hother⟩ | ⟨hx, hne⟩ | hx
    · rcases h.current hx with hext | hmod | hfile
      · exact .inl hext
      · exact .inr (.inl hmod)
      · exact hother.symm.imp_right fun hne => .inr ⟨hfile, hne⟩
    · exact .inr (.inr ⟨(h.hidden x hx).2.2, hne⟩)
    · obtain ⟨hd, rfl⟩ := fallback_eq_some.1 hx
      exact .inr (.inl ⟨rfl, hd⟩)
  · obtain ⟨hx, hne⟩ := hidden_withdraw hx
    obtain ⟨hstands, hint, hfile⟩ := h.hidden x hx
    exact ⟨hstands, hint, hfile, hne⟩

theorem define {s : Symbol} (hs : s.StandsFor fqn)
    (hfile : home s.file) : (c.define s).Homed fqn declared home := by
  refine ⟨?_, ?_, fun x hx => ?_⟩
  · rintro x ⟨⟩
    exact hs
  · rintro x ⟨⟩
    exact .inr (.inr hfile)
  · rcases hidden_define hx with ⟨hcur, hp⟩ | hx
    · obtain ⟨hint, hne⟩ := Symbol.isPlaced_iff.1 hp
      refine ⟨h.named hcur, hint, ?_⟩
      rcases h.current hcur with hext | ⟨rfl, -⟩ | hown
      · rw [hext] at hint
        cases hint
      · exact absurd rfl hne
      · exact hown
    · exact h.hidden x hx

theorem acquire {s : Symbol} (hs : s.StandsFor fqn)
    (hbare : s.isExternal = true ∨ s = Table.moduleSymbol fqn ∧ declared = true) :
    (c.acquire s).Homed fqn declared home := by
  refine ⟨fun hx => ?_, fun hx => ?_, h.hidden⟩
  · rcases current_acquire hx with hx | rfl
    · exact h.named hx
    · exact hs
  · rcases current_acquire hx with hx | rfl
    · exact h.current hx
    · exact hbare.imp_right .inl

theorem release (declared' : Bool) : (c.release declared').Homed fqn declared' home := by
  have hcases : ∀ {x}, (c.release declared').current = some x → c.current = some x ∧
      (declared' = true ∨ ¬(x.kind = .moduleNode ∧ x.file = "")) := by
    intro x hx
    obtain ⟨hx, hkeep⟩ := Option.filter_eq_some_iff.1 hx
    refine ⟨hx, ?_⟩
    rcases Bool.or_eq_true_iff.1 hkeep with hd | hk
    · exact .inl hd
    · refine .inr fun hbare => ?_
      simp [hbare.1, hbare.2] at hk
  refine ⟨fun hx => h.named (hcases hx).1, fun hx => ?_, h.hidden⟩
  obtain ⟨hcur, hkeep⟩ := hcases hx
  rcases h.current hcur with hext | ⟨rfl, -⟩ | hown
  · exact .inl hext
  · exact .inr (.inl ⟨rfl, hkeep.resolve_right fun hno => hno ⟨rfl, rfl⟩⟩)
  · exact .inr (.inr hown)

/-- Without its current symbol a cell has no other homes. -/
theorem filter (p : Symbol → Bool) :
    (⟨c.current.filter p, c.hidden⟩ : Cell).Homed fqn declared home :=
  ⟨fun hs => h.named (Option.filter_eq_some_iff.1 hs).1,
    fun hs => h.current (Option.filter_eq_some_iff.1 hs).1, h.hidden⟩

end

end Homed

/-! ## Filled cells -/

/-- The current symbol is one of the project. -/
def IsDefined (c : Cell) : Prop := ∃ s, c.current = some s ∧ s.isExternal = false

/-- The current symbol is a placeholder. -/
def IsHeld (c : Cell) : Prop := ∃ s, c.current = some s ∧ s.isExternal = true

/-- Giving a definition up brings no placeholder. -/
theorem IsHeld.of_withdraw (h : c.Homed fqn declared home)
    (hheld : (c.withdraw file (fallback fqn declared)).IsHeld) : c.IsHeld := by
  obtain ⟨x, hx, hext⟩ := hheld
  rcases current_withdraw hx with ⟨hx, -⟩ | ⟨hx, -⟩ | hx
  · exact ⟨x, hx, hext⟩
  · rw [(h.hidden x hx).2.1] at hext
    cases hext
  · obtain ⟨-, rfl⟩ := fallback_eq_some.1 hx
    cases hext

/-- A definition that is given up leaves another one, or the symbol of the namespace. -/
theorem IsDefined.withdraw (h : c.Homed fqn declared home) (hc : c.IsDefined)
    (hd : declared = true) (file : String) :
    (c.withdraw file (fallback fqn declared)).IsDefined := by
  obtain ⟨x, hx, hint⟩ := hc
  rcases withdraw_cases file (fallback fqn declared) c with
    ⟨hw, -⟩ | ⟨s, -, -, -, ⟨previous, rest, hr, hw⟩ | ⟨-, hw⟩⟩
  · rw [hw]
    exact ⟨x, hx, hint⟩
  · rw [hw]
    have hmem : previous ∈ c.hidden.filter fun s => s.file != file := hr ▸ List.mem_cons_self ..
    exact ⟨previous, rfl, (h.hidden previous (List.mem_filter.1 hmem).1).2.1⟩
  · rw [hw]
    exact ⟨Table.moduleSymbol fqn, fallback_eq_some.2 ⟨hd, rfl⟩, rfl⟩

theorem IsDefined.acquire (hc : c.IsDefined) (s : Symbol) : (c.acquire s).IsDefined := by
  obtain ⟨x, hx, hint⟩ := hc
  exact ⟨x, by simp [Cell.acquire, hx], hint⟩

end Cell

namespace Table

variable {t t' : Table} {fqn file ns owner : String} {declares lists : String → String → Prop}

/-- A known file declares a namespace. -/
def Declares (t : Table) (file ns : String) : Prop := (t.files.getD file {}).moduleName = some ns

/-- A known file defines a name. -/
def Lists (t : Table) (file fqn : String) : Prop := fqn ∈ (t.files.getD file {}).fqns

/-- Every symbol of the project belongs to a file that lists it or stands for a declared namespace,
where `declares` and `lists` tell what the files do. -/
structure Homed (declares lists : String → String → Prop) (t : Table) : Prop where
  cells : ∀ g, (t.cell g).Homed g (t.modules.contains g) (lists · g)
  modules : ∀ ns file, (t.modules.getD ns ∅).contains file = true ↔ declares file ns
  inhabited : ∀ {ns files}, t.modules.get? ns = some files → files.isEmpty = false

/-- A declared namespace has a definition. -/
def Upheld (ns : String) (t : Table) : Prop := t.modules.contains ns = true → (t.cell ns).IsDefined

/-- No placeholder has the name of the namespace. -/
def IsFree (ns : String) (t : Table) : Prop := ¬(t.cell ns).IsHeld

theorem contains_of_contains_getD {m : SortedMap String StringSet}
    (h : (m.getD ns ∅).contains file = true) : m.contains ns = true := by
  cases hm : m.get? ns with
  | none =>
    rw [getD_of_none hm] at h
    cases h
  | some s => exact contains_of_get? hm

theorem exists_contains {files : StringSet} (h : files.isEmpty = false) :
    ∃ file, files.contains file = true := by
  by_contra hno
  have hempty : files.isEmpty = true := by
    refine isEmpty_iff.2 fun file => contains_eq_false_iff.1 ?_
    exact eq_false_of_ne_true fun hf => hno ⟨file, hf⟩
  rw [hempty] at h
  cases h

section

variable (h : Homed declares lists t)

include h

theorem Homed.declared_iff : t.modules.contains ns = true ↔ ∃ file, declares file ns := by
  constructor
  · intro hc
    obtain ⟨files, hfiles⟩ := contains_iff.1 hc
    obtain ⟨file, hf⟩ := exists_contains (h.inhabited hfiles)
    exact ⟨file, (h.modules ns file).1 ((getD_of_get? hfiles).symm ▸ hf)⟩
  · rintro ⟨file, hf⟩
    exact contains_of_contains_getD ((h.modules ns file).2 hf)

theorem Homed.mono {lists' : String → String → Prop}
    (hlists : ∀ f g, lists f g → lists' f g) : Homed declares lists' t :=
  ⟨fun g => (h.cells g).mono id fun f => hlists f g, h.modules, h.inhabited⟩

/-! ## Steps -/

omit h in
theorem cell_of_same (hs : SameSymbols t t') (g : String) : t'.cell g = t.cell g := by
  simp only [cell, hs.symbols, hs.shadowed]

theorem Homed.of_same (hs : SameSymbols t t') : Homed declares lists t' := by
  refine ⟨fun g => ?_, ?_, ?_⟩
  · rw [cell_of_same hs, hs.modules]
    exact h.cells g
  · rw [hs.modules]
    exact h.modules
  · rw [hs.modules]
    exact h.inhabited

omit h in
theorem Upheld.of_same (h : Upheld ns t) (hs : SameSymbols t t') : Upheld ns t' := by
  intro hd
  rw [cell_of_same hs]
  exact h (hs.modules ▸ hd)

/-- A step on one name that leaves the namespaces alone. -/
theorem Homed.of_touches {lists' : String → String → Prop}
    (ht : Touches fqn t t') (hm : t'.modules = t.modules)
    (hcell : (t'.cell fqn).Homed fqn (t.modules.contains fqn) (lists' · fqn))
    (hlists : ∀ f g, g ≠ fqn → lists f g → lists' f g) : Homed declares lists' t' := by
  refine ⟨fun g => ?_, ?_, ?_⟩
  · rw [hm]
    by_cases hg : g = fqn
    · rw [hg]
      exact hcell
    · rw [ht.cells g hg]
      exact (h.cells g).mono id fun f => hlists f g hg
  · rw [hm]
    exact h.modules
  · rw [hm]
    exact h.inhabited

end

/-- What a step that only takes away does: it neither undoes the definition of a declared namespace
nor brings a placeholder. -/
structure Recedes (t t' : Table) : Prop where
  upheld : ∀ {ns}, Upheld ns t → Upheld ns t'
  free : ∀ {ns}, IsFree ns t → IsFree ns t'

namespace Recedes

theorem refl (t : Table) : Recedes t t := ⟨id, id⟩

theorem trans {t'' : Table} (h : Recedes t t') (h' : Recedes t' t'') : Recedes t t'' :=
  ⟨fun hu => h'.upheld (h.upheld hu), fun hf => h'.free (h.free hf)⟩

end Recedes

theorem Upheld.of_touches (h : Upheld ns t) (ht : Touches fqn t t')
    (hcell : fqn = ns → Upheld ns t') : Upheld ns t' := by
  by_cases hns : fqn = ns
  · exact hcell hns
  · intro hd
    rw [ht.cells ns (Ne.symm hns)]
    refine h ?_
    rwa [SortedMap.contains, ht.modules ns (Ne.symm hns)] at hd

theorem IsFree.of_touches (h : IsFree ns t) (ht : Touches fqn t t')
    (hcell : fqn = ns → IsFree ns t') : IsFree ns t' := by
  by_cases hns : fqn = ns
  · exact hcell hns
  · rw [IsFree, ht.cells ns (Ne.symm hns)]
    exact h

theorem Homed.withdraw (h : Homed declares lists t) (fqn file : String) :
    Homed declares (fun f g => lists f g ∧ ¬(f = file ∧ g = fqn)) (t.withdraw fqn file).2 ∧
      Recedes t (t.withdraw fqn file).2 := by
  obtain ⟨⟨ht, hc⟩, hm, -⟩ := withdraw_spec (h.cells fqn).regular file
  refine ⟨h.of_touches ht hm ?_ fun f g hg hl => ⟨hl, fun hno => hg hno.2⟩, ?_, ?_⟩
  · rw [hc]
    exact ((h.cells fqn).withdraw file).mono id fun f hf => ⟨hf.1, fun hno => hf.2 hno.1⟩
  · intro ns hu
    refine hu.of_touches ht ?_
    rintro rfl hd
    rw [hm] at hd
    rw [hc]
    exact (hu hd).withdraw (h.cells fqn) hd file
  · intro ns hf
    refine hf.of_touches ht ?_
    rintro rfl hheld
    rw [hc] at hheld
    exact hf (hheld.of_withdraw (h.cells fqn))

/-- Withdrawing several definitions of a file. -/
theorem Homed.foldl_step (l : List String) {w : Withdrawn} (h : Homed declares lists w.table)
    (file : String) : Homed declares (fun f g => lists f g ∧ ¬(f = file ∧ g ∈ l))
        (l.foldl (Withdrawn.step file) w).table ∧
      Recedes w.table (l.foldl (Withdrawn.step file) w).table := by
  induction l generalizing w lists with
  | nil => exact ⟨h.mono fun f g hl => ⟨hl, by simp⟩, .refl _⟩
  | cons fqn rest ih =>
    obtain ⟨hhomed, hrecedes⟩ := h.withdraw fqn file
    rw [← step_table] at hhomed hrecedes
    obtain ⟨hhomed', hrecedes'⟩ := ih hhomed
    refine ⟨hhomed'.mono fun f g hl => ⟨hl.1.1, ?_⟩, hrecedes.trans hrecedes'⟩
    rintro ⟨hf, hg⟩
    rcases List.mem_cons.1 hg with hg | hg
    · exact hl.1.2 ⟨hf, hg⟩
    · exact hl.2 ⟨hf, hg⟩

/-! ## Namespaces that come and go -/

theorem getD_eraseFrom (m : SortedMap String StringSet) (key x g : String) :
    (eraseFrom m key x).getD g ∅ = if g = key then (m.getD key ∅).erase x else m.getD g ∅ := by
  rw [SortedMap.getD, get?_eraseFrom]
  split
  · split
    · next he =>
      refine SortedMap.ext fun k => ?_
      rw [isEmpty_iff.1 he k]
      rfl
    · rfl
  · rfl

theorem Homed.releaseModule (h : Homed declares lists t) (hd : declares file ns) :
    Homed (fun f n => declares f n ∧ ¬(f = file ∧ n = ns)) lists (t.releaseModule ns file).2 ∧
      Recedes t (t.releaseModule ns file).2 := by
  have hcontains : t.modules.contains ns = true := h.declared_iff.2 ⟨file, hd⟩
  obtain ⟨⟨ht, hc⟩, hm, -⟩ :=
    releaseModule_spec (h.cells ns).regular (fun _ _ => hcontains) file
  have hgone : ∀ n f, ((eraseFrom t.modules ns file).getD n ∅).contains f = true ↔
      declares f n ∧ ¬(f = file ∧ n = ns) := by
    intro n f
    rw [getD_eraseFrom, ← h.modules]
    split
    · next hn =>
      rw [contains_erase, hn]
      simp [and_comm]
    · next hn => simp [hn]
  refine ⟨⟨fun g => ?_, ?_, ?_⟩, ?_, ?_⟩
  · rw [hm]
    by_cases hg : g = ns
    · rw [hg, hc]
      exact (h.cells ns).release _
    · rw [ht.cells g hg, SortedMap.contains, get?_eraseFrom, if_neg hg]
      exact h.cells g
  · rw [hm]
    exact hgone
  · intro n files hfiles
    rw [hm, get?_eraseFrom] at hfiles
    split at hfiles
    · split at hfiles
      · cases hfiles
      · next he => exact Option.some.inj hfiles ▸ eq_false_of_ne_true he
    · exact h.inhabited hfiles
  · intro n hu
    refine hu.of_touches ht ?_
    rintro rfl hd'
    rw [hm] at hd'
    rw [hc, hd', release_eq_self (by simp)]
    exact hu hcontains
  · intro n hf
    refine hf.of_touches ht ?_
    rintro rfl ⟨x, hx, hext⟩
    rw [hc] at hx
    exact hf ⟨x, (Option.filter_eq_some_iff.1 hx).1, hext⟩

theorem Homed.acquireModule (h : Homed declares lists t) (ns file : String) :
    Homed (fun f n => declares f n ∨ f = file ∧ n = ns) lists (t.acquireModule ns file) := by
  obtain ⟨⟨ht, hc⟩, hm⟩ := acquireModule_spec t ns file
  refine ⟨fun g => ?_, fun n f => ?_, fun {n files} hfiles => ?_⟩
  · rw [hm, contains_insert]
    by_cases hg : g = ns
    · rw [hg, hc, decide_eq_true rfl, Bool.true_or]
      exact ((h.cells ns).mono (fun _ => rfl) fun _ => id).acquire ⟨rfl, rfl⟩ (.inr ⟨rfl, rfl⟩)
    · rw [ht.cells g hg, decide_eq_false hg, Bool.false_or]
      exact h.cells g
  · rw [hm, getD_insert, ← h.modules]
    split
    · next hn =>
      rw [StringSet.contains_add, hn]
      simp [or_comm]
    · next hn => simp [hn]
  · rw [hm, get?_insert_eq] at hfiles
    split at hfiles
    · refine eq_false_of_ne_true fun he => ?_
      have hmem : files.contains file = true := by
        rw [← Option.some.inj hfiles, StringSet.contains_add]
        simp
      rw [SortedMap.contains, isEmpty_iff.1 he] at hmem
      cases hmem
    · exact h.inhabited hfiles

/-- A namespace that no placeholder stands for gets its symbol when it is declared. -/
theorem Upheld.acquireModule (h : Upheld ns t) (hfree : IsFree ns t) (n file : String) :
    Upheld ns (t.acquireModule n file) := by
  obtain ⟨⟨ht, hc⟩, -⟩ := acquireModule_spec t n file
  refine h.of_touches ht ?_
  rintro rfl -
  rw [hc]
  cases hcur : (t.cell n).current with
  | none => exact ⟨moduleSymbol n, by simp [Cell.acquire, hcur], rfl⟩
  | some s =>
    refine Cell.IsDefined.acquire ⟨s, hcur, ?_⟩ _
    exact eq_false_of_ne_true fun hext => hfree ⟨s, hcur, hext⟩

/-- Declaring `new` for a file that declared nothing. -/
theorem Homed.declareNew {w : Withdrawn}
    (h : Homed (fun f n => declares f n ∧ f ≠ file) lists w.table) (new : Option String) :
    Homed (fun f n => if f = file then new = some n else declares f n) lists
        (w.declare file none new).table ∧
      ∀ {ns}, Upheld ns w.table → IsFree ns w.table →
        Upheld ns (w.declare file none new).table := by
  cases new with
  | none =>
    refine ⟨⟨h.cells, fun n f => (h.modules n f).trans ?_, h.inhabited⟩, fun hu _ => hu⟩
    by_cases hf : f = file <;> simp [hf]
  | some n =>
    have hacquired := h.acquireModule n file
    refine ⟨⟨hacquired.cells, fun n' f => (hacquired.modules n' f).trans ?_, hacquired.inhabited⟩,
      fun hu hfree => hu.acquireModule hfree n file⟩
    by_cases hf : f = file
    · simp [hf, eq_comm]
    · simp [hf]

/-- Declaring `new` for a file that declared `old`. -/
theorem Homed.declare {w : Withdrawn} {old : Option String} (h : Homed declares lists w.table)
    (hold : ∀ n, declares file n ↔ old = some n) (new : Option String) :
    Homed (fun f n => if f = file then new = some n else declares f n) lists
        (w.declare file old new).table ∧
      ∀ {ns}, Upheld ns w.table → IsFree ns w.table → Upheld ns (w.declare file old new).table := by
  cases old with
  | none =>
    have hnone : ∀ n f, declares f n ↔ declares f n ∧ f ≠ file := by
      intro n f
      refine ⟨fun hf => ⟨hf, ?_⟩, fun hf => hf.1⟩
      rintro rfl
      cases (hold n).1 hf
    exact declareNew ⟨h.cells, fun n f => (h.modules n f).trans (hnone n f), h.inhabited⟩ new
  | some o =>
    by_cases hsame : some o = new
    · rw [Withdrawn.declare, if_pos hsame, ← hsame]
      refine ⟨⟨h.cells, fun n f => (h.modules n f).trans ?_, h.inhabited⟩, fun hu _ => hu⟩
      split
      · next hf => rw [hf, hold]
      · rfl
    · -- the old namespace is given up first
      obtain ⟨hhomed, hrecedes⟩ := h.releaseModule ((hold o).2 rfl)
      rw [← release_table] at hhomed hrecedes
      have hgone : ∀ n f, declares f n ∧ ¬(f = file ∧ n = o) ↔ declares f n ∧ f ≠ file := by
        intro n f
        refine and_congr_right fun hf => not_congr ⟨fun hno => hno.1, ?_⟩
        rintro rfl
        exact ⟨rfl, (Option.some.inj ((hold n).1 hf)).symm⟩
      have heq : w.declare file (some o) new = (w.release o file).declare file none new := by
        cases new with
        | none => rw [Withdrawn.declare, Withdrawn.declare, if_neg hsame, if_pos rfl]
        | some n => rw [Withdrawn.declare, Withdrawn.declare, if_neg hsame, if_neg (by simp)]
      rw [heq]
      obtain ⟨hnew, hupheld⟩ := declareNew
        ⟨hhomed.cells, fun n f => (hhomed.modules n f).trans (hgone n f), hhomed.inhabited⟩ new
      exact ⟨hnew, fun hu hfree => hupheld (hrecedes.upheld hu) (hrecedes.free hfree)⟩

/-! ## Commits and removals -/

/-- Symbols that a file may commit. -/
def Offered (file : String) (symbols : List Symbol) : Prop :=
  ∀ s ∈ symbols, s.StandsFor s.fqn ∧ s.isExternal = false ∧ s.file = file

theorem Homed.foldl_commitSymbol (symbols : List Symbol) {a : CommitSummary × Table}
    (h : Homed declares lists a.2) (hs : Offered file symbols)
    (hlists : ∀ s ∈ symbols, lists file s.fqn) :
    Homed declares lists (symbols.foldl (commitSymbol file) a).2 ∧
      ∀ {ns}, Upheld ns a.2 → Upheld ns (symbols.foldl (commitSymbol file) a).2 := by
  induction symbols generalizing a with
  | nil => exact ⟨h, id⟩
  | cons s rest ih =>
    obtain ⟨hstands, hint, rfl⟩ := hs s (List.mem_cons_self ..)
    obtain ⟨⟨ht, hc⟩, hm, -⟩ := commitSymbol_spec (t := a.2) rfl hstands.2 a.1
    have hhomed : Homed declares lists (commitSymbol s.file a s).2 := by
      refine h.of_touches ht hm ?_ fun _ _ _ => id
      rw [hc]
      exact (h.cells s.fqn).define hstands (hlists s (List.mem_cons_self ..))
    obtain ⟨hhomed', hupheld⟩ := ih hhomed
      (fun x hx => hs x (List.mem_cons_of_mem _ hx))
      (fun x hx => hlists x (List.mem_cons_of_mem _ hx))
    refine ⟨hhomed', fun hu => hupheld (hu.of_touches ht ?_)⟩
    rintro rfl -
    rw [hc]
    exact ⟨s, rfl, hint⟩

/-- What holds of a table between two operations. -/
def AtHome (t : Table) : Prop := Homed t.Declares t.Lists t

theorem Homed.atHome (h : Homed declares lists t) (hdeclares : ∀ f n, declares f n ↔ t.Declares f n)
    (hlists : ∀ f g, lists f g → t.Lists f g) : AtHome t :=
  ⟨fun g => (h.cells g).mono id fun f => hlists f g,
    fun n f => (h.modules n f).trans (hdeclares f n), h.inhabited⟩

section

variable (h : AtHome t)

include h

theorem AtHome.of_same (hs : SameSymbols t t') : AtHome t' := by
  refine (Homed.of_same h hs).atHome ?_ ?_
  · intro f n
    rw [Declares, Declares, hs.files]
  · intro f g hl
    rw [Lists, hs.files]
    exact hl

theorem AtHome.commitAdmitted {symbols : List Symbol} (hs : Offered file symbols) :
    AtHome (t.commitAdmitted file symbols).2 ∧
      ∀ {ns}, Upheld ns t → IsFree ns t → Upheld ns (t.commitAdmitted file symbols).2 := by
  set old := (t.files.getD file {}).fqns.filter fun f => !(symbols.map (·.fqn)).contains f
  set w := t.madeWay file symbols
  -- the names that the file keeps are the ones that it commits again
  have hkept : ∀ f g, t.Lists f g ∧ ¬(f = file ∧ g ∈ old) →
      if f = file then g ∈ symbols.map (·.fqn) else t.Lists f g := by
    rintro f g ⟨hl, hno⟩
    split
    · next hf =>
      rw [Lists, hf] at hl
      by_contra hg
      exact hno ⟨hf, List.mem_filter.2 ⟨hl, by simpa using hg⟩⟩
    · exact hl
  obtain ⟨hwithdrawn, hrecedes⟩ := Homed.foldl_step old (w := { table := t }) h file
  have hold : ∀ n, t.Declares file n ↔ (t.files.getD file {}).moduleName = some n :=
    fun n => Iff.rfl
  obtain ⟨hdeclared, hupheld⟩ := (hwithdrawn.mono hkept).declare hold (declaredModule? symbols)
  obtain ⟨hcommitted, hupheld'⟩ := hdeclared.foldl_commitSymbol symbols
    (a := (({} : CommitSummary), w.table)) hs fun s hmem => by
      rw [if_pos rfl]
      exact List.mem_map_of_mem hmem
  set t₂ := t.filed file symbols
  have hsame : SameSymbols t₂ (t.commitAdmitted file symbols).2 := commitAdmitted_same t file symbols
  have hentry : ∀ f, t₂.files.getD f {} =
      if f = file then ⟨symbols.map (·.fqn), declaredModule? symbols⟩ else t.files.getD f {} := by
    intro f
    rw [← hsame.files, commitAdmitted_files, getD_insert]
  have hhome : AtHome t₂ := by
    refine Homed.atHome ⟨hcommitted.cells, hcommitted.modules, hcommitted.inhabited⟩ ?_ ?_
    · intro f n
      by_cases hf : f = file <;> simp [Declares, hentry, hf]
    · intro f g
      by_cases hf : f = file <;> simp [Lists, hentry, hf]
  refine ⟨hhome.of_same hsame, fun hu hfree => Upheld.of_same ?_ hsame⟩
  exact hupheld' (hupheld (hrecedes.upheld hu) (hrecedes.free hfree))

theorem AtHome.commitFile (file : String) (symbols : List Symbol) :
    AtHome (t.commitFile file symbols).2 ∧
      ∀ {ns}, Upheld ns t → IsFree ns t → Upheld ns (t.commitFile file symbols).2 := by
  rcases hc : t.commitFile file symbols with ⟨_ | summary, t'⟩
  · have hsame := commitFile_eq_error hc
    exact ⟨h.of_same hsame.symbols, fun hu _ => hu.of_same hsame.symbols⟩
  · obtain ⟨admitted, reports, hadm, heq⟩ := commitFile_eq_ok hc
    have hoffered : Offered file admitted := fun s hs =>
      (admitted_spec hadm hs).2.imp_left fun hid => ⟨rfl, hid⟩
    have hnew := commitAdmitted (t := { t with diagnostics := t.diagnostics ++ reports })
      (h.of_same (SameGraph.setDiagnostics t _).symbols) hoffered
    rw [heq] at hnew
    exact hnew

theorem AtHome.removeFile (file : String) :
    AtHome (t.removeFile file).2 ∧ ∀ {ns}, Upheld ns t → Upheld ns (t.removeFile file).2 := by
  have hsame := removeFile_same t file
  cases hf : t.files.get? file with
  | none =>
    rw [show t.goneWith file = { table := t } by simp only [goneWith, hf]] at hsame
    exact ⟨h.of_same hsame, fun hu => hu.of_same hsame⟩
  | some entry =>
    have hown : t.files.getD file {} = entry := getD_of_get? hf
    have hstart : Homed t.Declares t.Lists { t with files := t.files.erase file } :=
      ⟨h.cells, h.modules, h.inhabited⟩
    obtain ⟨hwithdrawn, hrecedes⟩ :=
      hstart.foldl_step entry.fqns (w := { table := { t with files := t.files.erase file } }) file
    obtain ⟨hhomed, hrecedes'⟩ : Homed (fun f n => t.Declares f n ∧ f ≠ file)
          (fun f g => t.Lists f g ∧ ¬(f = file ∧ g ∈ entry.fqns)) (t.goneWith file).table ∧
        Recedes { t with files := t.files.erase file } (t.goneWith file).table := by
      unfold goneWith
      rw [hf]
      dsimp only
      cases hm : entry.moduleName with
      | none =>
        refine ⟨⟨hwithdrawn.cells, fun n f => ?_, hwithdrawn.inhabited⟩, hrecedes⟩
        refine (hwithdrawn.modules n f).trans ⟨fun hd => ⟨hd, ?_⟩, fun hd => hd.1⟩
        rintro rfl
        rw [Declares, hown, hm] at hd
        cases hd
      | some ns =>
        have hdeclares : ∀ n, t.Declares file n ↔ n = ns := by
          intro n
          rw [Declares, hown, hm]
          simp [eq_comm]
        obtain ⟨hreleased, hrecedes'⟩ := hwithdrawn.releaseModule ((hdeclares ns).2 rfl)
        rw [← release_table] at hreleased hrecedes'
        refine ⟨⟨hreleased.cells, fun n f => ?_, hreleased.inhabited⟩, hrecedes.trans hrecedes'⟩
        refine (hreleased.modules n f).trans (and_congr_right fun hd => not_congr ?_)
        refine ⟨fun hno => hno.1, ?_⟩
        rintro rfl
        exact ⟨rfl, (hdeclares n).1 hd⟩
    have hentry : ∀ f, (t.goneWith file).table.files.getD f {} =
        if f = file then {} else t.files.getD f {} := by
      intro f
      rw [← hsame.files, removeFile_files]
      exact getD_erase ..
    refine ⟨AtHome.of_same (hhomed.atHome ?_ ?_) hsame, fun hu =>
      Upheld.of_same (hrecedes'.upheld hu) hsame⟩
    · intro f n
      by_cases hf : f = file <;> simp [Declares, hentry, hf]
    · rintro f g ⟨hl, hno⟩
      by_cases hfile : f = file
      · rw [Lists, hfile, hown] at hl
        exact absurd ⟨hfile, hl⟩ hno
      · rw [Lists, hentry, if_neg hfile]
        exact hl

/-! ## Every table -/

theorem AtHome.ensurePlaceholder (template : Symbol) : AtHome (t.ensurePlaceholder template).2 ∧
      ∀ {ns}, Upheld ns t → Upheld ns (t.ensurePlaceholder template).2 := by
  obtain ⟨⟨ht, hc⟩, hm⟩ := ensurePlaceholder_spec t template
  have hhomed : Homed t.Declares t.Lists (t.ensurePlaceholder template).2 := by
    refine Homed.of_touches h ht hm ?_ fun _ _ _ => id
    rw [hc]
    exact (h.cells template.fqn).acquire ⟨rfl, rfl⟩ (.inl rfl)
  refine ⟨hhomed.atHome ?_ ?_, fun hu => hu.of_touches ht ?_⟩
  · intro f n
    rw [Declares, Declares, ht.files]
  · intro f g hl
    rw [Lists, ht.files]
    exact hl
  · rintro rfl hd
    rw [hm] at hd
    rw [hc]
    exact (hu hd).acquire _

theorem AtHome.pruneExternals :
    AtHome t.pruneExternals.2 ∧ ∀ {ns}, Upheld ns t → Upheld ns t.pruneExternals.2 := by
  obtain ⟨-, hfiles, hshadowed, hmodules, hsymbols, -⟩ :=
    pruneExternals_spec fun {g s} hs => ((h.cells g).named hs).1
  have hcell : ∀ g, t.pruneExternals.2.cell g =
      ⟨(t.cell g).current.filter fun s => !t.isOrphan s, (t.cell g).hidden⟩ := by
    intro g
    simp only [cell, hsymbols, hshadowed]
  refine ⟨⟨fun g => ?_, fun n f => ?_, ?_⟩, fun {ns} hu hd => ?_⟩
  · rw [hcell, hmodules]
    refine ((h.cells g).filter _).mono id fun f hl => ?_
    rw [Lists, hfiles]
    exact hl
  · rw [hmodules, h.modules, Declares, Declares, hfiles]
  · rw [hmodules]
    exact h.inhabited
  · rw [hmodules] at hd
    obtain ⟨s, hs, hint⟩ := hu hd
    refine ⟨s, ?_, hint⟩
    rw [hcell, hs]
    simp [isOrphan, hint]

/-- An operation keeps every symbol at home; a namespace that has a definition keeps one, unless a
commit finds a placeholder there. -/
theorem AtHome.apply (op : Operation) :
    AtHome (t.apply op) ∧ ∀ {ns}, Upheld ns t → Upheld ns (t.apply op) ∨
      (∃ file symbols, op = .commit file symbols) ∧ (t.cell ns).IsHeld := by
  -- what changes edges or reports only
  have hkeep : ∀ {t'}, SameSymbols t t' → AtHome t' ∧ ∀ {ns}, Upheld ns t → Upheld ns t' ∨
      (∃ file symbols, op = .commit file symbols) ∧ (t.cell ns).IsHeld := fun hs =>
    ⟨h.of_same hs, fun hu => .inl (hu.of_same hs)⟩
  cases op with
  | commit file symbols =>
    obtain ⟨hhome, hupheld⟩ := h.commitFile file symbols
    refine ⟨hhome, fun {ns} hu => ?_⟩
    by_cases hheld : (t.cell ns).IsHeld
    · exact .inr ⟨⟨file, symbols, rfl⟩, hheld⟩
    · exact .inl (hupheld hu hheld)
  | remove file =>
    obtain ⟨hhome, hupheld⟩ := h.removeFile file
    exact ⟨hhome, fun hu => .inl (hupheld hu)⟩
  | external fqn =>
    obtain ⟨hhome, hupheld⟩ := h.ensurePlaceholder (.placeholder fqn (shortName fqn))
    exact ⟨hhome, fun hu => .inl (hupheld hu)⟩
  | placeholder template =>
    obtain ⟨hhome, hupheld⟩ := h.ensurePlaceholder template
    exact ⟨hhome, fun hu => .inl (hupheld hu)⟩
  | replace owner edges => exact hkeep (sameSymbols_replace t owner edges)
  | append owner edges => exact hkeep (sameSymbols_append t owner edges)
  | clear owner => exact hkeep (clearEdges_rewires t owner).same
  | prune =>
    obtain ⟨hhome, hupheld⟩ := h.pruneExternals
    exact ⟨hhome, fun hu => .inl (hupheld hu)⟩
  | report d => exact hkeep (SameGraph.record t d).symbols
  | takeReports => exact hkeep (SameGraph.setDiagnostics t []).symbols

end

theorem atHome_empty : AtHome .empty where
  cells _ := ⟨nofun, nofun, nofun⟩
  modules _ _ := ⟨nofun, nofun⟩
  inhabited := nofun

/-- In every table each symbol of the project is at home. -/
theorem homed_after (ops : List Operation) : AtHome (after ops) :=
  after_induct atHome_empty (fun _ op h => (h.apply op).1) ops

theorem findDefined?_iff {s : Symbol} : SymbolLookup.findDefined? t ns = some s ↔
    (t.cell ns).current = some s ∧ s.isExternal = false := by
  change (t.symbols.get? ns).filter (fun x => !x.isExternal) = some s ↔
    t.symbols.get? ns = some s ∧ s.isExternal = false
  rw [Option.filter_eq_some_iff, Bool.not_eq_true']

/-- A commit declared the namespace when a placeholder had its name, and the name has had no
definition since. -/
def Preempted (ops : List Operation) (ns : String) : Prop :=
  ∃ before file symbols since, ops = before ++ .commit file symbols :: since ∧
    (∀ f, ¬(after before).Declares f ns) ∧
    (∃ f, (after (before ++ [.commit file symbols])).Declares f ns) ∧
    (∃ s, SymbolLookup.findFqn? (after before) ns = some s ∧ s.isExternal = true) ∧
    ∀ part, part <+: since →
      SymbolLookup.findDefined? (after (before ++ .commit file symbols :: part)) ns = none

/-- Over a history a declared namespace is defined, except from a commit that finds a placeholder on
until the next definition. -/
theorem upheld_or_preempted (ops : List Operation) (ns : String) :
    Upheld ns (after ops) ∨ Preempted ops ns := by
  have hnone : ∀ {t : Table}, ¬(t.cell ns).IsDefined → SymbolLookup.findDefined? t ns = none :=
    fun hno => Option.eq_none_iff_forall_ne_some.2 fun s hs => hno ⟨s, findDefined?_iff.1 hs⟩
  induction ops using List.reverseRecOn with
  | nil => exact .inl nofun
  | append_singleton ops op ih =>
    by_cases hnow : Upheld ns (after (ops ++ [op]))
    · exact .inl hnow
    · have hundefined : ¬((after (ops ++ [op])).cell ns).IsDefined := fun hd => hnow fun _ => hd
      right
      rcases ih with hu | ⟨before, file, symbols, since, rfl, hfirst, hdeclared, hheld, hsince⟩
      · -- the operation is a commit that finds a placeholder
        obtain ⟨⟨file, symbols, rfl⟩, s, hs, hext⟩ :=
          (((homed_after ops).apply op).2 hu).resolve_left (after_append ops op ▸ hnow)
        have hdeclared := (homed_after (ops ++ [.commit file symbols])).declared_iff.1
          (Classical.not_imp.1 hnow).1
        refine ⟨ops, file, symbols, [], rfl, fun f hf => ?_, hdeclared, ⟨s, hs, hext⟩,
          fun part hpart => ?_⟩
        · obtain ⟨x, hx, hint⟩ := hu ((homed_after ops).declared_iff.2 ⟨f, hf⟩)
          rw [hs] at hx
          cases hx
          rw [hint] at hext
          cases hext
        · rw [List.prefix_nil.1 hpart]
          exact hnone hundefined
      · refine ⟨before, file, symbols, since ++ [op], by simp, hfirst, hdeclared, hheld,
          fun part hpart => ?_⟩
        rcases List.prefix_concat_iff.1 hpart with rfl | hpart
        · refine hnone ?_
          rwa [List.append_assoc, List.cons_append] at hundefined
        · exact hsince part hpart

/-- A declared namespace has a definition, which is its own symbol or that of a file, unless a
placeholder had its name when it was declared and has not been replaced since. A symbol of a
namespace that no file defines stands for a declared one. -/
theorem declared_namespace_defined (ops : List Operation) :
    (∀ file ns, (after ops).Declares file ns →
      (∃ s, SymbolLookup.findDefined? (after ops) ns = some s ∧ s.fqn = ns ∧
        (s = moduleSymbol ns ∨ (after ops).Lists s.file ns)) ∨ Preempted ops ns) ∧
    ∀ ns s, (after ops).symbols.get? ns = some s → s.kind = .moduleNode → s.file = "" →
      (∃ file, (after ops).Declares file ns) ∨ (after ops).Lists "" ns := by
  have hhome := homed_after ops
  constructor
  · intro file ns hd
    refine (upheld_or_preempted ops ns).imp_left fun hu => ?_
    obtain ⟨s, hs, hint⟩ := hu (hhome.declared_iff.2 ⟨file, hd⟩)
    refine ⟨s, findDefined?_iff.2 ⟨hs, hint⟩, ((hhome.cells ns).named hs).1, ?_⟩
    rcases (hhome.cells ns).current hs with hext | ⟨heq, -⟩ | hl
    · rw [hext] at hint
      cases hint
    · exact .inl heq
    · exact .inr hl
  · intro ns s hs hkind hfile
    rcases (hhome.cells ns).current hs with hext | ⟨-, hd⟩ | hl
    · simp [Symbol.isExternal, hkind] at hext
    · exact .inl (hhome.declared_iff.1 hd)
    · exact .inr (hfile ▸ hl)

theorem commitFile_files_of_one {s : Symbol} (h : t.symbolRefusal? file s = none) :
    (t.commitFile file [s]).2.files = t.files.insert file ⟨[s.fqn], declaredModule? [s]⟩ := by
  have hadm : t.admitSymbols file [s] [] [] = (.ok [s], []) := by simp [admitSymbols, h]
  unfold commitFile
  rw [hadm]
  exact commitAdmitted_files { t with diagnostics := t.diagnostics ++ [] } file [s]

/-- The node of a file that declares a namespace. -/
def packageNode : Symbol := { Symbol.ofFile "a.go" with moduleName := some "shop" }

/-- A file declares a namespace, a placeholder of the name is asked for, and orphans go. -/
def declaring : List Operation := [.commit "a.go" [packageNode], .external "shop", .prune]

theorem declared_namespace_defined_single : (after declaring).Declares "a.go" "shop" ∧
      ∃ s, SymbolLookup.findDefined? (after declaring) "shop" = some s := by
  have hfree : Table.empty.symbolRefusal? "a.go" packageNode = none := by
    simp [symbolRefusal?, packageNode, Symbol.ofFile, Symbol.ofName, Symbol.isExternal, Table.empty]
  have hd : (after declaring).Declares "a.go" "shop" := by
    -- only the commit changes what the files declare
    have hfiles : ∀ t : Table, ((t.apply (.external "shop")).apply .prune).files = t.files :=
      fun t => (foldl_dropSymbol _ _).2.1.trans (ensurePlaceholder_spec t _).1.1.files
    rw [Declares, after, declaring, List.foldl_cons, List.foldl_cons, List.foldl_cons,
      List.foldl_nil, hfiles, apply, commitFile_files_of_one hfree, getD_insert, if_pos rfl]
    rfl
  refine ⟨hd, ?_⟩
  rcases (declared_namespace_defined declaring).1 "a.go" "shop" hd with ⟨s, hs, -⟩ | hpre
  · exact ⟨s, hs⟩
  · -- the only commit finds an empty table
    obtain ⟨before, file, symbols, since, heq, -, -, ⟨s, hs, -⟩, -⟩ := hpre
    rcases before with _ | ⟨x, _ | ⟨y, _ | ⟨z, rest⟩⟩⟩
    · cases hs
    all_goals simp [declaring] at heq

end Table

end CodeAtlas
