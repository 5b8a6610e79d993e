import Mathlib
import CodeAtlas.Proofs.Table.Cells

/-!
# The symbol half of a table

A table is `Orderly` over a set of names if it knows no other name, every cell is as it should be
(`CellsOk`) and, as long as no two of the names have the same identifier, its identifiers lead to
the names that have them. It is `Sound` if there is no such clash. Each operation on symbols touches
one cell (`Touches`), so it keeps the order if it keeps that cell and the look-up by identifier
(`Orderly.of_touches`).

Main results:

* `withdraw_spec`, `commitSymbol_spec`, `acquireModule_spec`, `releaseModule_spec`,
  `ensurePlaceholder_spec`, `dropSymbol_spec`: what each operation does to its cell.
-/

namespace CodeAtlas.Table

open SortedMap

variable {s : Symbol} {ns : String}

/-! ## Sound tables -/

/-- What stands under a name. -/
def cell (t : Table) (fqn : String) : Cell := ⟨t.symbols.get? fqn, t.shadowed.getD fqn []⟩

/-- Every cell is as it should be. -/
def CellsOk (t : Table) : Prop := ∀ fqn, (t.cell fqn).Ok fqn (t.modules.contains fqn)

/-- Identifiers lead to the known names that have them. -/
def Indexed (t : Table) : Prop :=
  ∀ id fqn, t.ids.get? id = some fqn ↔ t.symbols.contains fqn = true ∧ SymbolId.ofFqn fqn = id

/-- A table over a set of names. -/
structure Orderly (names : Set String) (t : Table) : Prop where
  known : ∀ {fqn}, t.symbols.contains fqn = true → fqn ∈ names
  listed : ∀ {file entry}, t.files.get? file = some entry →
    (∀ fqn ∈ entry.fqns, fqn ∈ names) ∧ ∀ ns, entry.moduleName = some ns → ns ∈ names
  indexed_of_distinct : Set.InjOn SymbolId.ofFqn names → t.Indexed
  ok : t.CellsOk

/-- A table over names without clashes of identifiers. -/
structure Sound (names : Set String) (t : Table) : Prop extends Orderly names t where
  distinct : Set.InjOn SymbolId.ofFqn names

/-- Only what stands under one name changes. -/
structure Touches (fqn : String) (t t' : Table) : Prop where
  edges : SameEdges t t'
  files : t'.files = t.files
  cells : ∀ g, g ≠ fqn → t'.cell g = t.cell g
  modules : ∀ g, g ≠ fqn → t'.modules.get? g = t.modules.get? g

/-- The identifier of one name leads to it exactly if the table knows the name; all others lead
where they led. -/
def Reindexes (fqn : String) (t t' : Table) : Prop :=
  ∀ id, t'.ids.get? id =
    if id = .ofFqn fqn then if t'.symbols.contains fqn then some fqn else none else t.ids.get? id

variable {names : Set String} {t t' : Table} {fqn file : String}

theorem CellsOk.of_touches (h : CellsOk t) (ht : Touches fqn t t')
    (hok : (t'.cell fqn).Ok fqn (t'.modules.contains fqn)) : CellsOk t' := by
  intro g
  by_cases hgf : g = fqn
  · rw [hgf]
    exact hok
  · rw [ht.cells g hgf, contains, ht.modules g hgf]
    exact h g

theorem Orderly.sound (h : Orderly names t) (hd : Set.InjOn SymbolId.ofFqn names) : Sound names t :=
  ⟨h, hd⟩

theorem Orderly.symbol (h : Orderly names t) (hs : t.symbols.get? fqn = some s) :
    s.fqn = fqn ∧ s.id = .ofFqn fqn :=
  (h.ok fqn).named hs

namespace Sound

section

variable (h : Sound names t)

include h

theorem indexed : t.Indexed := h.indexed_of_distinct h.distinct

/-- A name of a sound table shares its identifier with no other one. -/
theorem eq_of_id (hfqn : fqn ∈ names) {g : String}
    (hg : t.symbols.contains g = true) (hid : SymbolId.ofFqn g = .ofFqn fqn) : g = fqn :=
  h.distinct (h.known hg) hfqn hid

theorem ids_ofFqn (hfqn : fqn ∈ names) :
    t.ids.get? (.ofFqn fqn) = if t.symbols.contains fqn then some fqn else none := by
  split
  · next hc => exact (h.indexed _ _).2 ⟨hc, rfl⟩
  · next hc =>
    cases hg : t.ids.get? (.ofFqn fqn) with
    | none => rfl
    | some g =>
      obtain ⟨hk, hid⟩ := (h.indexed _ _).1 hg
      rw [h.eq_of_id hfqn hk hid] at hk
      exact absurd hk hc

theorem symbol (hs : t.symbols.get? fqn = some s) : s.fqn = fqn ∧ s.id = .ofFqn fqn :=
  h.toOrderly.symbol hs

/-- A symbol is found by its identifier. -/
theorem findId?_eq_some {id : SymbolId} :
    SymbolLookup.findId? t id = some s ↔ t.symbols.get? s.fqn = some s ∧ s.id = id := by
  change (t.ids.get? id).bind t.symbols.get? = some s ↔ _
  rw [Option.bind_eq_some_iff]
  constructor
  · rintro ⟨g, hg, hs⟩
    obtain ⟨-, hid⟩ := (h.indexed _ _).1 hg
    obtain ⟨hfqn, hsid⟩ := h.symbol hs
    exact ⟨hfqn ▸ hs, hsid.trans hid⟩
  · rintro ⟨hs, rfl⟩
    exact ⟨s.fqn, (h.indexed _ _).2 ⟨contains_of_get? hs, (h.symbol hs).2.symm⟩, hs⟩

theorem indexed_of_touches (hfqn : fqn ∈ names) (ht : Touches fqn t t')
    (hids : Reindexes fqn t t') : t'.Indexed := by
  have hsym : ∀ g, g ≠ fqn → t'.symbols.get? g = t.symbols.get? g := fun g hg =>
    congrArg Cell.current (ht.cells g hg)
  intro id g
  rw [hids]
  by_cases hid : id = .ofFqn fqn
  · rw [if_pos hid, hid]
    by_cases hgf : g = fqn
    · subst hgf
      simp
    · have hclash : ¬(t'.symbols.contains g = true ∧ SymbolId.ofFqn g = .ofFqn fqn) := by
        rintro ⟨hc, hgid⟩
        rw [contains, hsym g hgf] at hc
        exact hgf (h.eq_of_id hfqn hc hgid)
      simp only [hclash, iff_false]
      split
      · exact fun he => hgf (Option.some.inj he).symm
      · simp
  · rw [if_neg hid, h.indexed]
    by_cases hgf : g = fqn
    · subst hgf
      have : SymbolId.ofFqn g ≠ id := fun he => hid he.symm
      simp [this]
    · rw [contains, contains, hsym g hgf]

end

end Sound

theorem Orderly.of_touches (h : Orderly names t) (hfqn : fqn ∈ names) (ht : Touches fqn t t')
    (hids : Sound names t → Reindexes fqn t t') (hok : CellsOk t') : Orderly names t' := by
  refine ⟨fun {g} hg => ?_, fun hf => h.listed (ht.files ▸ hf), fun hd => ?_, hok⟩
  · by_cases hgf : g = fqn
    · rw [hgf]
      exact hfqn
    · have hsym : t'.symbols.get? g = t.symbols.get? g := congrArg Cell.current (ht.cells g hgf)
      rw [contains, hsym] at hg
      exact h.known hg
  · exact (h.sound hd).indexed_of_touches hfqn ht (hids (h.sound hd))

theorem apply_eq_ite {α : Type} (f : String → α) (k g : String) :
    f g = if g = k then f k else f g := by
  split
  · next hg => rw [hg]
  · rfl

/-- An operation that puts `c` under a name. -/
theorem touches_of_maps (c : Cell) (hedges : SameEdges t t') (hfiles : t'.files = t.files)
    (hmodules : ∀ g, g ≠ fqn → t'.modules.get? g = t.modules.get? g)
    (hsymbols : ∀ g, t'.symbols.get? g = if g = fqn then c.current else t.symbols.get? g)
    (hshadowed : ∀ g, t'.shadowed.getD g [] =
      if g = fqn then c.hidden else t.shadowed.getD g []) : Touches fqn t t' ∧ t'.cell fqn = c := by
  have hown : t'.symbols.get? fqn = c.current := (hsymbols fqn).trans (if_pos rfl)
  refine ⟨⟨hedges, hfiles, fun g hg => ?_, hmodules⟩, ?_⟩
  · exact Cell.ext ((hsymbols g).trans (if_neg hg)) ((hshadowed g).trans (if_neg hg))
  · exact Cell.ext hown ((hshadowed fqn).trans (if_pos rfl))

/-- An operation that keeps the identifiers and does not add or remove the name. -/
theorem Sound.reindexes (h : Sound names t) (hfqn : fqn ∈ names) (hids : t'.ids = t.ids)
    (hknown : t'.symbols.contains fqn = t.symbols.contains fqn) : Reindexes fqn t t' := by
  intro id
  rw [hids, hknown]
  split
  · next hid => rw [hid, h.ids_ofFqn hfqn]
  · rfl

theorem reindexes_of_insert (hids : t'.ids = t.ids.insert (.ofFqn fqn) fqn)
    (hknown : t'.symbols.contains fqn = true) : Reindexes fqn t t' := by
  intro id
  rw [hids, hknown]
  exact get?_insert_eq t.ids _ id fqn

theorem reindexes_of_erase (hids : t'.ids = t.ids.erase (.ofFqn fqn))
    (hknown : t'.symbols.contains fqn = false) : Reindexes fqn t t' := by
  intro id
  rw [hids, hknown]
  exact get?_erase_eq t.ids _ id

/-! ## Withdrawing a definition -/

theorem getD_setShadowed (t : Table) (fqn g : String) (stack : List Symbol) :
    (t.setShadowed fqn stack).shadowed.getD g [] =
      if g = fqn then stack else t.shadowed.getD g [] := by
  unfold setShadowed
  cases stack with
  | nil => simp [getD_erase]
  | cons s rest => simp [getD_insert]

/-- What the answer to a withdrawal says of the cell before and after. -/
def Withdrawal.Fits (fqn : String) (before after : Cell) : Withdrawal → Prop
  | .gone id => id = .ofFqn fqn ∧ after.current = none
  | .restored owner => ∃ s s', before.current = some s ∧ s.isExternal = false ∧
      after.current = some s' ∧ s'.isExternal = false ∧ s'.file = owner
  | .kept => after.current = before.current ∨
      ∃ s, before.current = some s ∧ s.isExternal = false ∧ after.current = some (moduleSymbol fqn)

section Withdraw

variable {s : Symbol}

theorem withdraw_of_kept
    (hs : ∀ s, t.symbols.get? fqn = some s → s.file ≠ file ∨ s.isExternal = true) :
    t.withdraw fqn file = (.kept, t.purgeShadowed fqn file) := by
  have hsymbols : (t.purgeShadowed fqn file).symbols = t.symbols := rfl
  unfold withdraw
  dsimp only
  rw [hsymbols]
  split
  · rfl
  · next s hc => rw [if_pos (by simpa using hs s hc)]

theorem withdraw_of_hidden (hs : t.symbols.get? fqn = some s) (hfile : s.file = file)
    (hext : s.isExternal = false) {previous : Symbol} {rest : List Symbol}
    (hr : ((t.shadowed.getD fqn []).filter fun s => s.file != file) = previous :: rest) :
    t.withdraw fqn file = (.restored previous.file,
      { (t.purgeShadowed fqn file).setShadowed fqn rest with
        symbols := t.symbols.insert fqn previous }) := by
  have hstack : (t.purgeShadowed fqn file).shadowed.getD fqn [] = previous :: rest := by
    rw [purgeShadowed, getD_setShadowed, if_pos rfl, hr]
  have hsymbols : (t.purgeShadowed fqn file).symbols = t.symbols := rfl
  unfold withdraw
  dsimp only
  rw [hsymbols, hs]
  simp only [hfile, hext, bne_self_eq_false, Bool.or_self, Bool.false_eq_true, if_false, hstack]
  rfl

theorem withdraw_of_last (hs : t.symbols.get? fqn = some s) (hfile : s.file = file)
    (hext : s.isExternal = false)
    (hr : ((t.shadowed.getD fqn []).filter fun s => s.file != file) = []) : t.withdraw fqn file =
      let t' := { t.purgeShadowed fqn file with symbols := t.symbols.erase fqn }.unindexName
        s.name fqn
      if t.modules.contains fqn then (.kept, t'.insertNew (moduleSymbol fqn))
      else (.gone s.id, { t' with ids := t.ids.erase s.id }) := by
  have hstack : (t.purgeShadowed fqn file).shadowed.getD fqn [] = [] := by
    rw [purgeShadowed, getD_setShadowed, if_pos rfl, hr]
  have hsymbols : (t.purgeShadowed fqn file).symbols = t.symbols := rfl
  unfold withdraw
  dsimp only
  rw [hsymbols, hs]
  simp only [hfile, hext, bne_self_eq_false, Bool.or_self, Bool.false_eq_true, if_false, hstack]
  rfl

end Withdraw

/-- Withdrawing a definition acts on the cell of its name. -/
theorem withdraw_spec (hcell : (t.cell fqn).Regular fqn) (file : String) :
    (Touches fqn t (t.withdraw fqn file).2 ∧
      (t.withdraw fqn file).2.cell fqn =
        (t.cell fqn).withdraw file (Cell.fallback fqn (t.modules.contains fqn))) ∧
      (t.withdraw fqn file).2.modules = t.modules ∧
      (t.withdraw fqn file).1.Fits fqn (t.cell fqn)
        ((t.cell fqn).withdraw file (Cell.fallback fqn (t.modules.contains fqn))) := by
  rcases Cell.withdraw_cases file (Cell.fallback fqn (t.modules.contains fqn)) (t.cell fqn) with
    ⟨hc, hs⟩ | ⟨s, hs, hfile, hext, ⟨previous, rest, hr, hc⟩ | ⟨hr, hc⟩⟩
  · rw [withdraw_of_kept hs, hc]
    exact ⟨touches_of_maps _ ⟨rfl, rfl⟩ rfl (fun _ _ => rfl) (apply_eq_ite t.symbols.get? fqn)
      (getD_setShadowed t fqn · _), rfl, .inl rfl⟩
  · have hint : previous.isExternal = false :=
      hcell.internal previous (List.mem_filter.1 (hr ▸ List.mem_cons_self ..)).1
    rw [withdraw_of_hidden hs hfile hext hr, hc]
    refine ⟨touches_of_maps _ ⟨rfl, rfl⟩ rfl (fun _ _ => rfl) (get?_insert_eq t.symbols fqn · _)
      (fun g => ?_), rfl, s, previous, hs, hext, rfl, hint, rfl⟩
    exact (getD_setShadowed _ fqn g rest).trans (ite_congr rfl (fun _ => rfl) fun hg =>
      (getD_setShadowed t fqn g _).trans (if_neg hg))
  · have hnil : ∀ g, (t.purgeShadowed fqn file).shadowed.getD g [] =
        if g = fqn then [] else t.shadowed.getD g [] := by
      intro g
      rw [purgeShadowed, getD_setShadowed]
      exact ite_congr rfl (fun _ => hr) fun _ => rfl
    rw [withdraw_of_last hs hfile hext hr, hc]
    by_cases hm : t.modules.contains fqn = true
    · simp only [hm, if_true]
      refine ⟨touches_of_maps _ ⟨rfl, rfl⟩ rfl (fun _ _ => rfl) (fun g => ?_) hnil,
        rfl, .inr ⟨s, hs, hext, rfl⟩⟩
      refine (get?_insert_eq _ fqn g _).trans (ite_congr rfl (fun _ => rfl) fun hg => ?_)
      exact (get?_erase_eq t.symbols fqn g).trans (if_neg hg)
    · simp only [hm]
      exact ⟨touches_of_maps _ ⟨rfl, rfl⟩ rfl (fun _ _ => rfl) (get?_erase_eq t.symbols fqn) hnil,
        rfl, hcell.id_eq hs, rfl⟩

theorem withdraw_reindexes (h : Sound names t) (hfqn : fqn ∈ names) (file : String) :
    Reindexes fqn t (t.withdraw fqn file).2 := by
  rcases Cell.withdraw_cases file none (t.cell fqn) with
    ⟨-, hs⟩ | ⟨s, hs, hfile, hext, ⟨previous, rest, hr, -⟩ | ⟨hr, -⟩⟩
  · rw [withdraw_of_kept hs]
    exact h.reindexes hfqn rfl rfl
  · rw [withdraw_of_hidden hs hfile hext hr]
    exact h.reindexes hfqn rfl ((contains_of_get? (get?_insert_self ..)).trans
      (contains_of_get? hs).symm)
  · have hsid : s.id = .ofFqn fqn := (h.symbol hs).2
    rw [withdraw_of_last hs hfile hext hr]
    by_cases hm : t.modules.contains fqn = true
    · simp only [hm, if_true]
      exact reindexes_of_insert rfl (contains_of_get? (get?_insert_self ..))
    · simp only [hm]
      refine reindexes_of_erase (congrArg t.ids.erase hsid) (contains_eq_false_iff.2 ?_)
      exact (get?_erase_eq t.symbols fqn fqn).trans (if_pos rfl)

/-! ## Adding a definition -/

theorem insertSymbol_fields (t : Table) (s : Symbol) :
    (t.insertSymbol s).2.symbols = t.symbols.insert s.fqn s ∧
      (t.insertSymbol s).2.ids = t.ids.insert s.id s.fqn ∧
      (t.insertSymbol s).2.files = t.files ∧
      (t.insertSymbol s).2.modules = t.modules ∧
      SameEdges t (t.insertSymbol s).2 := by
  unfold insertSymbol
  split
  · exact ⟨rfl, rfl, rfl, rfl, rfl, rfl⟩
  · dsimp only
    split <;> split <;> exact ⟨rfl, rfl, rfl, rfl, rfl, rfl⟩

theorem getD_shadowed_insertSymbol (t : Table) (s : Symbol) (g : String) :
    (t.insertSymbol s).2.shadowed.getD g [] =
      if g = s.fqn then
        ((t.symbols.get? s.fqn).toList.filter fun x => x.isPlaced && x.file != s.file)
          ++ t.shadowed.getD s.fqn []
      else t.shadowed.getD g [] := by
  have hkeep : t.shadowed.getD g [] =
      if g = s.fqn then t.shadowed.getD s.fqn [] else t.shadowed.getD g [] := by
    split
    · next hg => rw [hg]
    · rfl
  cases hc : t.symbols.get? s.fqn with
  | none =>
    simp only [insertSymbol, hc, Option.toList_none, List.filter_nil, List.nil_append]
    exact hkeep
  | some x =>
    have hforeign : (!x.isExternal && !x.file.isEmpty && x.file != s.file) =
        (x.isPlaced && x.file != s.file) := rfl
    by_cases hf : (x.isPlaced && x.file != s.file) = true
    · have hlist : [x].filter (fun x => x.isPlaced && x.file != s.file) = [x] := by simp [hf]
      simp only [insertSymbol, hc, hforeign, hf, if_true, Option.toList_some, hlist]
      split <;> exact getD_setShadowed (t.record _) s.fqn g _
    · have hlist : [x].filter (fun x => x.isPlaced && x.file != s.file) = [] := by simpa using hf
      simp only [insertSymbol, hc, hforeign, hf, Option.toList_some, hlist]
      split <;> exact hkeep

/-- Storing a symbol of a commit acts on the cell of its name. -/
theorem commitSymbol_spec (hfqn : s.fqn = fqn) (hid : s.id = .ofFqn fqn) (summary : CommitSummary) :
    (Touches fqn t (commitSymbol s.file (summary, t) s).2 ∧
      (commitSymbol s.file (summary, t) s).2.cell fqn = (t.cell fqn).define s) ∧
      (commitSymbol s.file (summary, t) s).2.modules = t.modules ∧
      Reindexes fqn t (commitSymbol s.file (summary, t) s).2 := by
  subst hfqn
  obtain ⟨hsym, hids, hfiles, hmod, hedges⟩ := insertSymbol_fields (t.purgeShadowed s.fqn s.file) s
  change (Touches s.fqn t ((t.purgeShadowed s.fqn s.file).insertSymbol s).2 ∧
    ((t.purgeShadowed s.fqn s.file).insertSymbol s).2.cell s.fqn = _) ∧ _
  refine ⟨touches_of_maps _ ⟨hedges.edges, hedges.dependents⟩ hfiles (fun g _ => ?_) (fun g => ?_)
    (fun g => ?_), hmod, reindexes_of_insert ?_ ?_⟩
  · rw [hmod]
    rfl
  · rw [hsym]
    exact get?_insert_eq t.symbols s.fqn g s
  · rw [getD_shadowed_insertSymbol, purgeShadowed, getD_setShadowed, getD_setShadowed, if_pos rfl]
    exact ite_congr rfl (fun _ => rfl) fun hg => if_neg hg
  · exact hids.trans (by rw [hid]; rfl)
  · change ((t.purgeShadowed s.fqn s.file).insertSymbol s).2.symbols.contains s.fqn = true
    rw [hsym]
    exact contains_of_get? (get?_insert_self ..)

/-! ## Namespaces -/

/-- A symbol is put under a name where nothing stands. -/
theorem Touches.get?_of_acquire (ht : Touches fqn t t')
    (hc : t'.cell fqn = (t.cell fqn).acquire s) (g : String) :
    t'.symbols.get? g = (t.symbols.get? g).or (if fqn = g then some s else none) := by
  by_cases hg : g = fqn
  · subst hg
    rw [if_pos rfl]
    exact congrArg Cell.current hc
  · rw [if_neg (Ne.symm hg), Option.or_none]
    exact congrArg Cell.current (ht.cells g hg)

/-- A change of the files that declare a namespace keeps the cells. -/
theorem touches_modules {modules : SortedMap String StringSet}
    (hmod : ∀ g, g ≠ ns → modules.get? g = t.modules.get? g) :
    Touches ns t { t with modules } ∧ { t with modules }.cell ns = t.cell ns :=
  touches_of_maps _ ⟨rfl, rfl⟩ rfl hmod (apply_eq_ite t.symbols.get? ns)
    (apply_eq_ite (t.shadowed.getD · []) ns)

/-- Declaring a namespace acts on the cell of its name. -/
theorem acquireModule_spec (t : Table) (ns file : String) :
    (Touches ns t (t.acquireModule ns file) ∧
      (t.acquireModule ns file).cell ns = (t.cell ns).acquire (moduleSymbol ns)) ∧
      (t.acquireModule ns file).modules =
        t.modules.insert ns ((t.modules.getD ns ∅).add file) := by
  have hmod : ∀ g, g ≠ ns → (t.modules.insert ns ((t.modules.getD ns ∅).add file)).get? g =
      t.modules.get? g := fun g hg => (get?_insert_eq ..).trans (if_neg hg)
  unfold acquireModule
  by_cases hc : t.symbols.contains ns = true
  · obtain ⟨s, hs⟩ := contains_iff.1 hc
    have hcell : (t.cell ns).acquire (moduleSymbol ns) = t.cell ns := by
      simp [Cell.acquire, cell, hs]
    rw [hcell]
    simp only [hc, if_true]
    exact ⟨touches_modules hmod, trivial⟩
  · have hnone : t.symbols.get? ns = none := contains_eq_false_iff.1 (by simpa using hc)
    have hcell : (t.cell ns).acquire (moduleSymbol ns) =
        ⟨some (moduleSymbol ns), t.shadowed.getD ns []⟩ := by
      simp [Cell.acquire, cell, hnone]
    rw [hcell]
    simp only [hc, Bool.false_eq_true, if_false]
    exact ⟨touches_of_maps _ ⟨rfl, rfl⟩ rfl hmod (get?_insert_eq t.symbols ns · _)
      (apply_eq_ite (t.shadowed.getD · []) ns), rfl⟩

theorem acquireModule_reindexes (h : Sound names t) (hns : ns ∈ names) (file : String) :
    Reindexes ns t (t.acquireModule ns file) := by
  unfold acquireModule
  dsimp only
  split
  · exact h.reindexes hns rfl rfl
  · exact reindexes_of_insert rfl (contains_of_get? (get?_insert_self ..))

theorem get?_eraseFrom (m : SortedMap String StringSet) (key x g : String) :
    (eraseFrom m key x).get? g =
      if g = key then
        if ((m.getD key ∅).erase x).isEmpty then none else some ((m.getD key ∅).erase x)
      else m.get? g := by
  unfold eraseFrom
  by_cases he : ((m.getD key ∅).erase x).isEmpty = true
  · simp only [he, if_true]
    exact get?_erase_eq m key g
  · simp only [he]
    exact get?_insert_eq m key g _

theorem contains_eraseFrom_self (m : SortedMap String StringSet) (key x : String) :
    (eraseFrom m key x).contains key = !((m.getD key ∅).erase x).isEmpty := by
  rw [contains, get?_eraseFrom, if_pos rfl]
  split <;> simp_all

/-- The symbol of a name stays if it is not the symbol of a namespace without files. -/
theorem release_eq_self {c : Cell} {declared : Bool}
    (h : ∀ s, c.current = some s → (s.kind == .moduleNode && s.file.isEmpty) = true →
      declared = true) : c.release declared = c := by
  refine Cell.ext ?_ rfl
  cases hs : c.current with
  | none => simp [Cell.release, hs]
  | some s =>
    rw [Cell.release, hs]
    dsimp only
    rw [Option.filter_eq_some_iff]
    refine ⟨rfl, ?_⟩
    cases hk : (s.kind == .moduleNode && s.file.isEmpty) with
    | false => simp
    | true => simp [h s hs hk]

/-- Giving up the declaration of a namespace acts on the cell of its name. The answer is the
identifier of a symbol that is gone. -/
theorem releaseModule_spec (hcell : (t.cell ns).Regular ns)
    (hdeclared : ∀ {s}, t.symbols.get? ns = some s →
      (s.kind == .moduleNode && s.file.isEmpty) = true → t.modules.contains ns = true)
    (file : String) : (Touches ns t (t.releaseModule ns file).2 ∧
      (t.releaseModule ns file).2.cell ns =
        (t.cell ns).release ((eraseFrom t.modules ns file).contains ns)) ∧
      (t.releaseModule ns file).2.modules = eraseFrom t.modules ns file ∧
      match (t.releaseModule ns file).1 with
        | some id => id = .ofFqn ns ∧ (t.releaseModule ns file).2.ids = t.ids.erase id ∧
          (t.releaseModule ns file).2.symbols.contains ns = false
        | none => (t.releaseModule ns file).2.cell ns = t.cell ns ∧
          (t.releaseModule ns file).2.ids = t.ids := by
  have hmod : ∀ g, g ≠ ns → (eraseFrom t.modules ns file).get? g = t.modules.get? g := fun g hg =>
    (get?_eraseFrom ..).trans (if_neg hg)
  have hkeep := touches_modules hmod
  unfold releaseModule
  cases hd : t.modules.get? ns with
  | none =>
    -- nobody declares the namespace, so there is no symbol to go
    have herase : eraseFrom t.modules ns file = t.modules := by
      refine SortedMap.ext fun g => ?_
      rw [get?_eraseFrom]
      split
      · next hg => rw [hg, hd, getD_of_none hd]; rfl
      · rfl
    have hrel : (t.cell ns).release (t.modules.contains ns) = t.cell ns :=
      release_eq_self fun s hs hk => hdeclared hs hk
    dsimp only
    rw [herase] at hkeep ⊢
    rw [hrel]
    exact ⟨hkeep, rfl, rfl, rfl⟩
  | some declaring =>
    have hcont : (eraseFrom t.modules ns file).contains ns = !(declaring.erase file).isEmpty := by
      rw [contains_eraseFrom_self, getD_of_get? hd]
    dsimp only
    rw [hcont]
    by_cases he : (declaring.erase file).isEmpty = true
    · simp only [he, if_true, Bool.not_true]
      have hstay : (∀ s, t.symbols.get? ns = some s →
          ¬(s.kind == .moduleNode && s.file.isEmpty) = true) →
          (t.cell ns).release false = t.cell ns := fun hno =>
        release_eq_self fun s hs hk => absurd hk (hno s hs)
      cases hs : t.symbols.get? ns with
      | none =>
        rw [hstay (by simp [hs])]
        exact ⟨hkeep, rfl, hkeep.2, rfl⟩
      | some s =>
        by_cases hk : (s.kind == .moduleNode && s.file.isEmpty) = true
        · have hsid : s.id = .ofFqn ns := hcell.id_eq hs
          have hrel : (t.cell ns).release false = ⟨none, t.shadowed.getD ns []⟩ := by
            simpa [Cell.release, cell, hs] using hk
          simp only [hk, if_true, hrel]
          refine ⟨touches_of_maps _ ⟨rfl, rfl⟩ rfl hmod (get?_erase_eq t.symbols ns)
            (apply_eq_ite (t.shadowed.getD · []) ns), rfl, hsid, rfl, contains_eq_false_iff.2 ?_⟩
          exact (get?_erase_eq t.symbols ns ns).trans (if_pos rfl)
        · rw [hstay fun x hx => by rw [hs] at hx; cases hx; exact hk]
          simp only [hk]
          exact ⟨hkeep, rfl, hkeep.2, rfl⟩
    · simp only [he]
      rw [release_eq_self (by simp)]
      exact ⟨hkeep, rfl, hkeep.2, rfl⟩

theorem releaseModule_reindexes (h : Sound names t) (hns : ns ∈ names) (file : String) :
    Reindexes ns t (t.releaseModule ns file).2 := by
  obtain ⟨-, -, hanswer⟩ := releaseModule_spec (h.ok ns).regular (h.ok ns).declared_of_bare file
  split at hanswer
  · obtain ⟨rfl, hids, hgone⟩ := hanswer
    exact reindexes_of_erase hids hgone
  · obtain ⟨hcell, hids⟩ := hanswer
    exact h.reindexes hns hids (congrArg Option.isSome (congrArg Cell.current hcell))

/-! ## Placeholders -/

/-- The placeholder that a template becomes. -/
def placeholderOf (template : Symbol) : Symbol :=
  { template with kind := .external, file := "", id := .ofFqn template.fqn }

/-- Asking for a placeholder acts on the cell of its name. -/
theorem ensurePlaceholder_spec (t : Table) (template : Symbol) :
    (Touches template.fqn t (t.ensurePlaceholder template).2 ∧
      (t.ensurePlaceholder template).2.cell template.fqn =
        (t.cell template.fqn).acquire (placeholderOf template)) ∧
      (t.ensurePlaceholder template).2.modules = t.modules := by
  unfold ensurePlaceholder
  cases hs : t.symbols.get? template.fqn with
  | some s =>
    have hcell : (t.cell template.fqn).acquire (placeholderOf template) = t.cell template.fqn := by
      simp [Cell.acquire, cell, hs]
    rw [hcell]
    exact ⟨touches_modules fun _ _ => rfl, rfl⟩
  | none =>
    have hcell : (t.cell template.fqn).acquire (placeholderOf template) =
        ⟨some (placeholderOf template), t.shadowed.getD template.fqn []⟩ := by
      simp [Cell.acquire, cell, hs]
    rw [hcell]
    exact ⟨touches_of_maps _ ⟨rfl, rfl⟩ rfl (fun _ _ => rfl)
      (get?_insert_eq t.symbols template.fqn · _) (apply_eq_ite (t.shadowed.getD · []) _), rfl⟩

theorem ensurePlaceholder_reindexes (h : Sound names t) {template : Symbol}
    (hfqn : template.fqn ∈ names) : Reindexes template.fqn t (t.ensurePlaceholder template).2 := by
  unfold ensurePlaceholder
  split
  · exact h.reindexes hfqn rfl rfl
  · exact reindexes_of_insert rfl (contains_of_get? (get?_insert_self ..))

/-- Dropping a symbol acts on the cell of its name. -/
theorem dropSymbol_spec (t : Table) (s : Symbol) : (Touches s.fqn t (t.dropSymbol s) ∧
      (t.dropSymbol s).cell s.fqn = ⟨none, (t.cell s.fqn).hidden⟩) ∧
      (t.dropSymbol s).modules = t.modules :=
  ⟨touches_of_maps _ ⟨rfl, rfl⟩ rfl (fun _ _ => rfl) (get?_erase_eq t.symbols s.fqn)
    (apply_eq_ite (t.shadowed.getD · []) s.fqn), rfl⟩

theorem dropSymbol_reindexes (hid : s.id = .ofFqn s.fqn) : Reindexes s.fqn t (t.dropSymbol s) :=
  reindexes_of_erase (congrArg t.ids.erase hid)
    (contains_eq_false_iff.2 ((get?_erase_eq t.symbols s.fqn s.fqn).trans (if_pos rfl)))

/-! ## Cells are kept -/

namespace CellsOk

section

variable (h : CellsOk t)

include h

theorem withdraw (fqn file : String) : CellsOk (t.withdraw fqn file).2 := by
  obtain ⟨⟨ht, hc⟩, hm, -⟩ := withdraw_spec (h fqn).regular file
  refine h.of_touches ht ?_
  rw [hc, hm]
  exact (h fqn).withdraw file

theorem commitSymbol (hs : s.IsDefinition fqn) (summary : CommitSummary) :
    CellsOk (Table.commitSymbol s.file (summary, t) s).2 := by
  obtain ⟨⟨ht, hc⟩, hm, -⟩ := commitSymbol_spec (t := t) hs.fqn_eq hs.id_eq summary
  refine h.of_touches ht ?_
  rw [hc, hm]
  exact (h fqn).define hs

theorem acquireModule (ns file : String) : CellsOk (t.acquireModule ns file) := by
  obtain ⟨⟨ht, hc⟩, hm⟩ := acquireModule_spec t ns file
  refine h.of_touches ht ?_
  rw [hc, hm, contains_insert, decide_eq_true rfl, Bool.true_or]
  exact (h ns).acquire (fun _ => rfl) ⟨rfl, rfl, rfl, .inr ⟨rfl, rfl⟩⟩

theorem releaseModule (ns file : String) : CellsOk (t.releaseModule ns file).2 := by
  obtain ⟨⟨ht, hc⟩, hm, -⟩ := releaseModule_spec (h ns).regular (h ns).declared_of_bare file
  refine h.of_touches ht ?_
  rw [hc, hm]
  exact (h ns).release _

theorem ensurePlaceholder (template : Symbol) : CellsOk (t.ensurePlaceholder template).2 := by
  obtain ⟨⟨ht, hc⟩, hm⟩ := ensurePlaceholder_spec t template
  refine h.of_touches ht ?_
  rw [hc, hm]
  exact (h _).acquire id ⟨rfl, rfl, rfl, .inl rfl⟩

theorem dropSymbol (hs : ∀ x, t.symbols.get? s.fqn = some x → x.isPlaced = false) :
    CellsOk (t.dropSymbol s) := by
  obtain ⟨⟨ht, hc⟩, hm⟩ := dropSymbol_spec t s
  refine h.of_touches ht ?_
  rw [hc, hm]
  exact (h s.fqn).vacate hs _

/-- Cells are about the symbol half. -/
theorem of_same (hs : SameSymbols t t') : CellsOk t' := by
  intro g
  rw [cell, hs.symbols, hs.shadowed, hs.modules]
  exact h g

end

end CellsOk

theorem cellsOk_empty : CellsOk Table.empty := fun g =>
  ⟨by simp [cell, Table.empty], by simp [cell, Table.empty], by simp [cell, Table.empty],
    by simp [cell, Table.empty], by simp [cell, Table.empty], by
      simp [cell, Table.empty, Cell.definitions]⟩

/-! ## The order is kept -/

namespace Orderly

section

variable (h : Orderly names t)

include h

theorem withdraw (hfqn : fqn ∈ names) (file : String) : Orderly names (t.withdraw fqn file).2 :=
  h.of_touches hfqn (withdraw_spec (h.ok fqn).regular file).1.1
    (fun hs => withdraw_reindexes hs hfqn file) (h.ok.withdraw fqn file)

theorem commitSymbol (hfqn : fqn ∈ names) (hs : s.IsDefinition fqn)
    (summary : CommitSummary) : Orderly names (Table.commitSymbol s.file (summary, t) s).2 := by
  obtain ⟨⟨ht, -⟩, -, hids⟩ := commitSymbol_spec (t := t) hs.fqn_eq hs.id_eq summary
  exact h.of_touches hfqn ht (fun _ => hids) (h.ok.commitSymbol hs summary)

theorem acquireModule (hns : ns ∈ names) (file : String) :
    Orderly names (t.acquireModule ns file) :=
  h.of_touches hns (acquireModule_spec t ns file).1.1
    (fun hs => acquireModule_reindexes hs hns file) (h.ok.acquireModule ns file)

theorem releaseModule (hns : ns ∈ names) (file : String) :
    Orderly names (t.releaseModule ns file).2 :=
  h.of_touches hns (releaseModule_spec (h.ok ns).regular (h.ok ns).declared_of_bare file).1.1
    (fun hs => releaseModule_reindexes hs hns file) (h.ok.releaseModule ns file)

theorem ensurePlaceholder {template : Symbol}
    (hfqn : template.fqn ∈ names) : Orderly names (t.ensurePlaceholder template).2 :=
  h.of_touches hfqn (ensurePlaceholder_spec t template).1.1
    (fun hs => ensurePlaceholder_reindexes hs hfqn) (h.ok.ensurePlaceholder template)

theorem dropSymbol (hid : s.id = .ofFqn s.fqn) (hfqn : s.fqn ∈ names)
    (hs : ∀ x, t.symbols.get? s.fqn = some x → x.isPlaced = false) :
    Orderly names (t.dropSymbol s) :=
  h.of_touches hfqn (dropSymbol_spec t s).1.1 (fun _ => dropSymbol_reindexes hid)
    (h.ok.dropSymbol hs)

/-- The order is about the symbol half. -/
theorem of_same (hs : SameSymbols t t') : Orderly names t' := by
  refine ⟨fun hg => h.known (hs.symbols ▸ hg), fun hf => h.listed (hs.files ▸ hf),
    fun hd id g => ?_, h.ok.of_same hs⟩
  rw [hs.ids, hs.symbols]
  exact h.indexed_of_distinct hd id g

end

end Orderly

theorem orderly_empty : Orderly names Table.empty where
  known h := by cases h
  listed h := by cases h
  indexed_of_distinct _ id g := by constructor <;> rintro h <;> simp_all [Table.empty]
  ok := cellsOk_empty

/-! ## Stages of a commit and of a removal -/

/-- A file gives up its namespace and declares another one. -/
theorem declare_induct {P : Withdrawn → Prop} {w : Withdrawn} {file : String}
    {old ns : Option String} (start : P w)
    (release : ∀ {o w}, old = some o → P w → P (w.release o file))
    (acquire : ∀ {n w}, ns = some n → P w →
      P { w with table := w.table.acquireModule n file }) : P (w.declare file old ns) := by
  unfold Withdrawn.declare
  split
  · exact start
  · cases old <;> cases ns
    · exact start
    · exact acquire rfl start
    · exact release rfl start
    · exact acquire rfl (release rfl start)

/-- What a commit takes away first: the names that the file had and does not commit again, and the
namespace that it gives up. -/
def madeWay (t : Table) (file : String) (symbols : List Symbol) : Withdrawn :=
  (t.withdrawAll file ((t.files.getD file {}).fqns.filter fun f =>
    !(symbols.map (·.fqn)).contains f)).declare file (t.files.getD file {}).moduleName
      (declaredModule? symbols)

/-- The table with the symbols of a commit. -/
def stored (t : Table) (file : String) (symbols : List Symbol) : Table :=
  (symbols.foldl (commitSymbol file) (({} : CommitSummary), (t.madeWay file symbols).table)).2

/-- The table with the symbols of a commit and the entry of the file, before it loses edges. -/
def filed (t : Table) (file : String) (symbols : List Symbol) : Table :=
  { t.stored file symbols with
    files := (t.stored file symbols).files.insert file
      ⟨symbols.map (·.fqn), declaredModule? symbols⟩ }

/-- What is withdrawn when a file goes. -/
def goneWith (t : Table) (file : String) : Withdrawn :=
  match t.files.get? file with
  | some entry =>
    let w := { t with files := t.files.erase file }.withdrawAll file entry.fqns
    match entry.moduleName with
    | some ns => w.release ns file
    | none => w
  | none => { table := t }

theorem removeFile_eq (t : Table) (file : String) :
    t.removeFile file = (⟨(t.goneWith file).removed,
      ((((t.goneWith file).table.clearEdges file).cascade (t.goneWith file).removed file).1.addAll
        (t.goneWith file).restored.toList)⟩,
      (((t.goneWith file).table.clearEdges file).cascade (t.goneWith file).removed file).2) := rfl

theorem goneWith_induct {P : Withdrawn → Prop} {file : String}
    (start : P { table := { t with files := t.files.erase file } })
    (step : ∀ {entry w}, t.files.get? file = some entry → P w →
      P (entry.fqns.foldl (Withdrawn.step file) w))
    (release : ∀ {entry ns w}, t.files.get? file = some entry → entry.moduleName = some ns → P w →
      P (w.release ns file)) : P (t.goneWith file) := by
  unfold goneWith
  cases hf : t.files.get? file with
  | none => rwa [erase_eq_self hf] at start
  | some entry =>
    dsimp only
    cases hm : entry.moduleName with
    | none => exact step hf start
    | some ns => exact release hf hm (step hf start)

end CodeAtlas.Table
