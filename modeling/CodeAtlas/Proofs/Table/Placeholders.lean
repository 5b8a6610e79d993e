import Mathlib
import CodeAtlas.Resolve.File
import CodeAtlas.Proofs.Table.Symbols

/-!
# Placeholders come and go

What resolution teaches a table are placeholders under names that nobody holds (`Taught`). Pruning
takes away exactly the placeholders that no edge targets (`pruneExternals_spec`).
-/

namespace CodeAtlas.Table

open SortedMap

variable {names : Set String} {t t' t'' : Table}

/-! ## Learning -/

/-- The table got placeholders under vacant names, and nothing else but reports. -/
structure Taught (t t' : Table) : Prop where
  edges : SameEdges t t'
  files : t'.files = t.files
  shadowed : t'.shadowed = t.shadowed
  modules : t'.modules = t.modules
  kept : ∀ {fqn s}, t.symbols.get? fqn = some s → t'.symbols.get? fqn = some s
  new : ∀ {fqn s}, t'.symbols.get? fqn = some s → t.symbols.get? fqn = some s ∨
    t.symbols.get? fqn = none ∧ s.isExternal = true ∧ s.file = ""
  orderly : ∀ {names}, (∀ fqn, t'.symbols.contains fqn = true → fqn ∈ names) → Orderly names t →
    Orderly names t'

namespace Taught

@[refl] theorem refl (t : Table) : Taught t t :=
  ⟨.refl t, rfl, rfl, rfl, id, .inl, fun _ => id⟩

theorem contains (h : Taught t t') {fqn : String} (hc : t.symbols.contains fqn = true) :
    t'.symbols.contains fqn = true := by
  obtain ⟨s, hs⟩ := contains_iff.1 hc
  exact contains_of_get? (h.kept hs)

theorem trans (h : Taught t t') (h' : Taught t' t'') : Taught t t'' := by
  refine ⟨h.edges.trans h'.edges, h'.files.trans h.files, h'.shadowed.trans h.shadowed,
    h'.modules.trans h.modules, fun hs => h'.kept (h.kept hs), fun {fqn s} hs => ?_,
    fun hk hs => h'.orderly hk (h.orderly (fun fqn hc => hk fqn (h'.contains hc)) hs)⟩
  rcases h'.new hs with hs | ⟨hn, hext, hf⟩
  · exact h.new hs
  · refine .inr ⟨?_, hext, hf⟩
    cases hg : t.symbols.get? fqn with
    | none => rfl
    | some x => rw [h.kept hg] at hn; cases hn

/-- A definition that the table has after learning was there before. -/
theorem internal (h : Taught t t') {fqn : String} {s : Symbol} (hs : t'.symbols.get? fqn = some s)
    (hext : s.isExternal = false) : t.symbols.get? fqn = some s := by
  rcases h.new hs with hs | ⟨-, he, -⟩
  · exact hs
  · rw [hext] at he
    cases he

end Taught

theorem ensurePlaceholder_taught (t : Table) (template : Symbol) :
    Taught t (t.ensurePlaceholder template).2 := by
  cases hs : t.symbols.get? template.fqn with
  | some s =>
    have : (t.ensurePlaceholder template).2 = t := by simp [ensurePlaceholder, hs]
    rw [this]
  | none =>
    have hget : ∀ g, (t.ensurePlaceholder template).2.symbols.get? g =
        if g = template.fqn then some (placeholderOf template) else t.symbols.get? g := by
      intro g
      simp only [ensurePlaceholder, hs]
      exact get?_insert_eq t.symbols template.fqn g _
    have hrest : SameEdges t (t.ensurePlaceholder template).2 ∧
        (t.ensurePlaceholder template).2.files = t.files ∧
        (t.ensurePlaceholder template).2.shadowed = t.shadowed ∧
        (t.ensurePlaceholder template).2.modules = t.modules := by
      simp only [ensurePlaceholder, hs]
      exact ⟨⟨rfl, rfl⟩, rfl, rfl, rfl⟩
    obtain ⟨he, hf, hsh, hm⟩ := hrest
    refine ⟨he, hf, hsh, hm, fun {fqn s} hg => ?_, fun {fqn s} hg => ?_, fun hk h => ?_⟩
    · rw [hget, if_neg]
      · exact hg
      · rintro rfl
        rw [hs] at hg
        cases hg
    · rw [hget] at hg
      split at hg
      · next heq =>
        cases hg
        exact .inr ⟨heq ▸ hs, rfl, rfl⟩
      · exact .inl hg
    · exact h.ensurePlaceholder (hk template.fqn (contains_of_get? ((hget _).trans (if_pos rfl))))

theorem record_taught (t : Table) (d : Diagnostic) : Taught t (t.record d) :=
  ⟨⟨rfl, rfl⟩, rfl, rfl, rfl, id, .inl, fun _ h => h.of_same (SameGraph.record t d).symbols⟩

theorem teach_taught (t : Table) (f : Finding) : Taught t (f.teach t) := by
  unfold Finding.teach
  rcases f.placeholder with _ | s <;> dsimp only <;> split
  · exact record_taught t _
  · exact .refl t
  · exact (record_taught t _).trans (ensurePlaceholder_taught _ _)
  · exact ensurePlaceholder_taught t _

theorem foldl_taught {α : Type} (f : Table → α → Table) (hf : ∀ t a, Taught t (f t a))
    (l : List α) (t : Table) : Taught t (l.foldl f t) := by
  induction l generalizing t with
  | nil => exact .refl t
  | cons a rest ih => exact (hf t a).trans (ih (f t a))

theorem foldl_teach_taught (found : List Finding) (t : Table) :
    Taught t (found.foldl Finding.teach t) :=
  foldl_taught _ teach_taught found t

/-- After learning, the placeholder of every finding has a symbol. -/
theorem contains_foldl_teach {found : List Finding} {f : Finding} (hf : f ∈ found) {s : Symbol}
    (hs : f.placeholder = some s) (t : Table) :
    (found.foldl Finding.teach t).symbols.contains s.fqn = true := by
  induction found generalizing t with
  | nil => cases hf
  | cons x rest ih =>
    rw [List.foldl_cons]
    rcases List.mem_cons.1 hf with rfl | hf
    · refine (foldl_teach_taught rest _).contains ?_
      unfold Finding.teach
      rw [hs]
      dsimp only
      unfold ensurePlaceholder
      split
      · next x hx => exact contains_of_get? hx
      · exact contains_of_get? ((get?_insert_eq ..).trans (if_pos rfl))
    · exact ih hf _

/-! ## Forgetting -/

/-- Dropping symbols keeps everything but their names and identifiers. -/
theorem foldl_dropSymbol (l : List Symbol) (t : Table) :
    SameEdges t (l.foldl dropSymbol t) ∧ (l.foldl dropSymbol t).files = t.files ∧
      (l.foldl dropSymbol t).shadowed = t.shadowed ∧ (l.foldl dropSymbol t).modules = t.modules ∧
      (∀ g, (l.foldl dropSymbol t).symbols.get? g =
        if g ∈ l.map (·.fqn) then none else t.symbols.get? g) ∧
      ∀ id, (l.foldl dropSymbol t).ids.get? id =
        if id ∈ l.map (·.id) then none else t.ids.get? id := by
  induction l generalizing t with
  | nil => exact ⟨.refl t, rfl, rfl, rfl, by simp, by simp⟩
  | cons s rest ih =>
    have hget : ∀ g, (t.dropSymbol s).symbols.get? g =
        if g = s.fqn then none else t.symbols.get? g := get?_erase_eq t.symbols s.fqn
    have hgetId : ∀ id, (t.dropSymbol s).ids.get? id =
        if id = s.id then none else t.ids.get? id := get?_erase_eq t.ids s.id
    obtain ⟨hedges, hfiles, hshadow, hmod, hsym, hids⟩ := ih (t.dropSymbol s)
    refine ⟨⟨hedges.edges, hedges.dependents⟩, hfiles, hshadow, hmod, fun g => ?_, fun id => ?_⟩
    · rw [List.foldl_cons, hsym, hget]
      by_cases hg : g = s.fqn <;> simp [hg]
    · rw [List.foldl_cons, hids, hgetId]
      by_cases hi : id = s.id <;> simp [hi]

theorem mem_orphans {s : Symbol} : s ∈ t.allSymbols.filter t.isOrphan ↔
      ∃ g, t.symbols.get? g = some s ∧ t.isOrphan s = true := by
  rw [List.mem_filter, allSymbols, mem_values]
  constructor
  · rintro ⟨⟨g, hg⟩, ho⟩
    exact ⟨g, hg, ho⟩
  · rintro ⟨g, hg, ho⟩
    exact ⟨⟨g, hg⟩, ho⟩

/-- Pruning takes away exactly the placeholders that no edge targets, and lists them. -/
theorem pruneExternals_spec (h : ∀ {g s}, t.symbols.get? g = some s → s.fqn = g) :
    SameEdges t t.pruneExternals.2 ∧ t.pruneExternals.2.files = t.files ∧
      t.pruneExternals.2.shadowed = t.shadowed ∧ t.pruneExternals.2.modules = t.modules ∧
      (∀ g, t.pruneExternals.2.symbols.get? g =
        (t.symbols.get? g).filter fun s => !t.isOrphan s) ∧
      ∀ id, t.pruneExternals.1.contains id = true ↔
        ∃ g s, t.symbols.get? g = some s ∧ t.isOrphan s = true ∧ s.id = id := by
  obtain ⟨hedges, hfiles, hshadow, hmod, hsym, -⟩ :=
    foldl_dropSymbol (t.allSymbols.filter t.isOrphan) t
  refine ⟨hedges, hfiles, hshadow, hmod, fun g => ?_, fun id => ?_⟩
  · refine (hsym g).trans ?_
    cases hg : t.symbols.get? g with
    | none => simp
    | some s =>
      have hiff : g ∈ (t.allSymbols.filter t.isOrphan).map (·.fqn) ↔ t.isOrphan s = true := by
        rw [List.mem_map]
        constructor
        · rintro ⟨x, hx, hxg⟩
          obtain ⟨g', hg', ho⟩ := mem_orphans.1 hx
          rw [← h hg', hxg, hg] at hg'
          cases hg'
          exact ho
        · exact fun ho => ⟨s, mem_orphans.2 ⟨g, hg, ho⟩, h hg⟩
      by_cases ho : t.isOrphan s = true
      · rw [if_pos (hiff.2 ho)]
        simp [Option.filter, ho]
      · rw [if_neg fun hi => ho (hiff.1 hi)]
        simp [Option.filter, ho]
  · rw [pruneExternals, contains_ofList]
    simp only [List.map_map, List.mem_map, Function.comp_apply, mem_orphans]
    constructor
    · rintro ⟨s, ⟨g, hg, ho⟩, hid⟩
      exact ⟨g, s, hg, ho, hid⟩
    · rintro ⟨g, s, hg, ho, hid⟩
      exact ⟨s, ⟨g, hg, ho⟩, hid⟩

theorem Orderly.foldl_dropSymbol (l : List Symbol) {t : Table} (h : Orderly names t)
    (hl : ∀ s ∈ l, s.id = .ofFqn s.fqn ∧ s.fqn ∈ names ∧
      ∀ x, t.symbols.get? s.fqn = some x → x.isPlaced = false) :
    Orderly names (l.foldl Table.dropSymbol t) := by
  induction l generalizing t with
  | nil => exact h
  | cons s rest ih =>
    obtain ⟨hid, hfqn, hplaced⟩ := hl s (List.mem_cons_self ..)
    refine ih (h.dropSymbol hid hfqn hplaced) fun x hx => ?_
    obtain ⟨hxid, hxfqn, hxplaced⟩ := hl x (List.mem_cons_of_mem _ hx)
    refine ⟨hxid, hxfqn, fun y hy => ?_⟩
    have hget := (get?_erase_eq t.symbols s.fqn x.fqn).symm.trans hy
    split at hget
    · cases hget
    · exact hxplaced y hget

theorem Orderly.pruneExternals (h : Orderly names t) : Orderly names t.pruneExternals.2 := by
  refine h.foldl_dropSymbol _ fun s hs => ?_
  obtain ⟨g, hg, ho⟩ := mem_orphans.1 hs
  obtain ⟨rfl, hid⟩ := h.symbol hg
  refine ⟨hid, h.known (contains_of_get? hg), fun x hx => ?_⟩
  rw [hg] at hx
  cases hx
  have hext : s.isExternal = true := (Bool.and_eq_true_iff.1 ho).1
  simp [Symbol.isPlaced, hext]

end CodeAtlas.Table
