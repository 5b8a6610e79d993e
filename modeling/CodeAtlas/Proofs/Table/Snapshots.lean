import Mathlib
import CodeAtlas.Proofs.Table.Changes
import CodeAtlas.Proofs.Table.Listing
import CodeAtlas.Proofs.Table.Namespaces

/-!
# A table and its snapshot

A table keeps its identifiers and short names in indexes that every change updates, while a snapshot
reads them off its symbols. The two give the same answers as long as all symbols that are committed
under one name have one short name, with one exception: a definition that resurfaces is not listed
under its short name, and the symbol whose place it takes may have been that of a namespace. This
takes a file with an empty path.

Main results:

* `Cell.Aligned.turn`: what a cell hides has the short name of its symbol, or that of the namespace.
* `NamesExact.change`: the index of short names stays exact.
* `snapshot_answers_alike`: a table and its snapshot answer alike.
* `snapshot_differs`: a history after which they do not.
-/

namespace CodeAtlas

open SortedMap

variable {s : Symbol}

/-- Symbols of which those with one name have one short name; and one that could be taken for the
symbol of a namespace has its short name. -/
structure Symbol.OneShortName (offered : Symbol → Prop) : Prop where
  name_eq : ∀ {s s'}, offered s → offered s' → s.fqn = s'.fqn → s.name = s'.name
  bare : ∀ {s}, offered s → s.kind = .moduleNode → s.file = "" → s.name = shortName s.fqn

namespace Cell

variable {offered : Symbol → Prop} {fqn file : String} {c c' : Cell}

/-! ## Short names within a cell -/

/-- Every symbol of the cell was offered, or stands for a name that no file defines. What is hidden
is hidden by an offered symbol that no namespace can take away, unless all offered symbols have the
short name of the namespace. -/
structure Aligned (offered : Symbol → Prop) (fqn : String) (c : Cell) : Prop where
  current : ∀ {s}, c.current = some s →
    s.isExternal = true ∨ s = Table.moduleSymbol fqn ∨ offered s
  hidden : ∀ s ∈ c.hidden, offered s
  covered : c.hidden ≠ [] →
    (∃ s, c.current = some s ∧ offered s ∧ s.isExternal = false ∧
      ¬(s.kind = .moduleNode ∧ s.file = "")) ∨
    ∀ s, offered s → s.fqn = fqn → s.name = shortName fqn

namespace Aligned

section

variable (h : c.Aligned offered fqn)

include h

theorem withdraw (hc : c.Proper fqn) (file : String) (declared : Bool) :
    (c.withdraw file (fallback fqn declared)).Aligned offered fqn := by
  have hrest : ∀ x ∈ c.hidden.filter fun s => s.file != file, offered x ∧ x.isPlaced = true :=
    fun x hx =>
      have hmem := (List.mem_filter.1 hx).1
      ⟨h.hidden x hmem, (hc.hidden x hmem).2⟩
  rcases withdraw_cases file (fallback fqn declared) c with
    ⟨hw, -⟩ | ⟨s, hs, -, -, ⟨previous, rest, hr, hw⟩ | ⟨-, hw⟩⟩
  · rw [hw]
    refine ⟨h.current, fun x hx => (hrest x hx).1, fun hne => h.covered fun hnil => hne ?_⟩
    simp [hnil]
  · rw [hr] at hrest
    obtain ⟨hoffered, hplaced⟩ := hrest previous (List.mem_cons_self ..)
    obtain ⟨hint, hfile⟩ := Symbol.isPlaced_iff.1 hplaced
    rw [hw]
    refine ⟨?_, fun x hx => (hrest x (List.mem_cons_of_mem _ hx)).1, fun _ => .inl ?_⟩
    · rintro x ⟨⟩
      exact .inr (.inr hoffered)
    · exact ⟨previous, rfl, hoffered, hint, fun hno => hfile hno.2⟩
  · rw [hw]
    refine ⟨fun hx => ?_, by simp, by simp⟩
    obtain ⟨-, rfl⟩ := fallback_eq_some.1 hx
    exact .inr (.inl rfl)

theorem define (ho : Symbol.OneShortName offered)
    (hs : s.StandsFor fqn) (hint : s.isExternal = false) (hoffered : offered s) :
    (c.define s).Aligned offered fqn := by
  refine ⟨?_, fun x hx => ?_, fun _ => ?_⟩
  · rintro x ⟨⟩
    exact .inr (.inr hoffered)
  · rcases hidden_define hx with ⟨hcur, hp⟩ | hx
    · obtain ⟨hxint, hfile⟩ := Symbol.isPlaced_iff.1 hp
      rcases h.current hcur with hext | rfl | hoff
      · rw [hext] at hxint
        cases hxint
      · exact absurd rfl hfile
      · exact hoff
    · exact h.hidden x hx
  · by_cases hbare : s.kind = .moduleNode ∧ s.file = ""
    · right
      intro x hx hfqn
      rw [ho.name_eq hx hoffered (hfqn.trans hs.1.symm), ho.bare hoffered hbare.1 hbare.2, hs.1]
    · exact .inl ⟨s, rfl, hoffered, hint, hbare⟩

theorem acquire (hbare : s.isExternal = true ∨ s = Table.moduleSymbol fqn) :
    (c.acquire s).Aligned offered fqn := by
  refine ⟨fun {x} hx => ?_, h.hidden, fun hne => (h.covered hne).imp_left ?_⟩
  · rcases current_acquire hx with hx | rfl
    · exact h.current hx
    · exact hbare.imp_right .inl
  · rintro ⟨x, hx, hrest⟩
    exact ⟨x, by simp [Cell.acquire, hx], hrest⟩

/-- A turn keeps a cell aligned. -/
theorem turn (hc : c.Proper fqn) (ho : Symbol.OneShortName offered)
    (ht : c.Turn offered fqn c') : c'.Aligned offered fqn := by
  cases ht with
  | withdraw file declared => exact h.withdraw hc file declared
  | define stands internal offer => exact h.define ho stands internal offer
  | acquire stands bare => exact h.acquire (bare.imp_left And.left)
  | vacate bare =>
    refine ⟨by simp, h.hidden, fun hne => .inr ?_⟩
    -- what can go hides nothing, unless all have the short name of the namespace
    refine (h.covered hne).resolve_left ?_
    rintro ⟨s, hs, -, hint, hno⟩
    rcases bare s hs with hext | hbare
    · rw [hext] at hint
      cases hint
    · exact hno hbare

/-- A definition that resurfaces has the short name of the symbol whose place it takes. -/
theorem name_eq (hc : c.Proper fqn) (ho : Symbol.OneShortName offered)
    {s previous : Symbol} (hs : c.current = some s) (hint : s.isExternal = false)
    (hp : previous ∈ c.hidden) : previous.name = s.name := by
  have hoffered := h.hidden previous hp
  have hfqn : previous.fqn = fqn := (hc.hidden previous hp).1.1
  have hsfqn : s.fqn = fqn := (hc.named hs).1
  have hboth : offered s → previous.name = s.name := fun hoff =>
    ho.name_eq hoffered hoff (hfqn.trans hsfqn.symm)
  rcases h.current hs with hext | rfl | hoff
  · rw [hint] at hext
    cases hext
  · rcases h.covered (List.ne_nil_of_mem hp) with ⟨x, hx, hoff, -⟩ | hshort
    · cases hs.symm.trans hx
      exact hboth hoff
    · exact hshort previous hoffered hfqn
  · exact hboth hoff

end

end Aligned

end Cell

namespace Table

variable {offered : Symbol → Prop} {t t' : Table} {fqn name : String}

/-! ## The index of short names -/

/-- Under every short name stand exactly the names of the symbols that have it. -/
def NamesExact (t : Table) : Prop :=
  ∀ name g, (t.names.getD name ∅).contains g = true ↔
    ∃ s, t.symbols.get? g = some s ∧ s.name = name

theorem NamesExact.of_same (h : NamesExact t) (hs : SameNames t t') : NamesExact t' := by
  intro name g
  rw [hs.names, hs.symbols]
  exact h name g

theorem contains_eraseFrom (m : SortedMap String StringSet) (key x name g : String) :
    ((eraseFrom m key x).getD name ∅).contains g = true ↔
      (m.getD name ∅).contains g = true ∧ ¬(name = key ∧ g = x) := by
  rw [getD_eraseFrom]
  split
  · next hn =>
    rw [contains_erase, hn]
    simp [and_comm]
  · next hn => simp [hn]

theorem contains_names_insertNew (t : Table) (s : Symbol) (name g : String) :
    ((t.insertNew s).names.getD name ∅).contains g = true ↔
      (name = s.name ∧ g = s.fqn) ∨ (t.names.getD name ∅).contains g = true := by
  change ((t.names.insert s.name ((t.names.getD s.name ∅).add s.fqn)).getD name ∅).contains g = true
    ↔ _
  rw [getD_insert]
  split
  · next hn =>
    rw [StringSet.contains_add, hn]
    simp
  · next hn => simp [hn]

/-- A symbol that goes is the only one under its short name that goes. -/
theorem NamesExact.take (h : NamesExact t) (hs : t.symbols.get? fqn = some s)
    (hsym : ∀ g, t'.symbols.get? g = if g = fqn then none else t.symbols.get? g)
    (hnames : t'.names = eraseFrom t.names s.name fqn) : NamesExact t' := by
  intro name g
  rw [hnames, contains_eraseFrom, hsym, h name g]
  by_cases hg : g = fqn
  · subst hg
    simp only [hs, if_true, Option.some.injEq, exists_eq_left', reduceCtorEq, false_and,
      exists_false, iff_false]
    rintro ⟨rfl, hno⟩
    simp at hno
  · simp [hg]

/-- A symbol is stored under a name that the table does not know. -/
theorem NamesExact.insertNew (h : NamesExact t) (hs : t.symbols.get? s.fqn = none) :
    NamesExact (t.insertNew s) := by
  intro name g
  have hsym : (t.insertNew s).symbols.get? g = if g = s.fqn then some s else t.symbols.get? g :=
    get?_insert_eq t.symbols s.fqn g s
  rw [contains_names_insertNew, hsym, h name g]
  by_cases hg : g = s.fqn
  · subst hg
    simp [hs, eq_comm]
  · simp [hg]

theorem contains_names_insertSymbol {s x : Symbol} (hx : t.symbols.get? s.fqn = some x)
    (name g : String) : ((t.insertSymbol s).2.names.getD name ∅).contains g = true ↔
      (name = s.name ∧ g = s.fqn) ∨
        (t.names.getD name ∅).contains g = true ∧
          ¬(x.name ≠ s.name ∧ name = x.name ∧ g = x.fqn) := by
  have hput : ∀ t' : Table, t'.names = (if x.name != s.name then eraseFrom t.names x.name x.fqn
      else t.names) → (((t'.insertNew s).names.getD name ∅).contains g = true ↔
        (name = s.name ∧ g = s.fqn) ∨ (t.names.getD name ∅).contains g = true ∧
          ¬(x.name ≠ s.name ∧ name = x.name ∧ g = x.fqn)) := by
    intro t' hnames
    rw [contains_names_insertNew, hnames]
    split
    · next hne => simp [contains_eraseFrom, show x.name ≠ s.name by simpa using hne]
    · next hne => simp [show x.name = s.name by simpa using hne]
  unfold insertSymbol
  rw [hx]
  dsimp only
  split <;> split <;> exact hput _ (by simp_all [unindexName, setShadowed, record])

theorem NamesExact.insertSymbol (h : NamesExact t)
    (hfqn : ∀ {x}, t.symbols.get? s.fqn = some x → x.fqn = s.fqn) :
    NamesExact (t.insertSymbol s).2 := by
  cases hx : t.symbols.get? s.fqn with
  | none =>
    rw [show (t.insertSymbol s).2 = t.insertNew s by simp only [Table.insertSymbol, hx]]
    exact h.insertNew hx
  | some x =>
    intro name g
    rw [contains_names_insertSymbol hx, (insertSymbol_fields t s).1, get?_insert_eq, hfqn hx,
      h name g]
    by_cases hg : g = s.fqn
    · subst hg
      simp only [hx, if_true, Option.some.injEq, exists_eq_left']
      grind
    · simp [hg]

/-! ## Changes -/

/-- A definition that comes back is listed already, under the short name of the one that goes. -/
theorem NamesExact.withdraw (h : NamesExact t) (hp : (t.cell fqn).Proper fqn)
    (ha : (t.cell fqn).Aligned offered fqn) (ho : Symbol.OneShortName offered) (file : String) :
    NamesExact (t.withdraw fqn file).2 := by
  rcases Cell.withdraw_cases file none (t.cell fqn) with
    ⟨-, hs⟩ | ⟨s, hs, hfile, hext, ⟨previous, rest, hr, -⟩ | ⟨hr, -⟩⟩
  · rw [withdraw_of_kept hs]
    exact h
  · have hmem : previous ∈ (t.cell fqn).hidden :=
      (List.mem_filter.1 (hr ▸ List.mem_cons_self ..)).1
    have hname := ha.name_eq hp ho hs hext hmem
    have hsym : t.symbols.get? fqn = some s := hs
    rw [withdraw_of_hidden hs hfile hext hr]
    intro name g
    refine (h name g).trans ?_
    change _ ↔ ∃ x, (t.symbols.insert fqn previous).get? g = some x ∧ x.name = name
    rw [get?_insert_eq]
    by_cases hg : g = fqn
    · subst hg
      simp [hsym, hname]
    · simp [hg]
  · have hsym : t.symbols.get? fqn = some s := hs
    rw [withdraw_of_last hs hfile hext hr]
    set t₁ := { t.purgeShadowed fqn file with
      symbols := t.symbols.erase fqn }.unindexName s.name fqn
    have hgone : ∀ g, t₁.symbols.get? g = if g = fqn then none else t.symbols.get? g :=
      get?_erase_eq t.symbols fqn
    have htaken : NamesExact t₁ := h.take hsym hgone rfl
    dsimp only
    split
    · exact htaken.insertNew ((hgone fqn).trans (if_pos rfl))
    · exact htaken

/-- A change keeps the index of short names exact. -/
theorem NamesExact.change (h : NamesExact t) (hp : t.Proper)
    (ha : ∀ g, (t.cell g).Aligned offered g) (ho : Symbol.OneShortName offered)
    (hc : Change offered t t') : NamesExact t' := by
  cases hc with
  | same same => exact h.of_same same
  | withdraw fqn file => exact h.withdraw (hp fqn) (ha fqn) ho file
  | release ns file =>
    rcases releaseModule_cases t ns file with ⟨modules, heq⟩ | ⟨s, hs, -, -, heq⟩
    · rw [heq]
      exact h
    · rw [heq]
      exact h.take hs (get?_erase_eq t.symbols ns) rfl
  | acquire ns file =>
    unfold acquireModule
    dsimp only
    split
    · exact h
    · next hno =>
      refine NamesExact.insertNew (t := { t with
        modules := t.modules.insert ns ((t.modules.getD ns ∅).add file) }) h ?_
      exact contains_eq_false_iff.1 (by simpa using hno)
  | @define s summary stands internal offer =>
    refine NamesExact.insertSymbol (t := t.purgeShadowed s.fqn s.file) h fun hx => ?_
    exact ((hp s.fqn).named hx).1
  | placeholder template =>
    unfold ensurePlaceholder
    split
    · exact h
    · next hno => exact h.insertNew hno
  | @drop s known external => exact h.take known (get?_erase_eq t.symbols s.fqn) rfl

/-- Over a chain of changes the index of short names is exact. -/
theorem namesExact_changes (ho : Symbol.OneShortName offered) (hc : Changes offered .empty t) :
    NamesExact t := by
  have hall : t.Proper ∧ (∀ g, (t.cell g).Aligned offered g) ∧ NamesExact t := by
    induction hc with
    | refl =>
      refine ⟨proper_empty, fun g => ⟨?_, ?_, ?_⟩, fun name g => ?_⟩
      all_goals simp [cell, Table.empty]
    | tail _ hlast ih =>
      obtain ⟨hp, ha, hn⟩ := ih
      refine ⟨hp.change hlast, fun g => ?_, hn.change hp ha ho hlast⟩
      rcases hlast.turns hp g with hg | hg
      · rw [hg]
        exact ha g
      · exact (ha g).turn (hp g) ho hg
  exact hall.2.2

/-! ## The answers of a snapshot -/

theorem values_sorted (h : Anchored t) :
    t.symbols.values.Pairwise fun a b => compare a.fqn b.fqn = .lt := by
  rw [values_eq_map_getD t.symbols default, List.pairwise_map]
  refine (keys_pairwise t.symbols).imp_of_mem fun {a b} ha hb hlt => ?_
  obtain ⟨x, hx⟩ := contains_iff.1 (mem_keys.1 ha)
  obtain ⟨y, hy⟩ := contains_iff.1 (mem_keys.1 hb)
  rwa [getD_of_get? hx, getD_of_get? hy, (h.symbol hx).1, (h.symbol hy).1]

theorem named_sorted (h : Anchored t) (name : String) :
    (SymbolLookup.named t name).Pairwise fun a b => compare a.fqn b.fqn = .lt := by
  change ((t.names.getD name ∅).toList.filterMap t.symbols.get?).Pairwise _
  rw [List.pairwise_filterMap]
  refine (keys_pairwise (t.names.getD name ∅)).imp fun {a b} hlt x hx y hy => ?_
  rwa [(h.symbol hx).1, (h.symbol hy).1]

/-- A table lists the symbols of a short name like its snapshot. -/
theorem named_eq_snapshot (h : Anchored t) (hn : NamesExact t) (name : String) :
    SymbolLookup.named t name = SymbolLookup.named t.snapshot name := by
  have : Std.Irrefl fun a b : Symbol => compare a.fqn b.fqn = .lt := ⟨fun a h => by simp at h⟩
  have : Std.Antisymm fun a b : Symbol => compare a.fqn b.fqn = .lt :=
    ⟨fun a b hab hba => absurd hba (Std.OrientedCmp.not_lt_of_lt hab)⟩
  have hsnapshot : (SymbolLookup.named t.snapshot name).Pairwise fun a b =>
      compare a.fqn b.fqn = .lt := (values_sorted h).sublist List.filter_sublist
  refine List.Pairwise.eq_of_mem_iff (named_sorted h name) hsnapshot fun s => ?_
  change s ∈ (t.names.getD name ∅).toList.filterMap t.symbols.get? ↔
    s ∈ t.symbols.values.filter fun x => x.name == name
  simp only [List.mem_filterMap, StringSet.mem_toList, hn name, List.mem_filter, mem_values,
    beq_iff_eq]
  constructor
  · rintro ⟨g, ⟨x, hx, hname⟩, hs⟩
    cases hx.symm.trans hs
    exact ⟨⟨g, hs⟩, hname⟩
  · rintro ⟨⟨g, hs⟩, hname⟩
    exact ⟨g, ⟨s, hs, hname⟩, hs⟩

/-- A table finds the symbol of an identifier like its snapshot, if no two names share one. -/
theorem findId?_eq_snapshot {names : Set String} (h : Anchored t) (hl : Listed names t)
    (hinj : Set.InjOn SymbolId.ofFqn names) (id : SymbolId) :
    SymbolLookup.findId? t id = SymbolLookup.findId? t.snapshot id := by
  change (t.ids.get? id).bind t.symbols.get? = t.symbols.values.find? fun x => x.id == id
  cases hf : t.symbols.values.find? fun x => x.id == id with
  | none =>
    rw [Option.bind_eq_none_iff]
    intro g hg
    obtain ⟨hknown, hid⟩ := h.ids hg
    obtain ⟨s, hs⟩ := contains_iff.1 hknown
    have hno := List.find?_eq_none.1 hf s (mem_values.2 ⟨g, hs⟩)
    simp [(h.symbol hs).2, hid] at hno
  | some s =>
    obtain ⟨g, hg⟩ := mem_values.1 (List.mem_of_find?_eq_some hf)
    have hsid : s.id = id := by simpa using List.find?_some hf
    obtain ⟨rfl, hstands⟩ := h.symbol hg
    obtain ⟨g', hg'⟩ := contains_iff.1 (hl.ids (contains_of_get? hg))
    obtain ⟨hknown, hid⟩ := h.ids hg'
    obtain rfl : g' = s.fqn := hinj (hl.known hknown) (hl.known (contains_of_get? hg)) hid
    rw [← hsid, hstands, hg']
    exact hg

end Table

/-- Stores that answer by name alike resolve alike. -/
theorem SymbolLookup.resolve?_congr {σ τ : Type} [SymbolLookup σ] [SymbolLookup τ] {a : σ} {b : τ}
    (hfqn : ∀ fqn, findFqn? a fqn = findFqn? b fqn) (hnamed : ∀ name, named a name = named b name)
    (name : String) (c : Scope) (filter : LookupFilter) :
    resolve? a name c filter = resolve? b name c filter := by
  have hdefined : findDefined? a = findDefined? b := by
    funext fqn
    rw [findDefined?, findDefined?, hfqn]
  rw [resolve?, resolve?, hdefined, findGlobal?, findGlobal?, hnamed]

namespace Table

/-- A table and its snapshot give the same answers by fully-qualified name, by identifier, by short
name (in the order of the names) and for a name in a scope, if no two names in use share an
identifier and all symbols that were committed under one name had one short name. It is assumed that
no file with an empty path defined a namespace under another short name than its own. -/
theorem snapshot_answers_alike {names : Set String} (hinj : Set.InjOn SymbolId.ofFqn names)
    {ops : List Operation} (hops : ∀ op ∈ ops, op.UsesNames names)
    (hnames : ∀ s s', Upserted ops s → Upserted ops s' → s.fqn = s'.fqn → s.name = s'.name)
    (hbare : ∀ s, Upserted ops s → s.kind = .moduleNode → s.file = "" →
      s.name = shortName s.fqn) : (∀ fqn, SymbolLookup.findFqn? (after ops) fqn =
      SymbolLookup.findFqn? (after ops).snapshot fqn) ∧
    (∀ id, SymbolLookup.findId? (after ops) id = SymbolLookup.findId? (after ops).snapshot id) ∧
    (∀ name, SymbolLookup.named (after ops) name = SymbolLookup.named (after ops).snapshot name ∧
      (SymbolLookup.named (after ops) name).Pairwise fun a b => compare a.fqn b.fqn = .lt) ∧
    ∀ name c filter, SymbolLookup.resolve? (after ops) name c filter =
      SymbolLookup.resolve? (after ops).snapshot name c filter := by
  have hanchored := (intact_after ops).anchored
  have hexact : NamesExact (after ops) :=
    namesExact_changes ⟨fun hs hs' => hnames _ _ hs hs', fun hs => hbare _ hs⟩ (after_changes ops)
  have hnamed := named_eq_snapshot hanchored hexact
  exact ⟨fun fqn => rfl, findId?_eq_snapshot hanchored (listed_after hinj hops) hinj,
    fun name => ⟨hnamed name, named_sorted hanchored name⟩,
    SymbolLookup.resolve?_congr (fun _ => rfl) hnamed⟩

/-! ## Two histories -/

theorem Upserted.exists_commit {ops : List Operation} (h : Upserted ops s) :
    ∃ file symbols, .commit file symbols ∈ ops ∧ s ∈ symbols := by
  obtain ⟨before, op, since, rfl, file, symbols, -, rfl, -, hs⟩ := h
  exact ⟨file, symbols, by simp, hs⟩

/-- A class of a shop, as a file defines it. -/
def cartOf (file : String) : Symbol := { Symbol.ofName "shop.Cart" "Cart" .classType with file }

/-- Two files define one class, and the second file goes. -/
def reopened : List Operation :=
  [.commit "a.go" [cartOf "a.go"], .commit "b.go" [cartOf "b.go"], .prune, .remove "b.go"]

theorem snapshot_answers_alike_reopened :
    (∃ s, SymbolLookup.findFqn? (after reopened) "shop.Cart" = some s ∧ s.file = "a.go") ∧
      SymbolLookup.named (after reopened) "Cart" =
        SymbolLookup.named (after reopened).snapshot "Cart" := by
  have hcart : ∀ s, Upserted reopened s → s = cartOf "a.go" ∨ s = cartOf "b.go" := by
    intro s hs
    obtain ⟨file, symbols, hop, hmem⟩ := hs.exists_commit
    simp only [reopened, List.mem_cons, Operation.commit.injEq, reduceCtorEq, List.not_mem_nil,
      or_false] at hop
    rcases hop with ⟨-, rfl⟩ | ⟨-, rfl⟩
    · exact .inl (List.mem_singleton.1 hmem)
    · exact .inr (List.mem_singleton.1 hmem)
  have hname : ∀ s, Upserted reopened s → s.name = "Cart" ∧ s.kind = .classType := by
    intro s hs
    rcases hcart s hs with rfl | rfl <;> exact ⟨rfl, rfl⟩
  have huses : ∀ op ∈ reopened, op.UsesNames {"shop.Cart"} := by
    simp [reopened, Operation.UsesNames, UsesNames, cartOf, Symbol.ofName]
  obtain ⟨-, -, hnamed, -⟩ := snapshot_answers_alike (Set.injOn_singleton _ _) huses
    (fun s s' hs hs' _ => (hname s hs).1.trans (hname s' hs').1.symm)
    fun s hs hkind => by rw [(hname s hs).2] at hkind; cases hkind
  have hfile : ((after reopened).symbols.get? "shop.Cart").map (·.file) = some "a.go" := by
    decide +kernel
  obtain ⟨s, hs, hsfile⟩ := Option.map_eq_some_iff.1 hfile
  exact ⟨⟨s, hs, hsfile⟩, (hnamed "Cart").1⟩

/-- A file defines a class, and a file with an empty path a namespace of that name, which goes with
the file that declares it. When it is declared again its symbol hides the class. -/
def displaced : List Operation :=
  [.commit "a" [{ Symbol.ofName "m.X" "foo" .classType with file := "a" }],
    .commit "" [Symbol.ofName "m.X" "foo" .moduleNode],
    .commit "c" [{ Symbol.ofName "Y" "Y" .classType with file := "c", moduleName := some "m.X" }],
    .remove "c",
    .commit "d" [{ Symbol.ofName "Z" "Z" .classType with file := "d", moduleName := some "m.X" }],
    .remove ""]

/-- The class that comes back is not listed under its short name, although no other short name was
ever committed under its name. -/
theorem snapshot_differs :
    (∀ s s', Upserted displaced s → Upserted displaced s' → s.fqn = s'.fqn → s.name = s'.name) ∧
      (∃ names, Set.InjOn SymbolId.ofFqn names ∧ ∀ op ∈ displaced, op.UsesNames names) ∧
      SymbolLookup.named (after displaced) "foo" ≠
        SymbolLookup.named (after displaced).snapshot "foo" := by
  have hcomputed : SymbolId.ofFqn "m.X" ≠ .ofFqn "Y" ∧ SymbolId.ofFqn "m.X" ≠ .ofFqn "Z" ∧
      SymbolId.ofFqn "Y" ≠ .ofFqn "Z" ∧ (SymbolLookup.named (after displaced) "foo").length = 0 ∧
      (SymbolLookup.named (after displaced).snapshot "foo").length = 1 := by decide +kernel
  obtain ⟨hxy, hxz, hyz, hlive, hfrozen⟩ := hcomputed
  refine ⟨fun s s' hs hs' hfqn => ?_, ⟨{"m.X", "Y", "Z"}, ?_, ?_⟩, fun heq => ?_⟩
  · have hshort : ∀ s, Upserted displaced s → s.name = if s.fqn = "m.X" then "foo" else s.fqn := by
      intro s hs
      obtain ⟨file, symbols, hop, hmem⟩ := hs.exists_commit
      simp only [displaced, List.mem_cons, Operation.commit.injEq, reduceCtorEq, List.not_mem_nil,
        or_false, false_or] at hop
      rcases hop with ⟨-, rfl⟩ | ⟨-, rfl⟩ | ⟨-, rfl⟩ | ⟨-, rfl⟩ <;>
        rw [List.mem_singleton.1 hmem] <;> decide
    rw [hshort s hs, hshort s' hs', hfqn]
  · intro a ha b hb hid
    simp only [Set.mem_insert_iff, Set.mem_singleton_iff] at ha hb
    rcases ha with rfl | rfl | rfl <;> rcases hb with rfl | rfl | rfl <;> simp_all
  · simp [displaced, Operation.UsesNames, UsesNames, Symbol.ofName]
  · rw [heq, hfrozen] at hlive
    cases hlive

end Table

end CodeAtlas
