import Mathlib
import CodeAtlas.Proofs.Table.Integrity

/-!
# Elementary changes

Every operation on a table is a chain of elementary changes: a definition is withdrawn or stored, a
namespace gets or loses a file, a placeholder comes or goes. Each of them turns the cell of one
name. So what every turn keeps holds of all cells of every table, also of a table that knows a file
with an empty path.

Main results:

* `Keeps.apply`: what elementary changes keep, every operation keeps.
* `apply_changes`, `after_changes`: operations are chains of changes, and store only symbols that an
  accepted commit offered.
* `Change.turns`: what a change does to the cells.
* `proper_after`: in every table placeholders belong to no file, and what is hidden belongs to one.
-/

namespace CodeAtlas

open SortedMap

namespace Cell

/-! ## Turns of a cell -/

/-- What an elementary change does to the cell of its name; `offered` are the symbols that may be
stored. -/
inductive Turn (offered : Symbol → Prop) (fqn : String) (c : Cell) : Cell → Prop
  | withdraw (file : String) (declared : Bool) :
      Turn offered fqn c (c.withdraw file (fallback fqn declared))
  | define {s : Symbol} (stands : s.StandsFor fqn) (internal : s.isExternal = false)
      (offer : offered s) : Turn offered fqn c (c.define s)
  | acquire {s : Symbol} (stands : s.StandsFor fqn)
      (bare : s.isExternal = true ∧ s.file = "" ∨ s = Table.moduleSymbol fqn) :
      Turn offered fqn c (c.acquire s)
  /-- A placeholder, or a symbol that stands for a namespace, goes. -/
  | vacate (bare : ∀ s, c.current = some s →
      s.isExternal = true ∨ s.kind = .moduleNode ∧ s.file = "") :
      Turn offered fqn c ⟨none, c.hidden⟩

/-- What holds of the cell of a name in every table. -/
structure Proper (fqn : String) (c : Cell) : Prop where
  named : ∀ {s}, c.current = some s → s.StandsFor fqn
  /-- A placeholder belongs to no file. -/
  placeless : ∀ {s}, c.current = some s → s.isExternal = true → s.file = ""
  /-- Only definitions of files are hidden. -/
  hidden : ∀ s ∈ c.hidden, s.StandsFor fqn ∧ s.isPlaced = true

variable {offered : Symbol → Prop} {fqn : String} {c c' : Cell}

namespace Proper

theorem regular (h : c.Proper fqn) : c.Regular fqn :=
  ⟨fun hs => (h.named hs).2, fun s hs => (Symbol.isPlaced_iff.1 (h.hidden s hs).2).1⟩

theorem withdraw (h : c.Proper fqn) (file : String) (declared : Bool) :
    (c.withdraw file (fallback fqn declared)).Proper fqn := by
  refine ⟨fun {x} hx => ?_, fun {x} hx hext => ?_, fun x hx => h.hidden x (hidden_withdraw hx).1⟩
  · rcases current_withdraw hx with ⟨hx, -⟩ | ⟨hx, -⟩ | hx
    · exact h.named hx
    · exact (h.hidden x hx).1
    · obtain ⟨-, rfl⟩ := fallback_eq_some.1 hx
      exact ⟨rfl, rfl⟩
  · rcases current_withdraw hx with ⟨hx, -⟩ | ⟨hx, -⟩ | hx
    · exact h.placeless hx hext
    · rw [(Symbol.isPlaced_iff.1 (h.hidden x hx).2).1] at hext
      cases hext
    · obtain ⟨-, rfl⟩ := fallback_eq_some.1 hx
      rfl

theorem define (h : c.Proper fqn) {s : Symbol} (hs : s.StandsFor fqn)
    (hint : s.isExternal = false) : (c.define s).Proper fqn := by
  refine ⟨?_, ?_, fun x hx => ?_⟩
  · rintro x ⟨⟩
    exact hs
  · rintro x ⟨⟩ hext
    rw [hint] at hext
    cases hext
  · rcases hidden_define hx with ⟨hx, hp⟩ | hx
    · exact ⟨h.named hx, hp⟩
    · exact h.hidden x hx

theorem acquire (h : c.Proper fqn) {s : Symbol} (hs : s.StandsFor fqn)
    (hbare : s.isExternal = true ∧ s.file = "" ∨ s = Table.moduleSymbol fqn) :
    (c.acquire s).Proper fqn := by
  refine ⟨fun hx => ?_, fun hx hext => ?_, h.hidden⟩
  · rcases current_acquire hx with hx | rfl
    · exact h.named hx
    · exact hs
  · rcases current_acquire hx with hx | rfl
    · exact h.placeless hx hext
    · rcases hbare with hbare | rfl
      · exact hbare.2
      · rfl

theorem turn (h : c.Proper fqn) (ht : c.Turn offered fqn c') : c'.Proper fqn := by
  cases ht with
  | withdraw file declared => exact h.withdraw file declared
  | define stands internal _ => exact h.define stands internal
  | acquire stands bare => exact h.acquire stands bare
  | vacate _ => exact ⟨by simp, by simp, h.hidden⟩

end Proper

end Cell

namespace Table

variable {offered offered' : Symbol → Prop} {t t' t'' : Table} {fqn file ns : String}

/-! ## Changes of a table -/

/-- Tables with the same names, which may differ in edges, reports and the entries of files. -/
structure SameNames (t t' : Table) : Prop where
  symbols : t'.symbols = t.symbols
  ids : t'.ids = t.ids
  names : t'.names = t.names
  shadowed : t'.shadowed = t.shadowed
  modules : t'.modules = t.modules

theorem SameSymbols.sameNames (h : SameSymbols t t') : SameNames t t' :=
  ⟨h.symbols, h.ids, h.names, h.shadowed, h.modules⟩

/-- An elementary change; `offered` are the symbols that may be stored. -/
inductive Change (offered : Symbol → Prop) (t : Table) : Table → Prop
  | same {t' : Table} (same : SameNames t t') : Change offered t t'
  | withdraw (fqn file : String) : Change offered t (t.withdraw fqn file).2
  | release (ns file : String) : Change offered t (t.releaseModule ns file).2
  | acquire (ns file : String) : Change offered t (t.acquireModule ns file)
  | define {s : Symbol} (summary : CommitSummary) (stands : s.StandsFor s.fqn)
      (internal : s.isExternal = false) (offer : offered s) :
      Change offered t (commitSymbol s.file (summary, t) s).2
  | placeholder (template : Symbol) : Change offered t (t.ensurePlaceholder template).2
  | drop {s : Symbol} (known : t.symbols.get? s.fqn = some s) (external : s.isExternal = true) :
      Change offered t (t.dropSymbol s)

/-- A chain of elementary changes. -/
abbrev Changes (offered : Symbol → Prop) : Table → Table → Prop :=
  Relation.ReflTransGen (Change offered)

theorem Change.mono (h : Change offered t t') (ho : ∀ s, offered s → offered' s) :
    Change offered' t t' := by
  cases h with
  | same same => exact .same same
  | withdraw fqn file => exact .withdraw fqn file
  | release ns file => exact .release ns file
  | acquire ns file => exact .acquire ns file
  | define summary stands internal offer => exact .define summary stands internal (ho _ offer)
  | placeholder template => exact .placeholder template
  | drop known external => exact .drop known external

theorem Changes.mono (h : Changes offered t t') (ho : ∀ s, offered s → offered' s) :
    Changes offered' t t' :=
  Relation.ReflTransGen.mono (fun _ _ hc => Change.mono hc ho) _ _ h

/-! ## Operations are chains of changes -/

/-- The names that an operation may make known. -/
def Operation.UsesNames (names : Set String) : Operation → Prop
  | .commit _ symbols => Table.UsesNames names symbols
  | .external fqn => fqn ∈ names
  | .placeholder template => template.fqn ∈ names
  | _ => True

/-- The symbols that an operation stores: those that an accepted commit offers. -/
def Operation.Offers (t : Table) (op : Operation) (s : Symbol) : Prop :=
  ∃ file symbols summary, op = .commit file symbols ∧
    (t.commitFile file symbols).1 = .ok summary ∧ s ∈ symbols

/-- Elementary changes keep a property; `names` are the names that may become known, and `offered` the
symbols that may be stored. -/
structure Keeps (names : Set String) (offered : Symbol → Prop) (P : Table → Prop) : Prop where
  same : ∀ {t t'}, P t → SameNames t t' → P t'
  withdraw : ∀ {t}, P t → ∀ fqn file, P (t.withdraw fqn file).2
  release : ∀ {t}, P t → ∀ ns file, P (t.releaseModule ns file).2
  acquire : ∀ {t}, P t → ∀ {ns}, ns ∈ names → ∀ file, P (t.acquireModule ns file)
  define : ∀ {t}, P t → ∀ {s} summary, s.StandsFor s.fqn → s.isExternal = false → offered s →
    P (commitSymbol s.file (summary, t) s).2
  placeholder : ∀ {t}, P t → ∀ {template}, template.fqn ∈ names → P (t.ensurePlaceholder template).2
  drop : ∀ {t}, P t → ∀ {s}, t.symbols.get? s.fqn = some s → s.isExternal = true →
    P (t.dropSymbol s)

namespace Keeps

variable {names : Set String} {P : Table → Prop}

section

variable (k : Keeps names offered P)

include k

theorem sameSymbols (h : P t) (hs : SameSymbols t t') : P t' :=
  k.same h hs.sameNames

theorem foldl_step (l : List String) {w : Withdrawn} (h : P w.table)
    (file : String) : P (l.foldl (Withdrawn.step file) w).table := by
  induction l generalizing w with
  | nil => exact h
  | cons fqn rest ih =>
    refine ih ?_
    rw [step_table]
    exact k.withdraw h fqn file

theorem foldl_commitSymbol (symbols : List Symbol) {a : CommitSummary × Table} (h : P a.2)
    (hs : ∀ s ∈ symbols, s.StandsFor s.fqn ∧ s.isExternal = false ∧ s.file = file ∧ offered s) :
    P (symbols.foldl (commitSymbol file) a).2 := by
  induction symbols generalizing a with
  | nil => exact h
  | cons s rest ih =>
    obtain ⟨hstands, hint, rfl, hoffer⟩ := hs s (List.mem_cons_self ..)
    exact ih (k.define h a.1 hstands hint hoffer) fun x hx => hs x (List.mem_cons_of_mem _ hx)

theorem commitAdmitted (h : P t) {symbols : List Symbol}
    (hs : ∀ s ∈ symbols, s.StandsFor s.fqn ∧ s.isExternal = false ∧ s.file = file ∧ offered s)
    (hn : Table.UsesNames names symbols) : P (t.commitAdmitted file symbols).2 := by
  have hway : P (t.madeWay file symbols).table := by
    refine declare_induct (P := fun w => P w.table) (k.foldl_step _ h file) (fun _ hw => ?_)
      fun hns hw => ?_
    · rw [release_table]
      exact k.release hw _ file
    · obtain ⟨s, hmem, hmod⟩ := exists_of_declaredModule? hns
      exact k.acquire hw ((hn s hmem).2 _ hmod) file
  have hstored : P (t.stored file symbols) :=
    k.foldl_commitSymbol symbols (a := (({} : CommitSummary), _)) hway hs
  have hfiled : P (t.filed file symbols) := k.same hstored ⟨rfl, rfl, rfl, rfl, rfl⟩
  exact k.sameSymbols hfiled (commitAdmitted_same t file symbols)

/-- A commit stores what it offers, if it is accepted. -/
theorem commitFile (h : P t) {symbols : List Symbol}
    (hs : ∀ {summary}, (t.commitFile file symbols).1 = .ok summary → ∀ s ∈ symbols, offered s)
    (hn : Table.UsesNames names symbols) : P (t.commitFile file symbols).2 := by
  rcases hc : t.commitFile file symbols with ⟨_ | summary, t'⟩
  · exact k.sameSymbols h (commitFile_eq_error hc).symbols
  · obtain ⟨admitted, reports, hadm, heq⟩ := commitFile_eq_ok hc
    have hadmitted : ∀ s ∈ admitted, s.StandsFor s.fqn ∧ s.isExternal = false ∧ s.file = file ∧
        offered s := by
      intro s hs'
      obtain ⟨hmem, hid, hint, hfile⟩ := admitted_spec hadm hs'
      exact ⟨⟨rfl, hid⟩, hint, hfile, hs (congrArg Prod.fst hc) s hmem⟩
    have hcommitted := k.commitAdmitted
      (k.sameSymbols h (SameGraph.setDiagnostics t (t.diagnostics ++ reports)).symbols) hadmitted
      fun s hs' => hn s (admitted_spec hadm hs').1
    rwa [heq] at hcommitted

theorem removeFile (h : P t) (file : String) : P (t.removeFile file).2 := by
  refine k.sameSymbols ?_ (removeFile_same t file)
  refine goneWith_induct (P := fun w => P w.table) (k.same h ⟨rfl, rfl, rfl, rfl, rfl⟩)
    (fun _ hw => k.foldl_step _ hw file) fun _ _ hw => ?_
  rw [release_table]
  exact k.release hw _ file

/-- Orphans go one by one: the names of the others still stand for them. -/
theorem foldl_dropSymbol (l : List Symbol) (h : P t) (hl : (l.map (·.fqn)).Nodup)
    (hs : ∀ s ∈ l, t.symbols.get? s.fqn = some s ∧ s.isExternal = true) :
    P (l.foldl dropSymbol t) := by
  induction l generalizing t with
  | nil => exact h
  | cons s rest ih =>
    obtain ⟨hnot, hrest⟩ := List.nodup_cons.1 hl
    obtain ⟨hknown, hext⟩ := hs s (List.mem_cons_self ..)
    refine ih (k.drop h hknown hext) hrest fun x hx => ?_
    obtain ⟨hx', hxext⟩ := hs x (List.mem_cons_of_mem _ hx)
    have hne : x.fqn ≠ s.fqn := fun he => hnot (List.mem_map.2 ⟨x, hx, he⟩)
    exact ⟨((get?_erase_eq t.symbols s.fqn x.fqn).trans (if_neg hne)).trans hx', hxext⟩

theorem pruneExternals (h : P t) (ha : Anchored t) : P t.pruneExternals.2 := by
  have hvalues : t.allSymbols.map (·.fqn) = t.symbols.keys := by
    rw [allSymbols, values_eq_map_getD t.symbols default, List.map_map]
    refine (List.map_congr_left fun g hg => ?_).trans (List.map_id _)
    obtain ⟨s, hs⟩ := contains_iff.1 (mem_keys.1 hg)
    dsimp only [Function.comp]
    rw [getD_of_get? hs]
    exact (ha.symbol hs).1
  refine k.foldl_dropSymbol _ h ?_ fun s hs => ?_
  · exact (hvalues ▸ keys_nodup t.symbols).sublist (List.filter_sublist.map _)
  · obtain ⟨g, hg, ho⟩ := mem_orphans.1 hs
    obtain ⟨rfl, -⟩ := ha.symbol hg
    exact ⟨hg, (Bool.and_eq_true_iff.1 ho).1⟩

/-- What elementary changes keep, every operation keeps. -/
theorem apply (h : P t) (ha : Anchored t) {op : Operation}
    (hop : op.UsesNames names) (ho : ∀ s, op.Offers t s → offered s) : P (t.apply op) := by
  cases op with
  | commit file symbols =>
    exact k.commitFile h (fun {summary} hok s hs => ho s ⟨file, symbols, summary, rfl, hok, hs⟩) hop
  | remove file => exact k.removeFile h file
  | external fqn | placeholder template => exact k.placeholder h hop
  | replace owner edges => exact k.sameSymbols h (sameSymbols_replace t owner edges)
  | append owner edges => exact k.sameSymbols h (sameSymbols_append t owner edges)
  | clear owner => exact k.sameSymbols h (clearEdges_rewires t owner).same
  | prune => exact k.pruneExternals h ha
  | report d => exact k.sameSymbols h (SameGraph.record t d).symbols
  | takeReports => exact k.sameSymbols h (SameGraph.setDiagnostics t []).symbols

end

end Keeps

theorem keeps_changes (offered : Symbol → Prop) (t : Table) :
    Keeps Set.univ offered (Changes offered t) where
  same h hs := h.tail (.same hs)
  withdraw h fqn file := h.tail (.withdraw fqn file)
  release h ns file := h.tail (.release ns file)
  acquire h _ _ file := h.tail (.acquire _ file)
  define h _ summary stands internal offer := h.tail (.define summary stands internal offer)
  placeholder h _ _ := h.tail (.placeholder _)
  drop h _ known external := h.tail (.drop known external)

/-- Every operation is a chain of elementary changes. -/
theorem apply_changes (h : Anchored t) (op : Operation) : Changes (op.Offers t) t (t.apply op) := by
  refine (keeps_changes _ t).apply .refl h ?_ fun _ => id
  cases op with
  | commit file symbols => exact fun s _ => ⟨trivial, fun _ _ => trivial⟩
  | _ => trivial

/-- The symbols that accepted commits of a history offered. -/
def Upserted (ops : List Operation) (s : Symbol) : Prop :=
  ∃ before op since, ops = before ++ op :: since ∧ op.Offers (after before) s

/-- Every table is reached from the empty one by elementary changes. -/
theorem after_changes (ops : List Operation) : Changes (Upserted ops) .empty (after ops) := by
  induction ops using List.reverseRecOn with
  | nil => exact .refl
  | append_singleton ops op ih =>
    rw [after_append]
    refine (ih.mono fun s hs => ?_).trans
      ((apply_changes (intact_after ops).anchored op).mono fun s hs => ⟨ops, op, [], rfl, hs⟩)
    obtain ⟨before, op', since, rfl, hoffers⟩ := hs
    exact ⟨before, op', since ++ [op], by simp, hoffers⟩

/-! ## Changes turn cells -/

/-- What stands under every name is as it should be. -/
def Proper (t : Table) : Prop := ∀ fqn, (t.cell fqn).Proper fqn

/-- Giving up the declaration of a namespace changes no symbol, unless it takes the symbol of the
namespace with it. -/
theorem releaseModule_cases (t : Table) (ns file : String) :
    (∃ modules, t.releaseModule ns file = (none, { t with modules })) ∨
      ∃ s, t.symbols.get? ns = some s ∧ s.kind = .moduleNode ∧ s.file = "" ∧
        t.releaseModule ns file = (some s.id,
          { { t with
              modules := eraseFrom t.modules ns file
              symbols := t.symbols.erase ns }.unindexName s.name ns with
            ids := t.ids.erase s.id }) := by
  unfold releaseModule
  split
  · exact .inl ⟨t.modules, rfl⟩
  · dsimp only
    split
    · split
      · next s hs =>
        split
        · next hbare =>
          have hboth : s.kind = .moduleNode ∧ s.file = "" := by simpa using hbare
          exact .inr ⟨s, hs, hboth.1, hboth.2, rfl⟩
        · exact .inl ⟨_, rfl⟩
      · exact .inl ⟨_, rfl⟩
    · exact .inl ⟨_, rfl⟩

/-- A change of one cell. -/
theorem Touches.cell_cases (ht : Touches fqn t t') {c : Cell} (hc : t'.cell fqn = c)
    (hturn : (t.cell fqn).Turn offered fqn c) (g : String) :
    t'.cell g = t.cell g ∨ (t.cell g).Turn offered g (t'.cell g) := by
  by_cases hg : g = fqn
  · subst hg
    rw [hc]
    exact .inr hturn
  · exact .inl (ht.cells g hg)

/-- A change leaves a cell alone or turns it. -/
theorem Change.turns (h : t.Proper) (hc : Change offered t t') (g : String) :
    t'.cell g = t.cell g ∨ (t.cell g).Turn offered g (t'.cell g) := by
  cases hc with
  | same same =>
    left
    simp only [cell, same.symbols, same.shadowed]
  | withdraw fqn file =>
    obtain ⟨⟨ht, hcell⟩, -⟩ := withdraw_spec (h fqn).regular file
    exact ht.cell_cases hcell (.withdraw file _) g
  | release ns file =>
    rcases releaseModule_cases t ns file with ⟨modules, heq⟩ | ⟨s, hs, hkind, hfile, heq⟩
    · rw [heq]
      exact .inl rfl
    · rw [heq]
      by_cases hg : g = ns
      · subst hg
        right
        have hcell : (t.cell g).Turn offered g ⟨none, (t.cell g).hidden⟩ := by
          refine .vacate fun x hx => .inr ?_
          cases hs.symm.trans hx
          exact ⟨hkind, hfile⟩
        convert hcell using 1
        exact Cell.ext ((get?_erase_eq t.symbols g g).trans (if_pos rfl)) rfl
      · exact .inl (Cell.ext ((get?_erase_eq t.symbols ns g).trans (if_neg hg)) rfl)
  | acquire ns file =>
    obtain ⟨⟨ht, hcell⟩, -⟩ := acquireModule_spec t ns file
    exact ht.cell_cases hcell (.acquire ⟨rfl, rfl⟩ (.inr rfl)) g
  | @define s summary stands internal offer =>
    obtain ⟨⟨ht, hcell⟩, -⟩ := commitSymbol_spec (t := t) rfl stands.2 summary
    exact ht.cell_cases hcell (.define stands internal offer) g
  | placeholder template =>
    obtain ⟨⟨ht, hcell⟩, -⟩ := ensurePlaceholder_spec t template
    exact ht.cell_cases hcell (.acquire ⟨rfl, rfl⟩ (.inl ⟨rfl, rfl⟩)) g
  | @drop s known external =>
    obtain ⟨⟨ht, hcell⟩, -⟩ := dropSymbol_spec t s
    refine ht.cell_cases hcell (.vacate fun x hx => .inl ?_) g
    cases known.symm.trans hx
    exact external

theorem Proper.change (h : t.Proper) (hc : Change offered t t') : t'.Proper := by
  intro g
  rcases hc.turns h g with hg | hg
  · rw [hg]
    exact h g
  · exact (h g).turn hg

theorem proper_empty : Proper .empty :=
  fun _ => ⟨by simp [cell, Table.empty], by simp [cell, Table.empty], by simp [cell, Table.empty]⟩

theorem Proper.changes (h : t.Proper) (hc : Changes offered t t') : t'.Proper := by
  induction hc with
  | refl => exact h
  | tail _ hlast ih => exact ih.change hlast

theorem proper_after (ops : List Operation) : (after ops).Proper :=
  proper_empty.changes (after_changes ops)

end Table

end CodeAtlas
