import Mathlib
import CodeAtlas.Sketch.Basic
import CodeAtlas.Proofs.Table.Commits

/-!
# Sketches and the symbols of a committed file

A sketch is looked up in two ways. The sketches of a file answer by relative path, and of several
sketches at one path the last. The table answers by fully-qualified name once the file is committed,
and a commit keeps one symbol for each name. The names of sketches may coincide with each other, with
the file's own node, with a namespace, a placeholder or a definition of another file.

Main results:

* `get?_ofList_eq_find?`: a map of a list has the last entry of each key.
* `commitFile_definitions`: right after a commit, the table has the last symbol of each name that the
  file committed, and lists it for the file.
* `FileSketch.get?_definitionsOf_qualify`: the last symbol of a qualified path is that of the last
  sketch at the path, or else the file's own node.
* `sketches_agree_with_table`: the two look-ups agree.
-/

namespace CodeAtlas

open SortedMap

/-- Of several entries of a key the last one counts. -/
theorem SortedMap.get?_ofList_eq_find? {κ α : Type} [Ord κ] [Std.TransOrd κ] [Std.LawfulEqOrd κ]
    [DecidableEq κ] (l : List (κ × α)) (k : κ) :
    (ofList l).get? k = (l.reverse.find? fun e => e.1 = k).map (·.2) := by
  induction l using List.reverseRecOn with
  | nil => rfl
  | append_singleton l e ih =>
    have hlast : ofList (l ++ [e]) = (ofList l).insert e.1 e.2 := by
      rw [ofList, insertAll, List.foldl_append]
      rfl
    rw [hlast, get?_insert_eq, ih, List.reverse_append, List.reverse_singleton,
      List.singleton_append, List.find?_cons]
    by_cases hk : e.1 = k
    · simp [hk]
    · simp [hk, Ne.symm hk]

namespace Table

open Ledger

variable {t t' : Table} {file : String} {symbols : List Symbol} {summary : CommitSummary}

/-! ## Right after a commit -/

/-- The admitted symbols are current, and the file lists their names. -/
theorem commitAdmitted_current (t : Table) (file : String) (hnodup : (symbols.map (·.fqn)).Nodup) :
    (∀ {fqn s}, symbols.find? (fun x => x.fqn == fqn) = some s →
      (t.commitAdmitted file symbols).2.symbols.get? fqn = some s) ∧
      ((t.commitAdmitted file symbols).2.files.getD file {}).fqns = symbols.map (·.fqn) := by
  obtain ⟨-, -, hsym⟩ :=
    foldl_commitSymbol_fields file symbols hnodup ({}, (t.madeWay file symbols).table)
  have hsame := commitAdmitted_same t file symbols
  refine ⟨fun {fqn s} hfind => ?_, ?_⟩
  · have hget := hsym fqn
    rw [hfind] at hget
    exact (congrArg (SortedMap.get? · fqn) hsame.symbols).trans hget
  · rw [commitAdmitted_files, getD_insert, if_pos rfl]

/-- Right after a commit the table has the last symbol of each committed name, and these are the
symbols of the file. -/
theorem commitFile_definitions (hok : t.commitFile file symbols = (.ok summary, t')) :
    (∀ {fqn s}, (definitionsOf symbols).get? fqn = some s → t'.symbols.get? fqn = some s) ∧
      ∀ {s}, s ∈ t'.symbolsInFile file ↔ ∃ fqn, (definitionsOf symbols).get? fqn = some s := by
  obtain ⟨admitted, reports, hadm, heq⟩ := commitFile_eq_ok hok
  obtain ⟨hnodup, hlast⟩ := admitSymbols_last (m := ∅) hadm List.nodup_nil fun _ => rfl
  obtain ⟨hcurrent, hlisted⟩ :=
    commitAdmitted_current { t with diagnostics := t.diagnostics ++ reports } file hnodup
  rw [heq] at hcurrent hlisted
  have hget : ∀ fqn, (definitionsOf symbols).get? fqn = admitted.find? fun x => x.fqn == fqn := hlast
  have hdefined : ∀ {fqn s}, (definitionsOf symbols).get? fqn = some s →
      t'.symbols.get? fqn = some s := fun hs => hcurrent ((hget _).symm.trans hs)
  refine ⟨hdefined, fun {s} => ?_⟩
  unfold symbolsInFile symbolsNamed
  rw [List.mem_mergeSort, List.mem_filter, List.mem_filterMap, hlisted]
  constructor
  · rintro ⟨⟨fqn, hfqn, hs⟩, -⟩
    -- a listed name has an admitted symbol, and that one is current
    obtain ⟨a, ha, rfl⟩ := List.mem_map.1 hfqn
    have hsome : (admitted.find? fun x => x.fqn == a.fqn).isSome = true :=
      List.find?_isSome.2 ⟨a, ha, beq_self_eq_true a.fqn⟩
    obtain ⟨x, hx⟩ := Option.isSome_iff_exists.1 hsome
    cases hs.symm.trans (hcurrent hx)
    exact ⟨a.fqn, (hget _).trans hx⟩
  · rintro ⟨fqn, hs⟩
    have hfind := (hget fqn).symm.trans hs
    have hmem := List.mem_of_find?_eq_some hfind
    have hfqn : s.fqn = fqn := by simpa using List.find?_some hfind
    refine ⟨⟨fqn, List.mem_map.2 ⟨s, hmem, hfqn⟩, hdefined hs⟩, ?_⟩
    simpa using (admitted_spec hadm hmem).2.2.2

end Table

/-! ## The names of sketches -/

namespace FileSketch

open Table Ledger

variable {f : FileSketch}

theorem qualify_inj {r r' : String} : f.qualify r = f.qualify r' ↔ r = r' := by
  refine ⟨fun h => ?_, congrArg _⟩
  rw [← f.relativeOf_qualify r, h, relativeOf_qualify]

/-- The last symbol at a qualified path is that of the last sketch at the path; without a sketch it
can only be the file's own node. -/
theorem get?_definitionsOf_qualify (f : FileSketch) (r : String) :
    (definitionsOf f.assembleSymbols).get? (f.qualify r) =
      ((f.symbolAt? r).map f.assembleSymbol).or
        (if f.path = f.qualify r then some f.fileSymbol else none) := by
  have hfqn : ∀ s, (f.assembleSymbol s).fqn = f.qualify (s.relativePath f.separator) := fun _ => rfl
  rw [definitionsOf, get?_ofList_eq_find?, assembleSymbols, List.map_cons, List.map_map,
    List.reverse_cons, List.find?_append, ← List.map_reverse, List.find?_map]
  have hsketch : (f.symbols.reverse.find? ((fun e : String × Symbol => decide (e.1 = f.qualify r)) ∘
      ((fun s => (s.fqn, s)) ∘ f.assembleSymbol))) = f.symbolAt? r := by
    unfold symbolAt?
    congr 1
    funext s
    simp only [Function.comp_apply, hfqn, qualify_inj]
    rfl
  rw [hsketch]
  cases f.symbolAt? r with
  | some s => rfl
  | none =>
    have hfile : f.fileSymbol.fqn = f.path := rfl
    by_cases hpath : f.path = f.qualify r
    · simp [hfile, hpath]
    · simp [hfile, hpath]

/-- The symbol shows what the sketch says, as a definition of the file. -/
structure Shows (f : FileSketch) (s : SymbolSketch) (x : Symbol) : Prop where
  file : x.file = f.path
  name : x.name = s.name
  kind : x.kind = s.kind
  line : x.line = s.line
  column : x.column = s.column
  exported : x.exported = s.exported

theorem shows_assembleSymbol (f : FileSketch) (s : SymbolSketch) : f.Shows s (f.assembleSymbol s) :=
  ⟨rfl, rfl, rfl, rfl, rfl, rfl⟩

theorem get?_definitionsOf_of_symbolAt? {r : String} {s : SymbolSketch} (h : f.symbolAt? r = some s) :
    (definitionsOf f.assembleSymbols).get? (f.qualify r) = some (f.assembleSymbol s) := by
  rw [get?_definitionsOf_qualify, h]
  rfl

/-- The last symbol of a name is the file's own node or that of a sketch. -/
theorem eq_of_get?_definitionsOf {fqn : String} {x : Symbol}
    (h : (definitionsOf f.assembleSymbols).get? fqn = some x) :
    x = f.fileSymbol ∨ ∃ r s, f.symbolAt? r = some s ∧ fqn = f.qualify r ∧ x = f.assembleSymbol s := by
  obtain ⟨y, hy, heq⟩ := List.mem_map.1 (mem_of_get?_ofList h)
  obtain ⟨rfl, rfl⟩ := Prod.mk.inj heq
  rcases List.mem_cons.1 hy with rfl | hy
  · exact .inl rfl
  · obtain ⟨s, hs, rfl⟩ := List.mem_map.1 hy
    set r := s.relativePath f.separator
    have hsome : (f.symbolAt? r).isSome = true :=
      List.find?_isSome.2 ⟨s, List.mem_reverse.2 hs, beq_self_eq_true r⟩
    obtain ⟨s', hs'⟩ := Option.isSome_iff_exists.1 hsome
    have hlast := get?_definitionsOf_of_symbolAt? hs'
    exact .inr ⟨r, s', hs', rfl, Option.some.inj (h.symm.trans hlast)⟩

end FileSketch

namespace Table

open FileSketch

/-- Right after a file is committed, the sketch at a relative path and the symbol of the qualified
path agree, and the path can be told from the name. Conversely, every symbol of the file but its own
node is that of a sketch. -/
theorem sketches_agree_with_table {t t' : Table} {f : FileSketch} {summary : CommitSummary}
    (h : t.commitFile f.path f.assembleSymbols = (.ok summary, t')) :
    (∀ r s, f.symbolAt? r = some s →
      (∃ x ∈ t'.symbolsInFile f.path, SymbolLookup.findFqn? t' (f.qualify r) = some x ∧ f.Shows s x) ∧
        f.relativeOf (f.qualify r) = r) ∧ ∀ x ∈ t'.symbolsInFile f.path, x = f.fileSymbol ∨
      ∃ r s, f.symbolAt? r = some s ∧ SymbolLookup.findFqn? t' (f.qualify r) = some x ∧
        f.Shows s x := by
  obtain ⟨hdefined, hlisted⟩ := commitFile_definitions h
  refine ⟨fun r s hs => ⟨?_, f.relativeOf_qualify r⟩, fun x hx => ?_⟩
  · have hget := get?_definitionsOf_of_symbolAt? hs
    exact ⟨_, hlisted.2 ⟨_, hget⟩, hdefined hget, f.shows_assembleSymbol s⟩
  · obtain ⟨fqn, hget⟩ := hlisted.1 hx
    rcases eq_of_get?_definitionsOf hget with hfile | ⟨r, s, hs, rfl, rfl⟩
    · exact .inl hfile
    · exact .inr ⟨r, s, hs, hdefined hget, f.shows_assembleSymbol s⟩

/-- A file without a namespace that defines its own path twice. -/
def selfNamed : FileSketch :=
  { path := "Cart", language := "go", separator := "."
    symbols := [{ name := "Cart", kind := .classType, line := 1, column := 1 },
      { name := "Cart", kind := .function, line := 9, column := 2, exported := false }] }

theorem sketches_agree_with_table_selfNamed :
    ∃ summary t', (after [.external "Cart"]).commitFile selfNamed.path selfNamed.assembleSymbols =
        (.ok summary, t') ∧
      ∃ x, SymbolLookup.findFqn? t' "Cart" = some x ∧ x.kind = .function ∧ x.line = 9 := by
  have hids : ∀ {id g}, (after [.external "Cart"]).ids.get? id = some g → g = "Cart" := by
    intro id g hg
    change (SortedMap.insert ∅ (SymbolId.ofFqn "Cart") "Cart").get? id = some g at hg
    rw [get?_insert_eq] at hg
    split at hg
    · exact (Option.some.inj hg).symm
    · cases hg
  have hqualify : selfNamed.qualify "Cart" = "Cart" := by decide
  have hsketch : ∀ x ∈ selfNamed.symbols, x.relativePath "." = "Cart" ∧ x.kind ≠ .external := by
    decide
  have hfree : ∀ s ∈ selfNamed.assembleSymbols,
      (after [.external "Cart"]).symbolRefusal? selfNamed.path s = none := by
    intro s hs
    obtain ⟨hfqn, hfile, hext, hid⟩ : s.fqn = "Cart" ∧ s.file = "Cart" ∧ s.isExternal = false ∧
        s.id = .ofFqn s.fqn := by
      rcases List.mem_cons.1 hs with rfl | hs
      · exact ⟨rfl, rfl, rfl, rfl⟩
      · obtain ⟨x, hx, rfl⟩ := List.mem_map.1 hs
        obtain ⟨hpath, hkind⟩ := hsketch x hx
        have hext : (x.kind == .external) = false := by simpa using hkind
        exact ⟨(congrArg selfNamed.qualify hpath).trans hqualify, rfl, hext, rfl⟩
    exact symbolRefusal?_of_free ⟨by simp [hfqn], hfile, hext, hid⟩ fun g hg =>
      (hids hg).trans hfqn.symm
  obtain ⟨admitted, reports, hadm⟩ : ∃ admitted reports, (after [.external "Cart"]).admitSymbols
      selfNamed.path selfNamed.assembleSymbols [] [] = (.ok admitted, reports) :=
    admitSymbols_of_free hfree
  obtain ⟨summary, t', hok⟩ : ∃ summary t', (after [.external "Cart"]).commitFile selfNamed.path
      selfNamed.assembleSymbols = (.ok summary, t') := by
    unfold commitFile
    rw [hadm]
    exact ⟨_, _, rfl⟩
  obtain ⟨⟨x, -, hx, hshows⟩, -⟩ := (sketches_agree_with_table hok).1 "Cart" _ rfl
  rw [hqualify] at hx
  exact ⟨summary, t', hok, x, hx, hshows.kind, hshows.line⟩

end Table

end CodeAtlas
