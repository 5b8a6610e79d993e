import Mathlib
import CodeAtlas.Project.Flush
import CodeAtlas.Proofs.Table.Placeholders

/-!
# Edges computed anew

When the edges of an owner are deleted and the same edges come back, the table is what it was, but
for placeholders that it learnt in between; and pruning takes exactly these.

Main results:

* `Counted.sameEdges`: the edges of all owners determine the index of dependents.
* `Taught.of_recomputed`: deleting edges, learning and storing the same edges again is learning.
* `Taught.pruneExternals`: pruning after learning gives a pruned table back.
-/

namespace CodeAtlas.Table

open SortedMap

variable {names : Set String} {t t' t₁ t₂ : Table} {id : SymbolId}

/-! ## The index of dependents -/

theorem Tight.get?_edges (h : Tight t) (owner : String) :
    t.edges.get? owner = if t.edgesOf owner = [] then none else some (t.edgesOf owner) := by
  cases hl : t.edges.get? owner with
  | none => rw [edgesOf, getD_of_none hl, if_pos rfl]
  | some l => rw [edgesOf, getD_of_get? hl, if_neg (h.filled hl)]

theorem dependentCount_of_get? {m : SortedMap String Nat} (hm : t.dependents.get? id = some m)
    (owner : String) : t.dependentCount id owner = m.getD owner 0 := by
  rw [dependentCount, getD_of_get? hm]

theorem Tight.get?_owners (h : Tight t) {m : SortedMap String Nat}
    (hm : t.dependents.get? id = some m) (owner : String) : m.get? owner =
      if t.dependentCount id owner = 0 then none else some (t.dependentCount id owner) := by
  rw [dependentCount_of_get? hm]
  cases hn : m.get? owner with
  | none => rw [getD_of_none hn, if_pos rfl]
  | some n => rw [getD_of_get? hn, if_neg (h.pos hm hn).ne']

theorem Tight.get?_dependents_eq_none_iff (h : Tight t) :
    t.dependents.get? id = none ↔ ∀ owner, t.dependentCount id owner = 0 := by
  constructor
  · intro hnone owner
    rw [dependentCount, getD_of_none hnone, getD_emptyCollection]
  · intro hzero
    by_contra hsome
    obtain ⟨m, hm⟩ := Option.ne_none_iff_exists'.1 hsome
    have hempty : m.isEmpty = true := isEmpty_iff.2 fun owner => by
      rw [h.get?_owners hm, if_pos (hzero owner)]
    rw [h.nonempty hm] at hempty
    cases hempty

/-- The counts determine the index. -/
theorem Tight.dependents_eq (h : Tight t) (h' : Tight t')
    (hcount : ∀ id owner, t'.dependentCount id owner = t.dependentCount id owner) :
    t'.dependents = t.dependents := by
  ext id : 1
  have hnone : t'.dependents.get? id = none ↔ t.dependents.get? id = none := by
    simp only [h.get?_dependents_eq_none_iff, h'.get?_dependents_eq_none_iff, hcount]
  cases hm : t.dependents.get? id with
  | none => exact hnone.2 hm
  | some m =>
    obtain ⟨m', hm'⟩ := Option.ne_none_iff_exists'.1 fun hn => by
      rw [hnone.1 hn] at hm
      cases hm
    rw [hm']
    congr 1
    ext owner : 1
    rw [h.get?_owners hm, h'.get?_owners hm', hcount]

theorem Counted.sameEdges (h : Counted t) (h' : Counted t')
    (hedges : ∀ owner, t'.edgesOf owner = t.edgesOf owner) : SameEdges t t' where
  edges := by
    ext owner : 1
    rw [h.get?_edges, h'.get?_edges, hedges]
  dependents := h.dependents_eq h'.toTight fun id owner => by
    rw [h.exact, h'.exact, targetsOf, targetsOf, hedges]

/-! ## The same edges again -/

theorem target_eq_of_beq {e e' : Edge} (h : (e == e') = true) : e.target = e'.target := by
  cases e
  cases e'
  simp only [BEq.beq, instBEqEdge.beq, Bool.and_eq_true] at h
  exact of_decide_eq_true h.2.2.1

/-- Edges that are left out as repeats have their target in common with one that stays. -/
theorem exists_target_dropRepeats {l : List Edge} {e : Edge} (he : e ∈ l) :
    ∃ e' ∈ dropRepeats l, e'.target = e.target := by
  induction l with
  | nil => cases he
  | cons x rest ih =>
    rw [dropRepeats]
    rcases List.mem_cons.1 he with rfl | he
    · refine ⟨e, ?_, rfl⟩
      split
      · exact List.mem_singleton_self e
      · split <;> exact List.mem_cons_self ..
    · obtain ⟨e', he', htarget⟩ := ih he
      split
      · next hnil =>
        rw [hnil] at he'
        cases he'
      · next y rest' hrest =>
        rw [hrest] at he'
        split
        · next hbeq =>
          rcases List.mem_cons.1 he' with rfl | he'
          · exact ⟨x, List.mem_cons_self .., (target_eq_of_beq hbeq).trans htarget⟩
          · exact ⟨e', List.mem_cons_of_mem _ he', htarget⟩
        · exact ⟨e', List.mem_cons_of_mem _ he', htarget⟩

theorem Taught.contains_ids (ht : Taught t t') (h : Indexed t) (h' : Indexed t')
    (hid : t.ids.contains id = true) : t'.ids.contains id = true := by
  obtain ⟨fqn, hfqn⟩ := contains_iff.1 hid
  obtain ⟨hknown, hof⟩ := (h id fqn).1 hfqn
  exact contains_of_get? ((h' id fqn).2 ⟨ht.contains hknown, hof⟩)

theorem Taught.of_recomputed {owner : String} (hc : Counted t)
    (hclear : Rewires owner [] t t₁) (ht : Taught t₁ t₂)
    (hstore : Rewires owner (t.edgesOf owner) t₂ t') : Taught t t' := by
  have hcounted : Counted t' := hstore.counted ((hclear.counted hc).of_same ht.edges)
  have hedges : ∀ o, t'.edgesOf o = t.edgesOf o := fun o => by
    rw [hstore.edgesOf]
    split
    · next heq => rw [heq]
    · next hne => rw [ht.edges.edgesOf, hclear.edgesOf, if_neg hne]
  have hold := hclear.same
  have hnew := hstore.same
  refine ⟨hc.sameEdges hcounted hedges, by rw [hnew.files, ht.files, hold.files],
    by rw [hnew.shadowed, ht.shadowed, hold.shadowed],
    by rw [hnew.modules, ht.modules, hold.modules], fun hs => ?_, fun hs => ?_,
    fun hknown ho => ?_⟩
  · rw [hnew.symbols]
    exact ht.kept (hold.symbols ▸ hs)
  · rw [hnew.symbols] at hs
    rw [← hold.symbols]
    exact ht.new hs
  · exact (ht.orderly (fun fqn hfqn => hknown fqn (hnew.symbols ▸ hfqn))
      (ho.of_same hold)).of_same hnew

/-! ## Pruning -/

/-- No placeholder is without an edge to it. -/
def Pruned (t : Table) : Prop := ∀ {fqn s}, t.symbols.get? fqn = some s → t.isOrphan s = false

theorem isOrphan_of_same (h : SameEdges t t') (s : Symbol) : t'.isOrphan s = t.isOrphan s := by
  rw [isOrphan, isOrphan, h.dependents]

theorem Pruned.of_same (h : Pruned t) (hs : SameGraph t t') : Pruned t' := fun hsym => by
  rw [isOrphan_of_same hs.edges]
  exact h (hs.symbols.symbols ▸ hsym)

theorem Orderly.pruned (h : Orderly names t) : Pruned t.pruneExternals.2 := by
  obtain ⟨hedges, -, -, -, hsymbols, -⟩ := pruneExternals_spec fun hs => (h.symbol hs).1
  intro fqn s hs
  rw [hsymbols, Option.filter_eq_some_iff] at hs
  rw [isOrphan_of_same hedges]
  simpa using hs.2

/-- Two tables with the same symbols, files and edges. Short names may be listed in other ways. -/
structure SameContents (t t' : Table) : Prop where
  symbols : t'.symbols = t.symbols
  ids : t'.ids = t.ids
  files : t'.files = t.files
  edges : SameEdges t t'

theorem SameGraph.sameContents (h : SameGraph t t') : SameContents t t' :=
  ⟨h.symbols.symbols, h.symbols.ids, h.symbols.files, h.edges⟩

namespace SameContents

theorem trans (h : SameContents t t') (h' : SameContents t' t₁) : SameContents t t₁ :=
  ⟨h'.symbols.trans h.symbols, h'.ids.trans h.ids, h'.files.trans h.files,
    h.edges.trans h'.edges⟩

theorem findId? (h : SameContents t t') (id : SymbolId) :
    SymbolLookup.findId? t' id = SymbolLookup.findId? t id := by
  change (t'.ids.get? id).bind t'.symbols.get? = (t.ids.get? id).bind t.symbols.get?
  rw [h.ids, h.symbols]

theorem symbolsInFile (h : SameContents t t') (file : String) :
    t'.symbolsInFile file = t.symbolsInFile file := by
  rw [Table.symbolsInFile, Table.symbolsInFile, symbolsNamed, symbolsNamed, h.files, h.symbols]

theorem fileRows (h : SameContents t t') (file : String) : t'.fileRows file = t.fileRows file := by
  unfold Table.fileRows
  simp only [h.edges.edgesOf, h.symbolsInFile, h.findId?]

end SameContents

theorem Indexed.ids_eq (h : Indexed t) (h' : Indexed t') (hsymbols : t'.symbols = t.symbols) :
    t'.ids = t.ids := by
  ext id : 1
  refine Option.ext fun fqn => ?_
  rw [h', h, hsymbols]

/-- What a pruned table learnt without edges to it is an orphan. -/
theorem Taught.isOrphan_new (ht : Taught t t') (h : Sound names t) (hc : Counted t)
    (htargets : ∀ {o e}, e ∈ t.edgesOf o → t.ids.contains e.target = true) {fqn : String}
    {s : Symbol} (hfqn : fqn ∈ names) (hs : s.id = .ofFqn fqn) (hnone : t.symbols.get? fqn = none)
    (hext : s.isExternal = true) : t'.isOrphan s = true := by
  have hfree : t.dependents.contains s.id = false := by
    by_contra hcontains
    obtain ⟨o, e, he, htarget⟩ := hc.contains_dependents.1 (by simpa using hcontains)
    obtain ⟨g, hg⟩ := contains_iff.1 (htargets he)
    obtain ⟨hknown, hof⟩ := (h.indexed _ _).1 hg
    obtain rfl := h.eq_of_id hfqn hknown (by rw [hof, htarget, hs])
    rw [contains_eq_false_iff.2 hnone] at hknown
    cases hknown
  rw [isOrphan_of_same ht.edges, isOrphan, hext, hfree]
  rfl

theorem Taught.pruneExternals (ht : Taught t t') (h : Sound names t) (h' : Sound names t')
    (hc : Counted t) (hp : Pruned t)
    (htargets : ∀ {o e}, e ∈ t.edgesOf o → t.ids.contains e.target = true) :
    SameContents t t'.pruneExternals.2 ∧ ∀ id, t'.pruneExternals.1.contains id = true →
      ∃ fqn, t.symbols.get? fqn = none ∧ t'.symbols.contains fqn = true ∧ id = .ofFqn fqn := by
  obtain ⟨hedges, hfiles, -, -, hget, hpruned⟩ :=
    pruneExternals_spec fun hs => (h'.toOrderly.symbol hs).1
  have hnew : ∀ {fqn s}, t'.symbols.get? fqn = some s → t.symbols.get? fqn = none →
      t'.isOrphan s = true := fun hs hnone => by
    rcases ht.new hs with hold | ⟨-, hext, -⟩
    · rw [hnone] at hold
      cases hold
    · exact ht.isOrphan_new h hc htargets (h'.known (contains_of_get? hs)) (h'.symbol hs).2
        hnone hext
  have hold : ∀ {fqn s}, t.symbols.get? fqn = some s → t'.isOrphan s = false := fun hs => by
    rw [isOrphan_of_same ht.edges]
    exact hp hs
  have hsymbols : t'.pruneExternals.2.symbols = t.symbols := by
    ext fqn : 1
    rw [hget]
    cases hs : t.symbols.get? fqn with
    | some s => rw [ht.kept hs, Option.filter_some, hold hs, Bool.not_false, if_pos rfl]
    | none =>
      cases hs' : t'.symbols.get? fqn with
      | none => rfl
      | some s => rw [Option.filter_some, hnew hs' hs, Bool.not_true, if_neg Bool.false_ne_true]
  have hindexed := (h'.toOrderly.pruneExternals.sound h.distinct).indexed
  refine ⟨⟨hsymbols, h.indexed.ids_eq hindexed hsymbols, hfiles.trans ht.files,
    ht.edges.trans hedges⟩, fun id hid => ?_⟩
  obtain ⟨fqn, s, hs, horphan, rfl⟩ := (hpruned id).1 hid
  refine ⟨fqn, ?_, contains_of_get? hs, (h'.symbol hs).2⟩
  cases hg : t.symbols.get? fqn with
  | none => rfl
  | some x =>
    have hx := hold hg
    rw [ht.kept hg] at hs
    cases hs
    rw [horphan] at hx
    cases hx

end CodeAtlas.Table
