import Mathlib
import CodeAtlas.Table.Symbols
import CodeAtlas.Proofs.SortedMap

/-!
# The edge half of a table

A table has two halves that its operations change independently: the symbols with their indexes,
and the edges with the count of edges per target and owner. This module is about the second half.

Main results:

* `Counted`: the count of a target and an owner is the number of edges of the owner to the target,
  and no zero is kept. Every operation on edges keeps it.
* `mem_dependentFiles`, `contains_dependents`: under `Counted`, the index answers exactly the owners
  of edges to a symbol.
* `Rewires`: what an operation on the edges of one owner does. `clearEdges_rewires`,
  `dropEdgesTo_rewires`, `replaceEdges_rewires`, `appendEdges_rewires`: with which edges.
-/

namespace CodeAtlas

open SortedMap

theorem IdSet.contains_union (a b : IdSet) (id : SymbolId) :
    (a.union b).contains id = true ↔ a.contains id = true ∨ b.contains id = true := by
  rw [IdSet.union, contains_insertAll, ← mem_keys (m := b)]
  rfl

theorem IdSet.contains_ofList (l : List SymbolId) (id : SymbolId) :
    (IdSet.ofList l).contains id = true ↔ id ∈ l := by
  rw [IdSet.ofList, SortedMap.contains_ofList, List.map_map]
  simp

namespace Table

variable {t : Table} {owner : String} {edges : List Edge}

/-! ## The two halves -/

/-- Tables with the same symbols and the same indexes of symbols. -/
structure SameSymbols (t t' : Table) : Prop where
  symbols : t'.symbols = t.symbols
  ids : t'.ids = t.ids
  names : t'.names = t.names
  files : t'.files = t.files
  shadowed : t'.shadowed = t.shadowed
  modules : t'.modules = t.modules

/-- Tables with the same edges and the same counts of edges. -/
structure SameEdges (t t' : Table) : Prop where
  edges : t'.edges = t.edges
  dependents : t'.dependents = t.dependents

namespace SameSymbols

variable {t t' t'' : Table}

@[refl] theorem refl (t : Table) : SameSymbols t t := ⟨rfl, rfl, rfl, rfl, rfl, rfl⟩

theorem trans (h : SameSymbols t t') (h' : SameSymbols t' t'') : SameSymbols t t'' :=
  ⟨h'.symbols.trans h.symbols, h'.ids.trans h.ids, h'.names.trans h.names,
    h'.files.trans h.files, h'.shadowed.trans h.shadowed, h'.modules.trans h.modules⟩

theorem symm (h : SameSymbols t t') : SameSymbols t' t :=
  ⟨h.symbols.symm, h.ids.symm, h.names.symm, h.files.symm, h.shadowed.symm, h.modules.symm⟩

theorem findId? (h : SameSymbols t t') (id : SymbolId) :
    SymbolLookup.findId? t' id = SymbolLookup.findId? t id := by
  simp only [SymbolLookup.findId?, h.ids, h.symbols]

theorem symbolsInFile (h : SameSymbols t t') (file : String) :
    t'.symbolsInFile file = t.symbolsInFile file := by
  simp only [Table.symbolsInFile, symbolsNamed, h.files, h.symbols]

end SameSymbols

theorem mem_allEdges {e : Edge} : e ∈ t.allEdges ↔ ∃ owner, e ∈ t.edgesOf owner := by
  simp only [allEdges, List.mem_flatten, mem_values]
  constructor
  · rintro ⟨l, ⟨owner, ho⟩, he⟩
    exact ⟨owner, by rwa [edgesOf, getD_of_get? ho]⟩
  · rintro ⟨owner, he⟩
    cases ho : t.edges.get? owner with
    | none =>
      rw [edgesOf, getD_of_none ho] at he
      cases he
    | some l =>
      rw [edgesOf, getD_of_get? ho] at he
      exact ⟨l, ⟨owner, ho⟩, he⟩

namespace SameEdges

variable {t t' t'' : Table}

@[refl] theorem refl (t : Table) : SameEdges t t := ⟨rfl, rfl⟩

theorem trans (h : SameEdges t t') (h' : SameEdges t' t'') : SameEdges t t'' :=
  ⟨h'.edges.trans h.edges, h'.dependents.trans h.dependents⟩

theorem symm (h : SameEdges t t') : SameEdges t' t := ⟨h.edges.symm, h.dependents.symm⟩

theorem edgesOf (h : SameEdges t t') (owner : String) : t'.edgesOf owner = t.edgesOf owner := by
  simp only [Table.edgesOf, h.edges]

end SameEdges

/-- Tables that differ in their reports only. -/
structure SameGraph (t t' : Table) : Prop where
  symbols : SameSymbols t t'
  edges : SameEdges t t'

namespace SameGraph

variable {t t' t'' : Table}

@[refl] theorem refl (t : Table) : SameGraph t t := ⟨.refl t, .refl t⟩

/-- Besides the graph a table has its reports only. -/
theorem eq (h : SameGraph t t') (hdiag : t'.diagnostics = t.diagnostics) : t' = t := by
  obtain ⟨hs, he⟩ := h
  cases t
  cases t'
  simp only [Table.mk.injEq]
  exact ⟨hs.symbols, hs.ids, hs.names, hs.files, hs.shadowed, hs.modules, he.edges, he.dependents,
    hdiag⟩

theorem trans (h : SameGraph t t') (h' : SameGraph t' t'') : SameGraph t t'' :=
  ⟨h.symbols.trans h'.symbols, h.edges.trans h'.edges⟩

theorem symm (h : SameGraph t t') : SameGraph t' t := ⟨h.symbols.symm, h.edges.symm⟩

theorem setDiagnostics (t : Table) (diagnostics : List Diagnostic) :
    SameGraph t { t with diagnostics } :=
  ⟨⟨rfl, rfl, rfl, rfl, rfl, rfl⟩, ⟨rfl, rfl⟩⟩

theorem record (t : Table) (d : Diagnostic) : SameGraph t (t.record d) := .setDiagnostics t _

end SameGraph

/-! ## The count of dependents -/

/-- How many edges of `owner` to a symbol the table counts. -/
def dependentCount (t : Table) (id : SymbolId) (owner : String) : Nat :=
  (t.dependents.getD id ∅).getD owner 0

/-- The targets of the edges of an owner, with repeats. -/
def targetsOf (t : Table) (owner : String) : List SymbolId := (t.edgesOf owner).map (·.target)

/-- No count is zero, and neither a symbol without an edge to it nor an owner without an edge is
listed. -/
structure Tight (t : Table) : Prop where
  pos : ∀ {id m owner n}, t.dependents.get? id = some m → m.get? owner = some n → 0 < n
  nonempty : ∀ {id m}, t.dependents.get? id = some m → m.isEmpty = false
  filled : ∀ {owner l}, t.edges.get? owner = some l → l ≠ []

/-- The counts are the numbers of edges. -/
structure Counted (t : Table) : Prop extends Tight t where
  exact : ∀ id owner, t.dependentCount id owner = (t.targetsOf owner).count id

theorem addDependent_sameSymbols (owner : String) (t : Table) (target : SymbolId) :
    SameSymbols t (addDependent owner t target) :=
  ⟨rfl, rfl, rfl, rfl, rfl, rfl⟩

theorem releaseDependent_sameSymbols (owner : String) (t : Table) (target : SymbolId) :
    SameSymbols t (releaseDependent owner t target) :=
  ⟨rfl, rfl, rfl, rfl, rfl, rfl⟩

@[simp] theorem edgesOf_addDependent (owner o : String) (t : Table) (target : SymbolId) :
    (addDependent owner t target).edgesOf o = t.edgesOf o := rfl

theorem dependentCount_addDependent (owner o : String) (t : Table) (target id : SymbolId) :
    (addDependent owner t target).dependentCount id o =
      t.dependentCount id o + if id = target ∧ o = owner then 1 else 0 := by
  unfold dependentCount addDependent
  simp only [getD_insert]
  by_cases hi : id = target
  · subst hi
    rw [if_pos rfl, getD_insert]
    by_cases ho : o = owner <;> simp [ho]
  · simp [hi]

theorem tight_addDependent {target : SymbolId} (h : Tight t) :
    Tight (addDependent owner t target) := by
  refine ⟨?_, ?_, h.filled⟩
  · intro id m o n hm hn
    simp only [addDependent, get?_insert_eq] at hm
    split at hm
    · cases hm
      rw [get?_insert_eq] at hn
      split at hn
      · cases hn; omega
      · cases hd : t.dependents.get? target with
        | none => simp [SortedMap.getD, hd] at hn
        | some m =>
          rw [getD_of_get? hd] at hn
          exact h.pos hd hn
    · exact h.pos hm hn
  · intro id m hm
    simp only [addDependent, get?_insert_eq] at hm
    split at hm
    · cases hm
      by_contra hne
      have hall := isEmpty_iff.1 (by simpa using hne) owner
      simp at hall
    · exact h.nonempty hm

/-- The counts of a target after one edge of `owner` to it is gone. -/
def releasedOwners (owner : String) (owners : SortedMap String Nat) : SortedMap String Nat :=
  owners.alter owner fun
    | some (n + 2) => some (n + 1)
    | _ => none

theorem get?_releasedOwners (owner o : String) (owners : SortedMap String Nat) :
    (releasedOwners owner owners).get? o =
      if o = owner then
        if owners.getD owner 0 - 1 = 0 then none else some (owners.getD owner 0 - 1)
      else owners.get? o := by
  unfold releasedOwners SortedMap.getD
  rw [get?_alter]
  split
  · rcases owners.get? owner with _ | _ | _ | n <;> simp
  · rfl

theorem get?_dependents_release (owner : String) (t : Table) (target id : SymbolId) :
    (releaseDependent owner t target).dependents.get? id =
      if id = target then
        if (releasedOwners owner (t.dependents.getD target ∅)).isEmpty then none
        else some (releasedOwners owner (t.dependents.getD target ∅))
      else t.dependents.get? id := by
  change (if (releasedOwners owner (t.dependents.getD target ∅)).isEmpty then
      t.dependents.erase target
    else t.dependents.insert target (releasedOwners owner (t.dependents.getD target ∅))).get? id = _
  by_cases he : (releasedOwners owner (t.dependents.getD target ∅)).isEmpty = true
  · rw [if_pos he, if_pos he, get?_erase_eq]
  · rw [if_neg he, if_neg he, get?_insert_eq]

theorem dependentCount_releaseDependent (owner o : String) (t : Table) (target id : SymbolId) :
    (releaseDependent owner t target).dependentCount id o =
      t.dependentCount id o - if id = target ∧ o = owner then 1 else 0 := by
  by_cases hi : id = target
  · subst hi
    have hcount : (releaseDependent owner t id).dependentCount id o =
        (releasedOwners owner (t.dependents.getD id ∅)).getD o 0 := by
      have hget := get?_dependents_release owner t id id
      rw [if_pos rfl] at hget
      by_cases he : (releasedOwners owner (t.dependents.getD id ∅)).isEmpty = true
      · rw [if_pos he] at hget
        rw [dependentCount, getD_of_none (k := id) hget, getD_of_none (isEmpty_iff.1 he o)]
        rfl
      · rw [if_neg he] at hget
        rw [dependentCount, getD_of_get? (k := id) hget]
    rw [hcount, SortedMap.getD, get?_releasedOwners]
    by_cases ho : o = owner
    · subst ho
      simp only [if_true, and_self, dependentCount]
      split <;> simp_all
    · simp [ho, dependentCount, SortedMap.getD]
  · unfold dependentCount SortedMap.getD
    rw [get?_dependents_release, if_neg hi]
    simp [hi]

theorem tight_releaseDependent {target : SymbolId} (h : Tight t) :
    Tight (releaseDependent owner t target) := by
  refine ⟨?_, ?_, h.filled⟩
  · intro id m o n hm hn
    rw [get?_dependents_release] at hm
    split at hm
    · split at hm
      · cases hm
      · cases hm
        rw [get?_releasedOwners] at hn
        split at hn
        · split at hn
          · cases hn
          · cases hn; omega
        · cases hd : t.dependents.get? target with
          | none => simp [SortedMap.getD, hd] at hn
          | some m =>
            rw [getD_of_get? hd] at hn
            exact h.pos hd hn
    · exact h.pos hm hn
  · intro id m hm
    rw [get?_dependents_release] at hm
    split at hm
    · split at hm
      · cases hm
      · next he => cases hm; simpa using he
    · exact h.nonempty hm

/-! ## Many targets at once -/

/-- Targets that are counted one after the other, each by a step that changes one count. -/
theorem foldl_dependent {step : Table → SymbolId → Table}
    (change : Nat → Nat → Nat) (hzero : ∀ n, change n 0 = n)
    (hchange : ∀ n a b, change (change n a) b = change n (a + b))
    (hs : ∀ t x, SameSymbols t (step t x)) (he : ∀ t x o, (step t x).edgesOf o = t.edgesOf o)
    (hc : ∀ t x id o, (step t x).dependentCount id o =
      change (t.dependentCount id o) (if id = x ∧ o = owner then 1 else 0))
    (ht : ∀ t x, Tight t → Tight (step t x)) (l : List SymbolId) (t : Table) :
    SameSymbols t (l.foldl step t) ∧ (∀ o, (l.foldl step t).edgesOf o = t.edgesOf o) ∧
      (∀ id o, (l.foldl step t).dependentCount id o =
        change (t.dependentCount id o) (if o = owner then l.count id else 0)) ∧
      (Tight t → Tight (l.foldl step t)) := by
  induction l generalizing t with
  | nil => exact ⟨.refl t, fun _ => rfl, by simp [hzero], id⟩
  | cons x rest ih =>
    obtain ⟨hs', he', hc', ht'⟩ := ih (step t x)
    refine ⟨(hs t x).trans hs', fun o => (he' o).trans (he t x o), fun id o => ?_,
      fun h => ht' (ht t x h)⟩
    rw [List.foldl_cons, hc', hc, hchange, List.count_cons]
    congr 1
    by_cases ho : o = owner
    · by_cases hx : id = x
      · simp [ho, hx, Nat.add_comm]
      · simp [ho, hx, Ne.symm hx]
    · simp [ho]

/-! ## Operations on the edges of one owner -/

/-- The edges of `owner` become `edges`, and nothing else changes. -/
structure Rewires (owner : String) (edges : List Edge) (t t' : Table) : Prop where
  same : SameSymbols t t'
  edgesOf : ∀ o, t'.edgesOf o = if o = owner then edges else t.edgesOf o
  counted : Counted t → Counted t'

theorem setEdges_sameSymbols (t : Table) (owner : String) (edges : List Edge) :
    SameSymbols t (t.setEdges owner edges) := ⟨rfl, rfl, rfl, rfl, rfl, rfl⟩

theorem edgesOf_setEdges (t : Table) (owner o : String) (edges : List Edge) :
    (t.setEdges owner edges).edgesOf o = if o = owner then edges else t.edgesOf o := by
  unfold edgesOf setEdges
  cases edges with
  | nil => simp [getD_erase]
  | cons e rest => simp [getD_insert]

theorem get?_setEdges (t : Table) (owner o : String) (edges : List Edge) :
    (t.setEdges owner edges).edges.get? o =
      if o = owner then if edges = [] then none else some edges else t.edges.get? o := by
  unfold setEdges
  cases edges with
  | nil => simp only [List.isEmpty_nil, if_true, get?_erase_eq]
  | cons e rest =>
    simp only [List.isEmpty_cons, Bool.false_eq_true, if_false, get?_insert_eq, reduceCtorEq]

theorem dependentCount_setEdges (t : Table) (owner : String) (edges : List Edge) (id : SymbolId)
    (o : String) : (t.setEdges owner edges).dependentCount id o = t.dependentCount id o := rfl

theorem tight_setEdges (owner : String) (edges : List Edge) (h : Tight t) :
    Tight (t.setEdges owner edges) := by
  refine ⟨h.pos, h.nonempty, fun {o l} hl => ?_⟩
  rw [get?_setEdges] at hl
  split at hl
  · split at hl
    · cases hl
    · next hne =>
      cases hl
      exact hne
  · exact h.filled hl

/-- Every operation sets the edges of an owner and then counts some targets more and some less. -/
theorem rewires_of_balance (t : Table) (owner : String) (edges : List Edge)
    (added released : List SymbolId)
    (h : ∀ id, (edges.map (·.target)).count id + released.count id =
      (t.targetsOf owner).count id + added.count id) :
    Rewires owner edges t (released.foldl (releaseDependent owner)
      (added.foldl (addDependent owner) (t.setEdges owner edges))) := by
  obtain ⟨hs, he, hc, ht⟩ := foldl_dependent (· + ·) Nat.add_zero Nat.add_assoc
    (addDependent_sameSymbols owner) (fun _ _ _ => rfl)
    (fun t x id o => dependentCount_addDependent owner o t x id) (fun _ _ => tight_addDependent)
    added (t.setEdges owner edges)
  obtain ⟨hs', he', hc', ht'⟩ := foldl_dependent (· - ·) Nat.sub_zero
    (fun n a b => Nat.sub_sub n a b) (releaseDependent_sameSymbols owner) (fun _ _ _ => rfl)
    (fun t x id o => dependentCount_releaseDependent owner o t x id)
    (fun _ _ => tight_releaseDependent) released
    (added.foldl (addDependent owner) (t.setEdges owner edges))
  have hedges : ∀ o, (released.foldl (releaseDependent owner)
      (added.foldl (addDependent owner) (t.setEdges owner edges))).edgesOf o =
        if o = owner then edges else t.edgesOf o := by
    intro o
    rw [he', he, edgesOf_setEdges]
  refine ⟨((setEdges_sameSymbols t owner edges).trans hs).trans hs', hedges, fun hcnt => ?_⟩
  refine { ht' (ht (tight_setEdges owner edges hcnt.toTight)) with exact := fun id o => ?_ }
  rw [targetsOf, hedges, hc', hc, dependentCount_setEdges, hcnt.exact]
  split
  · next ho =>
    have := h id
    rw [ho]
    omega
  · rfl

theorem clearEdges_rewires (t : Table) (owner : String) : Rewires owner [] t (t.clearEdges owner) :=
  rewires_of_balance t owner [] [] (t.targetsOf owner) (by simp)

theorem dropEdgesTo_rewires (targets : IdSet) (t : Table) (owner : String) :
    Rewires owner ((t.edgesOf owner).filter fun e => !targets.contains e.target) t
      (dropEdgesTo targets t owner) := by
  set kept := (t.edgesOf owner).filter fun e => !targets.contains e.target with hkept
  set dropped := (t.edgesOf owner).filter fun e => targets.contains e.target with hdropped
  have hdrop : dropEdgesTo targets t owner =
      (dropped.map (·.target)).foldl (releaseDependent owner) (t.setEdges owner kept) := by
    simp only [dropEdgesTo, List.partition_eq_filter_filter, hkept, hdropped]
    rfl
  rw [hdrop]
  refine rewires_of_balance t owner kept [] (dropped.map (·.target)) fun id => ?_
  -- the dropped and the kept edges are all edges of the owner
  have hperm : (dropped ++ kept).Perm (t.edgesOf owner) := List.filter_append_perm _ _
  have hcount := (hperm.map (·.target)).count_eq id
  rw [List.map_append, List.count_append] at hcount
  rw [targetsOf, List.count_nil]
  omega

/-! ## Accepted edges -/

theorem mem_of_mem_dropRepeats {e : Edge} {l : List Edge} (h : e ∈ dropRepeats l) : e ∈ l := by
  induction l with
  | nil => exact h
  | cons x rest ih =>
    have hx : e = x ∨ e ∈ dropRepeats rest := by
      rw [dropRepeats] at h
      split at h
      · exact .inl (List.mem_singleton.1 h)
      · next y ys hd =>
        rw [hd]
        split at h
        · exact (List.mem_cons.1 h).imp_right (List.mem_cons_of_mem _)
        · exact List.mem_cons.1 h
    rcases hx with rfl | hx
    · exact List.mem_cons_self ..
    · exact List.mem_cons_of_mem _ (ih hx)

theorem mem_sort {e : Edge} {l : List Edge} : e ∈ Edge.sort l ↔ e ∈ l :=
  (List.mergeSort_perm l Edge.atMost).mem_iff

/-- What makes a list of edges acceptable for an owner. -/
def Admissible (t : Table) (owner : String) (edges : List Edge) : Prop :=
  ∀ e ∈ edges, e.owner = owner ∧ t.ids.contains e.target = true

theorem edgeRefusal?_eq_none {e : Edge} :
    t.edgeRefusal? owner e = none ↔ e.owner = owner ∧ t.ids.contains e.target = true := by
  unfold edgeRefusal?
  by_cases ho : e.owner = owner
  · by_cases hi : t.ids.contains e.target = true <;> simp [ho, hi]
  · simp [ho]

theorem admitEdges_eq_ok {edges admitted : List Edge} : t.admitEdges owner edges = .ok admitted ↔
      t.Admissible owner edges ∧ admitted = dropRepeats (Edge.sort edges) := by
  unfold admitEdges
  cases hf : edges.findSome? (t.edgeRefusal? owner) with
  | none =>
    have : t.Admissible owner edges := fun e he =>
      edgeRefusal?_eq_none.1 (List.findSome?_eq_none_iff.1 hf e he)
    simp [this, eq_comm]
  | some err =>
    obtain ⟨e, he, herr⟩ := List.exists_of_findSome?_eq_some hf
    simp only [reduceCtorEq, false_iff, not_and]
    intro hadm
    rw [edgeRefusal?_eq_none.2 (hadm e he)] at herr
    cases herr

theorem replaceEdges_rewires {t t' : Table} (h : t.replaceEdges owner edges = .ok t') :
    t.Admissible owner edges ∧ Rewires owner (dropRepeats (Edge.sort edges)) t t' := by
  unfold replaceEdges at h
  cases hadm : t.admitEdges owner edges with
  | error e => rw [hadm] at h; cases h
  | ok admitted =>
    obtain ⟨hok, rfl⟩ := admitEdges_eq_ok.1 hadm
    rw [hadm] at h
    obtain rfl := Except.ok.inj h
    exact ⟨hok, rewires_of_balance t owner _ _ _ fun id => Nat.add_comm _ _⟩

theorem edges_foldl {α : Type} (f : Table → α → Table) (hf : ∀ t a, (f t a).edges = t.edges)
    (l : List α) (t : Table) : (l.foldl f t).edges = t.edges := by
  induction l generalizing t with
  | nil => rfl
  | cons a rest ih => exact (ih (f t a)).trans (hf t a)

/-- Admissible edges are accepted; an owner without edges has no entry then. -/
theorem replaceEdges_of_admissible (h : t.Admissible owner edges) :
    ∃ t', t.replaceEdges owner edges = .ok t' ∧
      t'.edges = (t.setEdges owner (dropRepeats (Edge.sort edges))).edges := by
  unfold replaceEdges
  rw [admitEdges_eq_ok.2 ⟨h, rfl⟩]
  refine ⟨_, rfl, ?_⟩
  rw [edges_foldl (releaseDependent owner) fun _ _ => rfl,
    edges_foldl (addDependent owner) fun _ _ => rfl]

theorem appendEdge_rewires (t : Table) (owner : String) (e : Edge) :
    ∃ edges, Rewires owner edges t (appendEdge owner t e) ∧
      ∀ x ∈ edges, x ∈ t.edgesOf owner ∨ x = e := by
  unfold appendEdge
  by_cases ha : (t.edgesOf owner).any (· == e) = true
  · refine ⟨t.edgesOf owner, ?_, fun x hx => .inl hx⟩
    rw [if_pos ha]
    refine ⟨.refl t, fun o => ?_, id⟩
    split
    · next ho => rw [ho]
    · rfl
  · refine ⟨t.edgesOf owner ++ [e], ?_, fun x hx => by simpa using hx⟩
    rw [if_neg ha]
    refine rewires_of_balance t owner (t.edgesOf owner ++ [e]) [e.target] [] fun id => ?_
    rw [List.map_append, List.count_append]
    rfl

theorem Rewires.trans {edges edges' : List Edge} {t t' t'' : Table} (h : Rewires owner edges t t')
    (h' : Rewires owner edges' t' t'') : Rewires owner edges' t t'' := by
  refine ⟨h.same.trans h'.same, fun o => ?_, fun hc => h'.counted (h.counted hc)⟩
  rw [h'.edgesOf]
  split
  · rfl
  · next ho => rw [h.edgesOf, if_neg ho]

theorem Rewires.refl (t : Table) (owner : String) : Rewires owner (t.edgesOf owner) t t := by
  refine ⟨.refl t, fun o => ?_, id⟩
  split
  · next ho => rw [ho]
  · rfl

theorem foldl_appendEdge_rewires (owner : String) (l : List Edge) (t : Table) :
    ∃ edges, Rewires owner edges t (l.foldl (appendEdge owner) t) ∧
      ∀ x ∈ edges, x ∈ t.edgesOf owner ∨ x ∈ l := by
  induction l generalizing t with
  | nil => exact ⟨_, .refl t owner, fun x hx => .inl hx⟩
  | cons e rest ih =>
    obtain ⟨edges, hr, hm⟩ := appendEdge_rewires t owner e
    obtain ⟨edges', hr', hm'⟩ := ih (appendEdge owner t e)
    refine ⟨edges', hr.trans hr', fun x hx => ?_⟩
    rcases hm' x hx with h | h
    · rw [hr.edgesOf, if_pos rfl] at h
      rcases hm x h with h | rfl
      · exact .inl h
      · exact .inr (List.mem_cons_self ..)
    · exact .inr (List.mem_cons_of_mem _ h)

theorem appendEdges_rewires {t t' : Table} (h : t.appendEdges owner edges = .ok t') :
    t.Admissible owner edges ∧ ∃ edges', Rewires owner edges' t t' ∧
      ∀ x ∈ edges', x ∈ t.edgesOf owner ∨ x ∈ edges := by
  unfold appendEdges at h
  cases hadm : t.admitEdges owner edges with
  | error e => rw [hadm] at h; cases h
  | ok admitted =>
    obtain ⟨hok, rfl⟩ := admitEdges_eq_ok.1 hadm
    rw [hadm] at h
    refine ⟨hok, ?_⟩
    change (if (dropRepeats (Edge.sort edges)).isEmpty = true then _ else _) = _ at h
    split at h
    · obtain rfl := Except.ok.inj h
      exact ⟨_, .refl t owner, fun x hx => .inl hx⟩
    · obtain rfl := Except.ok.inj h
      obtain ⟨new, hr, hm⟩ := foldl_appendEdge_rewires owner (dropRepeats (Edge.sort edges)) t
      set t₁ := (dropRepeats (Edge.sort edges)).foldl (appendEdge owner) t
      have hsort : Rewires owner (Edge.sort (t₁.edgesOf owner)) t₁
          (t₁.setEdges owner (Edge.sort (t₁.edgesOf owner))) := by
        refine rewires_of_balance t₁ owner _ [] [] fun id => ?_
        exact congrArg (· + 0) (((List.mergeSort_perm _ _).map Edge.target).count_eq id)
      refine ⟨_, hr.trans hsort, fun x hx => ?_⟩
      rw [mem_sort, hr.edgesOf, if_pos rfl] at hx
      exact (hm x hx).imp_right fun h => mem_sort.1 (mem_of_mem_dropRepeats h)

/-! ## What the counts answer -/

theorem Counted.mem_dependentFiles (h : Counted t) {id : SymbolId} :
    owner ∈ t.dependentFiles id ↔ ∃ e ∈ t.edgesOf owner, e.target = id := by
  have hpos : owner ∈ t.dependentFiles id ↔ 0 < t.dependentCount id owner := by
    unfold dependentFiles dependentCount
    rw [mem_keys]
    constructor
    · intro hc
      obtain ⟨n, hn⟩ := contains_iff.1 hc
      rw [getD_of_get? hn]
      cases hd : t.dependents.get? id with
      | none => simp [SortedMap.getD, hd] at hn
      | some m => exact h.pos hd (by rwa [getD_of_get? hd] at hn)
    · intro hn
      by_contra hc
      rw [getD_of_none (contains_eq_false_iff.1 (by simpa using hc))] at hn
      exact absurd hn (by omega)
  rw [hpos, h.exact, List.count_pos_iff, targetsOf, List.mem_map]

theorem Counted.contains_dependents (h : Counted t) {id : SymbolId} :
    t.dependents.contains id = true ↔ ∃ owner, ∃ e ∈ t.edgesOf owner, e.target = id := by
  constructor
  · intro hc
    obtain ⟨m, hm⟩ := contains_iff.1 hc
    have hne := h.nonempty hm
    rw [← Bool.not_eq_true, SortedMap.isEmpty_iff] at hne
    obtain ⟨owner, ho⟩ := not_forall.1 hne
    refine ⟨owner, h.mem_dependentFiles.1 ?_⟩
    rw [dependentFiles, getD_of_get? hm, mem_keys, contains_iff]
    exact Option.ne_none_iff_exists'.1 ho
  · rintro ⟨owner, he⟩
    have := h.mem_dependentFiles.2 he
    rw [dependentFiles, mem_keys] at this
    by_contra hc
    rw [getD_of_none (contains_eq_false_iff.1 (by simpa using hc))] at this
    simp at this

/-- An owner without an edge has no entry. -/
theorem Tight.get?_edges_eq_none (h : Tight t) (hnil : t.edgesOf owner = []) :
    t.edges.get? owner = none := by
  cases hl : t.edges.get? owner with
  | none => rfl
  | some l =>
    rw [edgesOf, getD_of_get? hl] at hnil
    exact absurd hnil (h.filled hl)

/-- The counts are about the edge half. -/
theorem Counted.of_same {t t' : Table} (h : Counted t) (hs : SameEdges t t') : Counted t' where
  pos hm := h.pos (hs.dependents ▸ hm)
  nonempty hm := h.nonempty (hs.dependents ▸ hm)
  filled hl := h.filled (hs.edges ▸ hl)
  exact id owner := by
    rw [dependentCount, hs.dependents, targetsOf, hs.edgesOf]
    exact h.exact id owner

theorem counted_empty : Counted Table.empty where
  pos h := by cases h
  nonempty h := by cases h
  filled h := by cases h
  exact _ _ := rfl

end Table

end CodeAtlas
