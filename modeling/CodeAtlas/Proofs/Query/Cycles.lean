import Mathlib
import CodeAtlas.Proofs.Query.Components
import CodeAtlas.Proofs.Sorting

/-!
# Cycles of the type hierarchy are its cyclic components

What the search reports is stated without the search: the classes of types that reach each other, as
far as such a class has two members or an edge from a type to itself.

Main results:

* `Table.cycles_components`: the cycles that the search lists are those classes.
* `Table.inheritanceCycles_components`: the answer has one sorted entry for every cyclic strongly
  connected component, and no other.
-/

namespace CodeAtlas

open SortedMap Relation

namespace Table

/-- A stored edge of the type hierarchy leads from `a` to `b`. -/
def Inherits (t : Table) (a b : SymbolId) : Prop :=
  ∃ e ∈ t.allEdges, (e.type = .extendsType ∨ e.type = .implements ∨ e.type = .usesMixin) ∧
    e.source = a ∧ e.target = b

/-- A strongly connected component of the type hierarchy that has a cycle: all types that are
mutually reachable with one of them, and either two types or an edge from a type to itself. -/
structure IsCyclicComponent (t : Table) (C : Finset SymbolId) : Prop where
  isClass : ∃ a, ∀ b, b ∈ C ↔ ReflTransGen t.Inherits a b ∧ ReflTransGen t.Inherits b a
  hasCycle : 2 ≤ C.card ∨ ∃ a ∈ C, t.Inherits a a

/-- An entry lists a component: the labels of all its members, in order. -/
structure ListsComponent (t : Table) (entry : List String) (C : Finset SymbolId) : Prop where
  sorted : entry.Pairwise fun a b => compare a b ≠ .gt
  labels : entry.Perm (C.toList.map t.label)

variable {t : Table} {a b : SymbolId} {C D : Finset SymbolId}

theorem leads_foldl_addEdge (l : List Edge) (g : Hierarchy) :
    (l.foldl (fun g e => g.addEdge e.source e.target) g).Leads a b ↔
      g.Leads a b ∨ ∃ e ∈ l, e.source = a ∧ e.target = b := by
  induction l generalizing g with
  | nil => simp
  | cons e l ih =>
    have hone : (g.addEdge e.source e.target).Leads a b ↔
        g.Leads a b ∨ e.source = a ∧ e.target = b := by
      unfold Hierarchy.Leads Hierarchy.targets Hierarchy.addEdge
      rw [getD_insert]
      split
      · next h =>
        subst h
        rw [mem_keys, mem_keys, contains_insert, Bool.or_eq_true, decide_eq_true_eq]
        tauto
      · next h => simp [Ne.symm h]
    rw [List.foldl_cons, ih, hone]
    simp [or_assoc]

theorem leads_hierarchy (t : Table) : t.hierarchy.Leads = t.Inherits := by
  funext a b
  have hempty : ¬Hierarchy.Leads ∅ a b := fun h => nomatch h
  rw [hierarchy, eq_iff_iff, leads_foldl_addEdge]
  simp only [hempty, false_or, List.mem_filter, Inherits, and_assoc]
  refine exists_congr fun e => and_congr_right fun _ => and_congr_left fun _ => ?_
  cases e.type <;> simp [EdgeType.isHierarchy]

/-! ## Cyclic classes -/

/-- A class has a cycle exactly if its members reach themselves. -/
theorem hasCycle_iff (hC : ∀ b, b ∈ C ↔ ReflTransGen t.Inherits a b ∧ ReflTransGen t.Inherits b a) :
    (2 ≤ C.card ∨ ∃ b ∈ C, t.Inherits b b) ↔ TransGen t.Inherits a a := by
  have ha : a ∈ C := (hC a).2 ⟨.refl, .refl⟩
  constructor
  · rintro (hcard | ⟨x, hx, hxx⟩)
    · obtain ⟨b, hb, hne⟩ := Finset.exists_mem_ne hcard a
      obtain ⟨hab, hba⟩ := (hC b).1 hb
      exact ((reflTransGen_iff_eq_or_transGen.1 hab).resolve_left hne).trans_left hba
    · obtain ⟨hax, hxa⟩ := (hC x).1 hx
      exact (TransGen.tail' hax hxx).trans_left hxa
  · intro hself
    -- the first step from `a` leads to `a` itself or to a second member
    obtain ⟨x, hax, hxa⟩ := TransGen.head'_iff.1 hself
    by_cases hx : x = a
    · exact .inr ⟨a, ha, hx ▸ hax⟩
    · exact .inl (Finset.one_lt_card.2 ⟨a, ha, x, (hC x).2 ⟨.single hax, hxa⟩, Ne.symm hx⟩)

/-- A class is the class of each of its members. -/
theorem IsCyclicComponent.class_of (h : t.IsCyclicComponent C) (ha : a ∈ C) :
    ∀ b, b ∈ C ↔ ReflTransGen t.Inherits a b ∧ ReflTransGen t.Inherits b a := by
  obtain ⟨x, hC⟩ := h.isClass
  obtain ⟨hxa, hax⟩ := (hC a).1 ha
  exact fun b => (hC b).trans ⟨fun hb => ⟨hax.trans hb.1, hb.2.trans hxa⟩,
    fun hb => ⟨hxa.trans hb.1, hb.2.trans hax⟩⟩

theorem IsCyclicComponent.eq_of_mem (h : t.IsCyclicComponent C) (h' : t.IsCyclicComponent D)
    (ha : a ∈ C) (ha' : a ∈ D) : C = D :=
  Finset.ext fun b => (h.class_of ha b).trans (h'.class_of ha' b).symm

/-! ## What the search lists -/

theorem isCyclic_iff {g : Hierarchy} {l : List SymbolId} (hl : l.Nodup) (hne : l ≠ []) :
    g.isCyclic l = true ↔ 2 ≤ l.toFinset.card ∨ ∃ b ∈ l.toFinset, g.Leads b b := by
  rw [List.toFinset_card_of_nodup hl]
  rcases l with _ | ⟨x, _ | ⟨y, rest⟩⟩
  · exact absurd rfl hne
  · simp [Hierarchy.isCyclic, Hierarchy.Leads, Hierarchy.targets, mem_keys]
  · simp [Hierarchy.isCyclic]

/-- The cycles that the search lists have no member in common, and are the cyclic components. -/
theorem cycles_components (t : Table) :
    (∀ l ∈ t.hierarchy.cycles, l.Nodup ∧ t.IsCyclicComponent l.toFinset) ∧
    t.hierarchy.cycles.Pairwise List.Disjoint ∧
    ∀ a, TransGen t.Inherits a a → ∃ l ∈ t.hierarchy.cycles, a ∈ l := by
  obtain ⟨hcomponents, hnodup, hkeys⟩ := Hierarchy.search_components t.hierarchy
  obtain ⟨heach, hdisjoint⟩ := List.nodup_flatten.1 hnodup
  have hclass : ∀ l ∈ t.hierarchy.search.components, ∃ a, ∀ b,
      b ∈ l.toFinset ↔ ReflTransGen t.Inherits a b ∧ ReflTransGen t.Inherits b a := by
    intro l hl
    obtain ⟨a, ha⟩ := hcomponents l hl
    refine ⟨a, fun b => ?_⟩
    rw [List.mem_toFinset, ha, Hierarchy.Leading, leads_hierarchy]
  have hcyclic : ∀ l ∈ t.hierarchy.search.components, t.hierarchy.isCyclic l = true ↔
      2 ≤ l.toFinset.card ∨ ∃ b ∈ l.toFinset, t.Inherits b b := by
    intro l hl
    obtain ⟨a, ha⟩ := hclass l hl
    have hmem : a ∈ l := List.mem_toFinset.1 ((ha a).2 ⟨.refl, .refl⟩)
    rw [isCyclic_iff (heach l hl) (List.ne_nil_of_mem hmem), leads_hierarchy]
  refine ⟨fun l hl => ?_, hdisjoint.filter _, fun a ha => ?_⟩
  · obtain ⟨hl, hcycle⟩ := List.mem_filter.1 hl
    exact ⟨heach l hl, hclass l hl, (hcyclic l hl).1 hcycle⟩
  · -- a type that reaches itself has a supertype
    obtain ⟨x, hax, -⟩ := TransGen.head'_iff.1 ha
    rw [← leads_hierarchy] at hax
    obtain ⟨l, hl, hal⟩ := List.mem_flatten.1 (hkeys a (Hierarchy.mem_keys_of_mem_targets hax))
    obtain ⟨c, hc⟩ := hclass l hl
    obtain ⟨hca, hac⟩ := (hc a).1 (List.mem_toFinset.2 hal)
    refine ⟨l, List.mem_filter.2 ⟨hl, (hcyclic l hl).2 ((hasCycle_iff hc).2 ?_)⟩, hal⟩
    exact (TransGen.trans_right hca ha).trans_left hac

theorem lists_labels {l : List SymbolId} (hl : l.Nodup) :
    t.ListsComponent ((l.map t.label).mergeSort fun a b => compare a b != .gt) l.toFinset where
  sorted := (mergeSort_key_sorted id _).imp keyAtMost_iff.1
  labels := (List.mergeSort_perm _ _).trans ((List.toFinset_toList hl).symm.map _)

/-- The answer lists exactly the cyclic strongly connected components of the type hierarchy, one
sorted entry for each and the entries sorted. No type is in two of them, and the types in them are
those that lie on a cycle. -/
theorem inheritanceCycles_components (t : Table) :
    (t.inheritanceCycles.Pairwise fun a b => namesAtMost a b = true) ∧
      ∃ components : List (Finset SymbolId),
        (∀ C, C ∈ components ↔ t.IsCyclicComponent C) ∧
        components.Pairwise Disjoint ∧
        (∀ a, (∃ C ∈ components, a ∈ C) ↔ TransGen t.Inherits a a) ∧
        List.Forall₂ t.ListsComponent t.inheritanceCycles components := by
  obtain ⟨hcycles, hdisjoint, hall⟩ := cycles_components t
  refine ⟨mergeSort_key_sorted id _, ?_⟩
  have hforall : List.Forall₂ t.ListsComponent
      (t.hierarchy.cycles.map fun c => (c.map t.label).mergeSort fun a b => compare a b != .gt)
      (t.hierarchy.cycles.map List.toFinset) := by
    rw [List.forall₂_map_left_iff, List.forall₂_map_right_iff, List.forall₂_same]
    exact fun l hl => lists_labels (hcycles l hl).1
  -- The entries are sorted; their components are taken in the order of the sorted entries.
  obtain ⟨components, hlists, hperm⟩ :=
    List.perm_comp_forall₂ (List.mergeSort_perm _ namesAtMost) hforall
  have hmem : ∀ {C}, C ∈ components → t.IsCyclicComponent C := fun hC => by
    obtain ⟨l, hl, rfl⟩ := List.mem_map.1 (hperm.mem_iff.1 hC)
    exact (hcycles l hl).2
  have hcycle : ∀ a, (∃ C ∈ components, a ∈ C) ↔ TransGen t.Inherits a a := by
    refine fun a => ⟨fun ⟨C, hC, ha⟩ => ?_, fun ha => ?_⟩
    · exact (hasCycle_iff ((hmem hC).class_of ha)).1 (hmem hC).hasCycle
    · obtain ⟨l, hl, hal⟩ := hall a ha
      exact ⟨l.toFinset, hperm.mem_iff.2 (List.mem_map_of_mem hl), List.mem_toFinset.2 hal⟩
  refine ⟨components, fun C => ⟨hmem, fun hC => ?_⟩, ?_, hcycle, hlists⟩
  · obtain ⟨a, ha⟩ := hC.isClass
    have haC : a ∈ C := (ha a).2 ⟨.refl, .refl⟩
    obtain ⟨D, hD, haD⟩ := (hcycle a).2 ((hasCycle_iff ha).1 hC.hasCycle)
    rwa [hC.eq_of_mem (hmem hD) haC haD]
  · refine hperm.symm.pairwise ?_ fun h => h.symm
    rw [List.pairwise_map]
    exact hdisjoint.imp fun h => List.disjoint_toFinset_iff_disjoint.2 h

end Table

end CodeAtlas
