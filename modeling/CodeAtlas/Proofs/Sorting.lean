import Mathlib
import CodeAtlas.Proofs.SortedMap

/-!
# Sorting by a key

Lists are sorted by a key with a stable sort: elements of one key stay in their order. So a sorted
list is determined by its elements of each key, and sorting puts the groups of equal keys one behind
the other.

Main results:

* `filter_mergeSort_key`: sorting keeps the elements of a key as they are.
* `mergeSort_key_eq_flatten`: the sorted list is the groups of a map, one after the other.
* `mergeSort_key_eq_of_perm`: a list with strictly increasing keys is what sorting makes of any
  rearrangement of it.
-/

namespace CodeAtlas

open SortedMap

variable {α κ : Type} [Ord κ]

/-- Whether `a` may stand before `b` in the order of a key. -/
def keyAtMost (key : α → κ) (a b : α) : Bool := compare (key a) (key b) != .gt

theorem keyAtMost_iff {key : α → κ} {a b : α} :
    keyAtMost key a b = true ↔ compare (key a) (key b) ≠ .gt := by
  simp [keyAtMost]

variable [Std.TransOrd κ] {key : α → κ} {l l' : List α}

theorem keyAtMost_trans (key : α → κ) (a b c : α) (hab : keyAtMost key a b = true)
    (hbc : keyAtMost key b c = true) : keyAtMost key a c = true := by
  simp only [keyAtMost_iff, ← Ordering.isLE_iff_ne_gt] at *
  exact Std.TransCmp.isLE_trans hab hbc

theorem keyAtMost_total (key : α → κ) (a b : α) :
    (keyAtMost key a b || keyAtMost key b a) = true := by
  have hswap : compare (key b) (key a) = (compare (key a) (key b)).swap := Std.OrientedCmp.eq_swap
  rw [keyAtMost, keyAtMost, hswap]
  cases compare (key a) (key b) <;> rfl

theorem keyAtMost_of_eq {a b : α} (h : key a = key b) : keyAtMost key a b = true := by
  have hself : compare (key b) (key b) = .eq := Std.ReflCmp.compare_self
  rw [keyAtMost, h, hself]
  rfl

theorem mergeSort_key_sorted (key : α → κ) (l : List α) :
    (l.mergeSort (keyAtMost key)).Pairwise fun a b => keyAtMost key a b = true :=
  List.pairwise_mergeSort (keyAtMost_trans key) (keyAtMost_total key) l

variable [Std.LawfulEqOrd κ]

theorem key_eq_of_keyAtMost {a b : α} (hab : keyAtMost key a b = true)
    (hba : keyAtMost key b a = true) : key a = key b := by
  have hswap : compare (key b) (key a) = (compare (key a) (key b)).swap := Std.OrientedCmp.eq_swap
  rw [keyAtMost_iff] at hab hba
  rw [hswap] at hba
  cases hc : compare (key a) (key b) with
  | eq => exact Std.LawfulEqCmp.eq_of_compare hc
  | lt => simp [hc] at hba
  | gt => exact absurd hc hab

variable [DecidableEq κ]

omit [Std.LawfulEqOrd κ] in
/-- Sorting keeps the elements of a key as they are. -/
theorem filter_mergeSort_key (key : α → κ) (l : List α) (k : κ) :
    (l.mergeSort (keyAtMost key)).filter (fun a => key a = k) = l.filter fun a => key a = k := by
  have hsorted : (l.filter fun a => key a = k).Pairwise fun a b => keyAtMost key a b = true := by
    refine List.pairwise_of_forall_mem_list fun a ha b hb => keyAtMost_of_eq ?_
    have hka : key a = k := by simpa using (List.mem_filter.1 ha).2
    have hkb : key b = k := by simpa using (List.mem_filter.1 hb).2
    rw [hka, hkb]
  have hsub := (List.sublist_mergeSort (keyAtMost_trans key) (keyAtMost_total key) hsorted
    List.filter_sublist).filter fun a => decide (key a = k)
  rw [List.filter_filter] at hsub
  simp only [Bool.and_self] at hsub
  exact (hsub.eq_of_length (((List.mergeSort_perm l _).symm.filter _).length_eq)).symm

/-- A sorted list is determined by its elements of each key. -/
theorem eq_of_filter_key_eq (hl : l.Pairwise fun a b => keyAtMost key a b = true)
    (hl' : l'.Pairwise fun a b => keyAtMost key a b = true)
    (h : ∀ k, l.filter (fun a => key a = k) = l'.filter fun a => key a = k) : l = l' := by
  have hmem : ∀ a, a ∈ l ↔ a ∈ l' := fun a => by
    have := congrArg (a ∈ ·) (h (key a))
    simpa [List.mem_filter] using this
  induction l generalizing l' with
  | nil =>
    cases l' with
    | nil => rfl
    | cons b rest => exact absurd ((hmem b).2 (List.mem_cons_self ..)) (by simp)
  | cons a rest ih =>
    cases l' with
    | nil => exact absurd ((hmem a).1 (List.mem_cons_self ..)) (by simp)
    | cons b rest' =>
      rw [List.pairwise_cons] at hl hl'
      -- The two heads have the least key, and are the first elements of it.
      have hab : keyAtMost key a b = true := by
        rcases List.mem_cons.1 ((hmem b).2 (List.mem_cons_self ..)) with rfl | hb
        · exact keyAtMost_of_eq rfl
        · exact hl.1 b hb
      have hba : keyAtMost key b a = true := by
        rcases List.mem_cons.1 ((hmem a).1 (List.mem_cons_self ..)) with rfl | ha
        · exact keyAtMost_of_eq rfl
        · exact hl'.1 a ha
      have hkey := key_eq_of_keyAtMost hab hba
      have hhead := h (key a)
      rw [List.filter_cons_of_pos (by simp), List.filter_cons_of_pos (by simp [hkey])] at hhead
      obtain ⟨rfl, -⟩ := List.cons.inj hhead
      have hrest : ∀ k, rest.filter (fun x => key x = k) = rest'.filter fun x => key x = k := by
        intro k
        have hk := h k
        rw [List.filter_cons, List.filter_cons] at hk
        split at hk
        · exact (List.cons.inj hk).2
        · exact hk
      refine congrArg (a :: ·) (ih hl.2 hl'.2 hrest fun x => ?_)
      have := congrArg (x ∈ ·) (hrest (key x))
      simpa [List.mem_filter] using this

/-! ## Groups -/

omit [Ord κ] [Std.TransOrd κ] [Std.LawfulEqOrd κ] in
theorem flatten_map_ite {keys : List κ} (h : keys.Nodup) (k : κ) (group : List α) :
    (keys.map fun k' => if k' = k then group else []).flatten = if k ∈ keys then group else [] := by
  induction keys with
  | nil => rfl
  | cons x rest ih =>
    obtain ⟨hx, hrest⟩ := List.nodup_cons.1 h
    rw [List.map_cons, List.flatten_cons, ih hrest]
    by_cases hk : x = k
    · subst hk
      simp [hx]
    · simp [hk, Ne.symm hk]

section Groups

variable {m : SortedMap κ (List α)} (hm : ∀ k, ∀ a ∈ m.getD k [], key a = k)

include hm

omit [DecidableEq κ] in
theorem flatten_values_sorted : m.values.flatten.Pairwise fun a b => keyAtMost key a b = true := by
  rw [values_eq_map_getD m [], List.pairwise_flatten]
  constructor
  · intro group hgroup
    obtain ⟨k, -, rfl⟩ := List.mem_map.1 hgroup
    exact List.pairwise_of_forall_mem_list fun a ha b hb =>
      keyAtMost_of_eq ((hm k a ha).trans (hm k b hb).symm)
  · rw [List.pairwise_map]
    refine m.keys_pairwise.imp fun {k k'} hlt a ha b hb => ?_
    rw [keyAtMost_iff, hm k a ha, hm k' b hb, hlt]
    nofun

theorem filter_flatten_values (k : κ) :
    m.values.flatten.filter (fun a => key a = k) = m.getD k [] := by
  rw [values_eq_map_getD m [], List.filter_flatten, List.map_map]
  -- Of the groups, all but the one of the key are left empty.
  have hgroup : ∀ k', (m.getD k' []).filter (fun a => key a = k) =
      if k' = k then m.getD k [] else [] := by
    intro k'
    split
    · next h =>
      subst h
      exact List.filter_eq_self.2 fun a ha => by simpa using hm k' a ha
    · next h =>
      refine List.filter_eq_nil_iff.2 fun a ha => ?_
      rw [hm k' a ha]
      simpa using h
  simp only [Function.comp_def, hgroup]
  rw [flatten_map_ite m.keys_nodup]
  split
  · rfl
  · next hk =>
    rw [mem_keys, Bool.not_eq_true, contains_eq_false_iff] at hk
    rw [getD_of_none hk]

end Groups

/-- Sorting puts the groups of a list one behind the other. -/
theorem mergeSort_key_eq_flatten {β : Type} {m : SortedMap κ (List β)} {f : β → α}
    (hm : ∀ k, ∀ b ∈ m.getD k [], key (f b) = k)
    (h : ∀ k, l.filter (fun a => key a = k) = (m.getD k []).map f) :
    l.mergeSort (keyAtMost key) = m.values.flatten.map f := by
  have hgroups : ∀ k, ∀ b ∈ m.getD k [], (key ∘ f) b = k := hm
  refine eq_of_filter_key_eq (mergeSort_key_sorted key l) ?_ fun k => ?_
  · rw [List.pairwise_map]
    exact flatten_values_sorted hgroups
  · rw [filter_mergeSort_key, h, List.filter_map]
    exact congrArg (List.map f) (filter_flatten_values hgroups k).symm

omit [DecidableEq κ] in
/-- A list with strictly increasing keys is what sorting makes of any rearrangement of it. -/
theorem mergeSort_key_eq_of_perm (hl : l'.Pairwise fun a b => compare (key a) (key b) = .lt)
    (hperm : l.Perm l') : l.mergeSort (keyAtMost key) = l' := by
  have hsorted : l'.Pairwise fun a b => keyAtMost key a b = true :=
    hl.imp fun h => by rw [keyAtMost_iff, h]; nofun
  have hnodup : (l'.map key).Nodup := by
    rw [List.Nodup, List.pairwise_map]
    refine hl.imp fun {a b} hlt heq => ?_
    simp [heq] at hlt
  have hsort := (List.mergeSort_perm l (keyAtMost key)).trans hperm
  refine hsort.eq_of_pairwise (fun a b ha hb hab hba => ?_) (mergeSort_key_sorted key l) hsorted
  exact List.inj_on_of_nodup_map hnodup (hsort.mem_iff.1 ha) hb (key_eq_of_keyAtMost hab hba)

end CodeAtlas
