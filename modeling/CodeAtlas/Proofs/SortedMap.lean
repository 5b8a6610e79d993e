import Mathlib
import CodeAtlas.SortedMap

/-!
# Laws of sorted maps

What each operation does to a look-up, stated with equality of keys, and what the lists of keys and
values hold. All later proofs about tables, records and stores go through these laws.

Main results:

* `get?_insert_eq`, `get?_erase_eq`, `get?_modify`, `get?_filterMap`: look-ups after an operation.
* `mem_keys`, `keys_nodup`, `mem_values`: the listed keys and values.
* `StringSet.contains_addAll`, `StringSet.mem_toList`: sets of strings as predicates.
-/

namespace CodeAtlas

namespace SortedMap

universe u v w

variable {κ : Type u} {α : Type v} {β : Type w} [Ord κ] {m : SortedMap κ α} {k : κ}

/-! ## Membership -/

theorem contains_iff : m.contains k = true ↔ ∃ a, m.get? k = some a :=
  Option.isSome_iff_exists

theorem contains_eq_false_iff : m.contains k = false ↔ m.get? k = none := by
  simp [contains]

theorem contains_of_get? {a : α} (h : m.get? k = some a) : m.contains k = true :=
  contains_iff.2 ⟨a, h⟩

theorem getD_of_get? {a d : α} (h : m.get? k = some a) : m.getD k d = a := by
  simp [getD, h]

theorem getD_of_none {d : α} (h : m.get? k = none) : m.getD k d = d := by
  simp [getD, h]

@[simp] theorem get?_emptyCollection (k : κ) : (∅ : SortedMap κ α).get? k = none := rfl

@[simp] theorem contains_emptyCollection (k : κ) : (∅ : SortedMap κ α).contains k = false := rfl

@[simp] theorem getD_emptyCollection (k : κ) (d : α) : (∅ : SortedMap κ α).getD k d = d := rfl

@[simp] theorem keys_emptyCollection : (∅ : SortedMap κ α).keys = [] := rfl

variable [Std.TransOrd κ] [Std.LawfulEqOrd κ]

/-! ## Look-ups after an operation -/

section Lookup

variable [DecidableEq κ]

theorem get?_insert_eq (m : SortedMap κ α) (k k' : κ) (a : α) :
    (m.insert k a).get? k' = if k' = k then some a else m.get? k' := by
  simp

theorem get?_erase_eq (m : SortedMap κ α) (k k' : κ) :
    (m.erase k).get? k' = if k' = k then none else m.get? k' := by
  simp [@eq_comm κ k' k]

theorem erase_eq_self (h : m.get? k = none) : m.erase k = m := by
  refine SortedMap.ext fun k' => ?_
  rw [get?_erase_eq]
  split
  · next hk => rw [hk, h]
  · rfl

theorem get?_alter (m : SortedMap κ α) (k k' : κ) (f : Option α → Option α) :
    (m.alter k f).get? k' = if k' = k then f (m.get? k) else m.get? k' := by
  unfold alter
  split
  · next a h => rw [get?_insert_eq, h]
  · next h => rw [get?_erase_eq, h]

theorem get?_modify (m : SortedMap κ α) (k k' : κ) (f : α → α) :
    (m.modify k f).get? k' = if k' = k then (m.get? k).map f else m.get? k' :=
  get?_alter m k k' _

theorem contains_insert (m : SortedMap κ α) (k k' : κ) (a : α) :
    (m.insert k a).contains k' = (decide (k' = k) || m.contains k') := by
  unfold contains
  rw [get?_insert_eq]
  split <;> simp [*]

theorem contains_erase (m : SortedMap κ α) (k k' : κ) :
    (m.erase k).contains k' = (decide (k' ≠ k) && m.contains k') := by
  unfold contains
  rw [get?_erase_eq]
  split <;> simp [*]

theorem getD_insert (m : SortedMap κ α) (k k' : κ) (a d : α) :
    (m.insert k a).getD k' d = if k' = k then a else m.getD k' d := by
  unfold getD
  rw [get?_insert_eq]
  split <;> simp

theorem getD_erase (m : SortedMap κ α) (k k' : κ) (d : α) :
    (m.erase k).getD k' d = if k' = k then d else m.getD k' d := by
  unfold getD
  rw [get?_erase_eq]
  split <;> simp

end Lookup

/-! ## Lists of keys and values -/

theorem mem_keys : k ∈ m.keys ↔ m.contains k = true := by
  simp only [keys, List.mem_map, contains_iff, Prod.exists, ← mem_entries_iff]
  constructor
  · rintro ⟨k', a, h, rfl⟩
    exact ⟨a, h⟩
  · rintro ⟨a, h⟩
    exact ⟨k, a, h, rfl⟩

omit [Std.TransOrd κ] [Std.LawfulEqOrd κ] in
theorem keys_pairwise (m : SortedMap κ α) : m.keys.Pairwise fun a b => compare a b = .lt := by
  rw [keys, List.pairwise_map]
  exact m.sorted

omit [Std.TransOrd κ] in
theorem keys_nodup (m : SortedMap κ α) : m.keys.Nodup := by
  refine m.keys_pairwise.imp fun {a b} h => ?_
  rintro rfl
  simp at h

/-- Two maps with the same keys among those that `P` selects list them in the same order. -/
theorem filter_keys_eq {m m' : SortedMap κ α} {P : κ → Bool}
    (h : ∀ k, P k = true → m'.contains k = m.contains k) : m'.keys.filter P = m.keys.filter P := by
  have : Std.Irrefl fun a b : κ => compare a b = .lt := ⟨fun a h => by simp at h⟩
  have : Std.Antisymm fun a b : κ => compare a b = .lt :=
    ⟨fun a b hab hba => absurd hba (Std.OrientedCmp.not_lt_of_lt hab)⟩
  have hsort : ∀ m : SortedMap κ α, (m.keys.filter P).Pairwise fun a b => compare a b = .lt :=
    fun m => m.keys_pairwise.sublist List.filter_sublist
  refine List.Pairwise.eq_of_mem_iff (hsort m') (hsort m) fun k => ?_
  rw [List.mem_filter, List.mem_filter, mem_keys, mem_keys]
  exact and_congr_left fun hk => by rw [h k hk]

theorem mem_values {a : α} : a ∈ m.values ↔ ∃ k, m.get? k = some a := by
  simp only [values, List.mem_map, Prod.exists, ← mem_entries_iff]
  constructor
  · rintro ⟨k, a', h, rfl⟩
    exact ⟨k, h⟩
  · rintro ⟨k, h⟩
    exact ⟨k, a, h, rfl⟩

theorem values_eq_map_getD (m : SortedMap κ α) (d : α) : m.values = m.keys.map (m.getD · d) := by
  unfold values keys
  rw [List.map_map]
  refine List.map_congr_left fun ⟨k, a⟩ hmem => ?_
  exact (getD_of_get? (mem_entries_iff.1 hmem)).symm

omit [Std.TransOrd κ] [Std.LawfulEqOrd κ] in
theorem values_filter (m : SortedMap κ α) (p : α → Bool) :
    (m.filter fun _ a => p a).values = m.values.filter p := by
  rw [values, values, List.filter_map]
  rfl

omit [Std.TransOrd κ] in
theorem entries_nodup (m : SortedMap κ α) : m.entries.Nodup := List.Nodup.of_map _ m.keys_nodup

/-- A new value takes the place of the old one. -/
theorem values_insert_perm [DecidableEq κ] (m : SortedMap κ α) (k : κ) (a : α) :
    (m.insert k a).values.Perm ((m.erase k).values ++ [a]) := by
  have hentries : (m.insert k a).entries.Perm ((m.erase k).entries ++ [(k, a)]) := by
    refine (List.perm_ext_iff_of_nodup (entries_nodup _) ?_).2 fun e => ?_
    · have hnew : (k, a) ∉ (m.erase k).entries := by
        rw [mem_entries_iff, get?_erase_eq, if_pos rfl]
        nofun
      exact List.nodup_append.2 ⟨entries_nodup _, List.nodup_singleton _, fun e he e' he' heq =>
        hnew (List.mem_singleton.1 he' ▸ heq ▸ he)⟩
    · obtain ⟨k', a'⟩ := e
      rw [List.mem_append, mem_entries_iff, mem_entries_iff, get?_insert_eq, get?_erase_eq]
      by_cases hk : k' = k
      · simp [hk, eq_comm]
      · simp [hk]
  exact (hentries.map _).trans (List.Perm.of_eq List.map_append)

theorem isEmpty_iff : m.isEmpty = true ↔ ∀ k, m.get? k = none := by
  constructor
  · intro h k
    have : m.entries = [] := by simpa [isEmpty] using h
    unfold get?
    rw [this]
    rfl
  · intro h
    have : m = ∅ := ext fun k => by rw [h k]; rfl
    rw [this]
    rfl

theorem get?_filterMap (m : SortedMap κ α) (f : κ → α → Option β) (k : κ) :
    (m.filterMap f).get? k = (m.get? k).bind (f k) := by
  apply Option.ext
  intro b
  rw [← mem_entries_iff, Option.bind_eq_some_iff]
  simp only [filterMap, List.mem_filterMap, Option.map_eq_some_iff, Prod.exists, Prod.mk.injEq,
    mem_entries_iff]
  constructor
  · rintro ⟨k', a, h, b', hb, rfl, rfl⟩
    exact ⟨a, h, hb⟩
  · rintro ⟨a, h, hb⟩
    exact ⟨k, a, h, b, hb, rfl, rfl⟩

theorem get?_mapValues (m : SortedMap κ α) (f : κ → α → β) (k : κ) :
    (m.mapValues f).get? k = (m.get? k).map (f k) := by
  have hmap : m.mapValues f = m.filterMap fun k a => some (f k a) := by
    simp [mapValues, filterMap, List.filterMap_eq_map']
  rw [hmap, get?_filterMap]
  cases m.get? k <;> rfl

/-! ## Many entries at once -/

theorem contains_insertAll [DecidableEq κ] (l : List (κ × α)) (m : SortedMap κ α) (k : κ) :
    (m.insertAll l).contains k = true ↔ m.contains k = true ∨ k ∈ l.map (·.1) := by
  induction l generalizing m with
  | nil => simp [insertAll]
  | cons e rest ih =>
    have := ih (m.insert e.1 e.2)
    simp only [insertAll, List.foldl_cons] at this ⊢
    rw [this, contains_insert]
    simp only [Bool.or_eq_true, decide_eq_true_eq, List.map_cons, List.mem_cons]
    tauto

theorem contains_ofList [DecidableEq κ] (l : List (κ × α)) (k : κ) :
    (ofList l).contains k = true ↔ k ∈ l.map (·.1) := by
  have : (empty : SortedMap κ α).contains k = false := rfl
  rw [ofList, contains_insertAll, this]
  simp

theorem mem_of_get?_insertAll [DecidableEq κ] {l : List (κ × α)} {a : α}
    (h : (m.insertAll l).get? k = some a) : (k, a) ∈ l ∨ m.get? k = some a := by
  induction l generalizing m with
  | nil => exact .inr h
  | cons e rest ih =>
    rcases ih h with h | h
    · exact .inl (List.mem_cons_of_mem _ h)
    · rw [get?_insert_eq] at h
      split at h
      · next hk =>
        cases h
        exact .inl (hk ▸ List.mem_cons_self ..)
      · exact .inr h

theorem mem_of_get?_ofList [DecidableEq κ] {l : List (κ × α)} {a : α}
    (h : (ofList l).get? k = some a) : (k, a) ∈ l :=
  (mem_of_get?_insertAll h).resolve_right nofun

/-- A map of entries with different keys has exactly these entries. -/
theorem get?_ofList_eq_some [DecidableEq κ] {l : List (κ × α)} (hl : (l.map (·.1)).Nodup) {a : α} :
    (ofList l).get? k = some a ↔ (k, a) ∈ l := by
  refine ⟨mem_of_get?_ofList, fun h => ?_⟩
  obtain ⟨b, hb⟩ := contains_iff.1 ((contains_ofList l k).2 (List.mem_map.2 ⟨_, h, rfl⟩))
  have hab := List.inj_on_of_nodup_map hl h (mem_of_get?_ofList hb) rfl
  rw [hb, (Prod.mk.inj hab).2]

end SortedMap

/-! ## Sets of strings -/

namespace StringSet

open SortedMap

theorem contains_add (s : StringSet) (x y : String) :
    (s.add x).contains y = (decide (y = x) || s.contains y) :=
  contains_insert s x y ()

theorem contains_addAll (l : List String) (s : StringSet) (x : String) :
    (s.addAll l).contains x = true ↔ s.contains x = true ∨ x ∈ l := by
  induction l generalizing s with
  | nil => simp [addAll]
  | cons y rest ih =>
    have := ih (s.add y)
    simp only [addAll, List.foldl_cons] at this ⊢
    rw [this, contains_add]
    simp only [Bool.or_eq_true, decide_eq_true_eq, List.mem_cons]
    tauto

theorem contains_ofList (l : List String) (x : String) :
    (StringSet.ofList l).contains x = true ↔ x ∈ l := by
  rw [StringSet.ofList, contains_addAll]
  simp

theorem mem_toList {s : StringSet} {x : String} : x ∈ s.toList ↔ s.contains x = true :=
  mem_keys

theorem toList_nodup (s : StringSet) : s.toList.Nodup := keys_nodup s

end StringSet

/-- Among elements with different keys one has the key of `x`. -/
theorem filter_key_eq {α : Type} {key : α → String} {l : List α} {x : α}
    (hnodup : (l.map key).Nodup) (hx : x ∈ l) : (l.filter fun y => key y = key x) = [x] := by
  induction l with
  | nil => cases hx
  | cons y rest ih =>
    rw [List.map_cons, List.nodup_cons] at hnodup
    rcases List.mem_cons.1 hx with rfl | hx
    · rw [List.filter_cons_of_pos (by simp), List.filter_eq_nil_iff.2]
      intro z hz heq
      exact hnodup.1 (of_decide_eq_true heq ▸ List.mem_map_of_mem hz)
    · have hne : key y ≠ key x := fun heq => hnodup.1 (heq ▸ List.mem_map_of_mem hx)
      rw [List.filter_cons_of_neg (by simpa using hne)]
      exact ih hnodup.2 hx

end CodeAtlas
