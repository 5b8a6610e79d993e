/-!
# Sorted maps

A finite map kept as a list of entries in strictly increasing key order. The order is part of the
type, so a map has one representation: two maps with the same look-ups are equal (`SortedMap.ext`).

Main results:

* `get?_insert`, `get?_erase`, `get?_filter`: what each operation does to a look-up.
* `SortedMap.ext`: maps with equal look-ups are equal.
-/

namespace CodeAtlas

universe u v w

/-- A finite map from `κ` to `α`; `entries` is in strictly increasing order of the keys. -/
structure SortedMap (κ : Type u) (α : Type v) [Ord κ] where
  entries : List (κ × α)
  sorted : entries.Pairwise fun a b => compare a.1 b.1 = .lt

namespace SortedMap

variable {κ : Type u} {α : Type v} {β : Type w} [Ord κ]

instance [BEq κ] [BEq α] : BEq (SortedMap κ α) := ⟨fun a b => a.entries == b.entries⟩

instance [DecidableEq κ] [DecidableEq α] : DecidableEq (SortedMap κ α) := fun a b =>
  if h : a.entries = b.entries then .isTrue (by cases a; cases b; simpa using h)
  else .isFalse fun e => h (e ▸ rfl)

instance [Repr κ] [Repr α] : Repr (SortedMap κ α) := ⟨fun m n => reprPrec m.entries n⟩

def empty : SortedMap κ α := ⟨[], .nil⟩

instance : EmptyCollection (SortedMap κ α) := ⟨empty⟩

instance : Inhabited (SortedMap κ α) := ⟨empty⟩

/-! ## Operations -/

/-- Look-up in a list of entries. -/
def find? (k : κ) : List (κ × α) → Option α
  | [] => none
  | (k', a) :: rest => if compare k k' = .eq then some a else find? k rest

/-- The value stored under `k`. -/
def get? (m : SortedMap κ α) (k : κ) : Option α := find? k m.entries

def contains (m : SortedMap κ α) (k : κ) : Bool := (m.get? k).isSome

def getD (m : SortedMap κ α) (k : κ) (d : α) : α := (m.get? k).getD d

/-- Entry list with `k` bound to `a`; an entry of the same key is replaced. -/
def insertEntry (k : κ) (a : α) : List (κ × α) → List (κ × α)
  | [] => [(k, a)]
  | (k', b) :: rest =>
    match compare k k' with
    | .lt => (k, a) :: (k', b) :: rest
    | .eq => (k, a) :: rest
    | .gt => (k', b) :: insertEntry k a rest

theorem key_of_mem_insertEntry {k : κ} {a : α} {l : List (κ × α)} {e : κ × α}
    (h : e ∈ insertEntry k a l) : e = (k, a) ∨ e ∈ l := by
  induction l with
  | nil => simpa [insertEntry] using h
  | cons hd tl ih =>
    obtain ⟨k', b⟩ := hd
    simp only [insertEntry] at h
    split at h
    · simpa using h
    · rcases List.mem_cons.1 h with h | h
      · exact .inl h
      · exact .inr (List.mem_cons_of_mem _ h)
    · rcases List.mem_cons.1 h with h | h
      · exact .inr (h ▸ List.mem_cons_self ..)
      · exact (ih h).imp_right (List.mem_cons_of_mem _)

theorem sorted_insertEntry [Std.TransOrd κ] [Std.LawfulEqOrd κ] {k : κ} {a : α}
    {l : List (κ × α)} (h : l.Pairwise fun a b => compare a.1 b.1 = .lt) :
    (insertEntry k a l).Pairwise fun a b => compare a.1 b.1 = .lt := by
  induction l with
  | nil => simp [insertEntry]
  | cons hd tl ih =>
    obtain ⟨k', b⟩ := hd
    rw [List.pairwise_cons] at h
    simp only [insertEntry]
    split
    · next hlt =>
      refine List.pairwise_cons.2 ⟨fun e he => ?_, List.pairwise_cons.2 h⟩
      rcases List.mem_cons.1 he with rfl | he
      · exact hlt
      · exact Std.TransCmp.lt_trans hlt (h.1 e he)
    · next heq =>
      obtain rfl := Std.LawfulEqCmp.eq_of_compare heq
      exact List.pairwise_cons.2 h
    · next hgt =>
      refine List.pairwise_cons.2 ⟨fun e he => ?_, ih h.2⟩
      rcases key_of_mem_insertEntry he with rfl | he
      · exact Std.OrientedCmp.lt_of_gt hgt
      · exact h.1 e he

/-- Bind `k` to `a`, replacing an earlier value. -/
def insert [Std.TransOrd κ] [Std.LawfulEqOrd κ] (m : SortedMap κ α) (k : κ) (a : α) :
    SortedMap κ α :=
  ⟨insertEntry k a m.entries, sorted_insertEntry m.sorted⟩

def filter (m : SortedMap κ α) (p : κ → α → Bool) : SortedMap κ α :=
  ⟨m.entries.filter fun e => p e.1 e.2, m.sorted.filter _⟩

def erase (m : SortedMap κ α) (k : κ) : SortedMap κ α :=
  m.filter fun k' _ => compare k k' != .eq

/-- Replace the value of `k` by `f` of it; without a value, `f none` decides whether to add one. -/
def alter [Std.TransOrd κ] [Std.LawfulEqOrd κ] (m : SortedMap κ α) (k : κ)
    (f : Option α → Option α) : SortedMap κ α :=
  match f (m.get? k) with
  | some a => m.insert k a
  | none => m.erase k

/-- Apply `f` to the value of `k`, if there is one. -/
def modify [Std.TransOrd κ] [Std.LawfulEqOrd κ] (m : SortedMap κ α) (k : κ) (f : α → α) :
    SortedMap κ α :=
  m.alter k (Option.map f)

/-- Apply `f` to every value. -/
def mapValues (m : SortedMap κ α) (f : κ → α → β) : SortedMap κ β :=
  ⟨m.entries.map fun e => (e.1, f e.1 e.2), by
    rw [List.pairwise_map]; exact m.sorted⟩

/-- The entries on which `f` is defined, with its values. -/
def filterMap (m : SortedMap κ α) (f : κ → α → Option β) : SortedMap κ β :=
  ⟨m.entries.filterMap fun e => (f e.1 e.2).map (e.1, ·), by
    refine List.Pairwise.filterMap _ (fun a b h x hx y hy => ?_) m.sorted
    obtain ⟨_, _, rfl⟩ := Option.map_eq_some_iff.1 (Option.mem_def.1 hx)
    obtain ⟨_, _, rfl⟩ := Option.map_eq_some_iff.1 (Option.mem_def.1 hy)
    exact h⟩

/-- The keys, in order. -/
def keys (m : SortedMap κ α) : List κ := m.entries.map (·.1)

/-- The values, in key order. -/
def values (m : SortedMap κ α) : List α := m.entries.map (·.2)

def size (m : SortedMap κ α) : Nat := m.entries.length

def isEmpty (m : SortedMap κ α) : Bool := m.entries.isEmpty

/-- Bind the entries of `l` from left to right, so that a later one wins. -/
def insertAll [Std.TransOrd κ] [Std.LawfulEqOrd κ] (m : SortedMap κ α) (l : List (κ × α)) :
    SortedMap κ α :=
  l.foldl (fun m e => m.insert e.1 e.2) m

/-- The map of a list of entries; a later entry of a key wins. -/
def ofList [Std.TransOrd κ] [Std.LawfulEqOrd κ] (l : List (κ × α)) : SortedMap κ α :=
  empty.insertAll l

/-! ## Look-up laws -/

section Laws

variable [Std.TransOrd κ] [Std.LawfulEqOrd κ]

theorem find?_insertEntry (k k' : κ) (a : α) (l : List (κ × α)) :
    find? k' (insertEntry k a l) = if compare k' k = .eq then some a else find? k' l := by
  induction l with
  | nil => simp [insertEntry, find?]
  | cons hd tl ih =>
    obtain ⟨k₁, b⟩ := hd
    simp only [insertEntry]
    split
    · simp [find?]
    · next heq =>
      obtain rfl := Std.LawfulEqCmp.eq_of_compare heq
      simp only [find?]; split <;> simp_all
    · next hgt =>
      simp only [find?, ih]
      by_cases h₁ : compare k' k₁ = .eq
      · obtain rfl := Std.LawfulEqCmp.eq_of_compare h₁
        have : compare k' k ≠ .eq := by
          have := Std.OrientedCmp.lt_of_gt hgt
          simp [this]
        simp [this]
      · simp [h₁]

@[simp] theorem get?_insert (m : SortedMap κ α) (k k' : κ) (a : α) :
    (m.insert k a).get? k' = if compare k' k = .eq then some a else m.get? k' :=
  find?_insertEntry k k' a m.entries

theorem get?_insert_self (m : SortedMap κ α) (k : κ) (a : α) : (m.insert k a).get? k = some a := by
  simp

omit [Std.TransOrd κ] [Std.LawfulEqOrd κ] in
@[simp] theorem get?_empty (k : κ) : (empty : SortedMap κ α).get? k = none := rfl

omit [Std.TransOrd κ] [Std.LawfulEqOrd κ] in
theorem find?_eq_none_of_lt {k : κ} {l : List (κ × α)}
    (h : ∀ e ∈ l, compare k e.1 = .lt) : find? k l = none := by
  induction l with
  | nil => rfl
  | cons hd tl ih =>
    have h₁ := h hd (List.mem_cons_self ..)
    rw [find?, if_neg (by rw [h₁]; simp)]
    exact ih fun e he => h e (List.mem_cons_of_mem _ he)

omit [Std.TransOrd κ] [Std.LawfulEqOrd κ] in
theorem mem_of_find? [Std.LawfulEqOrd κ] {k : κ} {a : α} {l : List (κ × α)}
    (h : find? k l = some a) : (k, a) ∈ l := by
  induction l with
  | nil => simp [find?] at h
  | cons hd tl ih =>
    obtain ⟨k', b⟩ := hd
    rw [find?] at h
    split at h
    · next heq =>
      obtain rfl := Std.LawfulEqCmp.eq_of_compare heq
      cases h
      exact List.mem_cons_self ..
    · exact List.mem_cons_of_mem _ (ih h)

theorem find?_of_mem {k : κ} {a : α} {l : List (κ × α)}
    (hs : l.Pairwise fun a b => compare a.1 b.1 = .lt) (h : (k, a) ∈ l) : find? k l = some a := by
  induction l with
  | nil => cases h
  | cons hd tl ih =>
    obtain ⟨k', b⟩ := hd
    rw [List.pairwise_cons] at hs
    rcases List.mem_cons.1 h with h | h
    · cases h
      simp [find?]
    · have hlt := Std.OrientedCmp.gt_of_lt (hs.1 _ h)
      rw [find?, if_neg (by rw [hlt]; simp)]
      exact ih hs.2 h

/-- An entry is listed exactly when the look-up of its key gives its value. -/
theorem mem_entries_iff {m : SortedMap κ α} {k : κ} {a : α} :
    (k, a) ∈ m.entries ↔ m.get? k = some a :=
  ⟨find?_of_mem m.sorted, mem_of_find?⟩

@[simp] theorem get?_filter (m : SortedMap κ α) (p : κ → α → Bool) (k : κ) :
    (m.filter p).get? k = (m.get? k).filter (p k) := by
  apply Option.ext
  intro a
  rw [← mem_entries_iff, Option.filter_eq_some_iff, ← mem_entries_iff]
  simp [filter]

@[simp] theorem get?_erase (m : SortedMap κ α) (k k' : κ) :
    (m.erase k).get? k' = if compare k k' = .eq then none else m.get? k' := by
  rw [erase, get?_filter]
  split
  · next h => simp [h]
  · next h => cases hm : m.get? k' <;> simp [h]

/-- Two maps with the same look-ups are the same map. -/
@[ext] theorem ext {m₁ m₂ : SortedMap κ α} (h : ∀ k, m₁.get? k = m₂.get? k) : m₁ = m₂ := by
  obtain ⟨l₁, s₁⟩ := m₁
  obtain ⟨l₂, s₂⟩ := m₂
  congr 1
  replace h : ∀ k, find? k l₁ = find? k l₂ := h
  induction l₁ generalizing l₂ with
  | nil =>
    cases l₂ with
    | nil => rfl
    | cons e tl => have := h e.1; simp [find?] at this
  | cons e₁ t₁ ih =>
    cases l₂ with
    | nil => have := h e₁.1; simp [find?] at this
    | cons e₂ t₂ =>
      rw [List.pairwise_cons] at s₁ s₂
      have key : e₁.1 = e₂.1 := by
        cases hc : compare e₁.1 e₂.1 with
        | eq => exact Std.LawfulEqCmp.eq_of_compare hc
        | lt =>
          have h₁ := h e₁.1
          have : find? e₁.1 (e₂ :: t₂) = none := find?_eq_none_of_lt fun e he => by
            rcases List.mem_cons.1 he with rfl | he
            · exact hc
            · exact Std.TransCmp.lt_trans hc (s₂.1 e he)
          rw [this] at h₁
          simp [find?] at h₁
        | gt =>
          have h₁ := h e₂.1
          have hc' := Std.OrientedCmp.lt_of_gt hc
          have : find? e₂.1 (e₁ :: t₁) = none := find?_eq_none_of_lt fun e he => by
            rcases List.mem_cons.1 he with rfl | he
            · exact hc'
            · exact Std.TransCmp.lt_trans hc' (s₁.1 e he)
          rw [this] at h₁
          simp [find?] at h₁
      obtain ⟨k₁, a₁⟩ := e₁
      obtain ⟨k₂, a₂⟩ := e₂
      obtain rfl : k₁ = k₂ := key
      have hval := h k₁
      simp only [find?, Std.ReflCmp.compare_self, if_true, Option.some.injEq] at hval
      subst hval
      congr 1
      refine ih s₁.2 t₂ s₂.2 fun k => ?_
      have hk := h k
      simp only [find?] at hk
      by_cases hkk : compare k k₁ = .eq
      · obtain rfl := Std.LawfulEqCmp.eq_of_compare hkk
        rw [find?_eq_none_of_lt s₁.1, find?_eq_none_of_lt s₂.1]
      · simpa [hkk] using hk

end Laws

end SortedMap

/-- A finite set of strings, listed in order. -/
abbrev StringSet := SortedMap String Unit

namespace StringSet

def add (s : StringSet) (x : String) : StringSet := s.insert x ()

def addAll (s : StringSet) (l : List String) : StringSet := l.foldl add s

def ofList (l : List String) : StringSet := addAll ∅ l

def toList (s : StringSet) : List String := s.keys

end StringSet

end CodeAtlas
