import Mathlib
import CodeAtlas.Edge
import CodeAtlas.Proofs.Store.Database

/-!
# Equality of edges

Edges are compared field by field, and their scores and metadata hold floating-point numbers. A
number that is not a number differs even from itself, and the two zeros are equal without being the
same. What is left of an equivalence is that equality goes both ways and carries on.

Main results:

* `PartialEquivAt`: equality at one value is symmetric and transitive. It passes from parts to wholes
  (`PartialEquivAt.pair`, `PartialEquivAt.list`, `PartialEquivAt.wrap`).
* `Json.induct`: induction over the parts of a JSON value.
* `Edge.beq_iff`, `PartialEquivAt.edge`: what it means for edges to be equal.
-/

namespace CodeAtlas

/-! ## Parts and wholes -/

/-- At `a`, equality goes both ways and carries on. A score that is not a number differs even from
itself, so equality of edges need not be reflexive. -/
structure PartialEquivAt {α : Type} [BEq α] (a : α) : Prop where
  symm : ∀ {b}, (a == b) = true → (b == a) = true
  trans : ∀ {b c}, (a == b) = true → (b == c) = true → (a == c) = true

namespace PartialEquivAt

variable {α β : Type} [BEq α] [BEq β]

theorem of_lawful [LawfulBEq α] (a : α) : PartialEquivAt a where
  symm h := by rw [eq_of_beq h, beq_self_eq_true]
  trans h h' := by rwa [eq_of_beq h]

theorem pair {p : α × β} (h₁ : PartialEquivAt p.1) (h₂ : PartialEquivAt p.2) :
    PartialEquivAt p where
  symm {q} h := by
    obtain ⟨ha, hb⟩ := Bool.and_eq_true_iff.1 h
    exact Bool.and_eq_true_iff.2 ⟨h₁.symm ha, h₂.symm hb⟩
  trans {q r} h h' := by
    obtain ⟨ha, hb⟩ := Bool.and_eq_true_iff.1 h
    obtain ⟨ha', hb'⟩ := Bool.and_eq_true_iff.1 h'
    exact Bool.and_eq_true_iff.2 ⟨h₁.trans ha ha', h₂.trans hb hb'⟩

theorem list {l : List α} (h : ∀ a ∈ l, PartialEquivAt a) : PartialEquivAt l := by
  induction l with
  | nil =>
    refine ⟨fun {l'} hl => ?_, fun {l' l''} hl hl' => ?_⟩
    · cases l' <;> simp_all
    · cases l' <;> simp_all
  | cons a rest ih =>
    obtain ⟨ha, hrest⟩ := List.forall_mem_cons.1 h
    have hrest := ih hrest
    refine ⟨fun {l'} hl => ?_, fun {l' l''} hl hl' => ?_⟩
    · cases l' with
      | nil => cases hl
      | cons b l' =>
        rw [List.cons_beq_cons, Bool.and_eq_true] at hl ⊢
        exact ⟨ha.symm hl.1, hrest.symm hl.2⟩
    · cases l' with
      | nil => cases hl
      | cons b l' =>
        cases l'' with
        | nil => cases hl'
        | cons c l'' =>
          rw [List.cons_beq_cons, Bool.and_eq_true] at hl hl' ⊢
          exact ⟨ha.trans hl.1 hl'.1, hrest.trans hl.2 hl'.2⟩

/-- Equality of wrapped values is that of the values. -/
theorem wrap {f : α → β} {a : α} (h : PartialEquivAt a) (hf : ∀ a b, (f a == f b) = (a == b))
    (hrange : ∀ {a y}, (f a == y) = true → ∃ b, y = f b) : PartialEquivAt (f a) where
  symm {y} hy := by
    obtain ⟨b, rfl⟩ := hrange hy
    rw [hf] at hy ⊢
    exact h.symm hy
  trans {y z} hy hz := by
    obtain ⟨b, rfl⟩ := hrange hy
    obtain ⟨c, rfl⟩ := hrange hz
    rw [hf] at hy hz ⊢
    exact h.trans hy hz

end PartialEquivAt

/-! ## Scores -/

section Scores

open Float.Model

/-- Besides itself a score equals at most the other zero. -/
theorem unpacked_compare_eq {a b : UnpackedFloat} (h : a.compare b = some .eq) :
    a = b ∨ ∃ s s', a = .zero s ∧ b = .zero s' := by
  cases a with
  | notANumber => cases h
  | infinity s =>
    cases b with
    | infinity s' => cases s <;> cases s' <;> simp_all [UnpackedFloat.compare]
    | notANumber | zero s' | finite s' m' e' h' => cases s <;> cases h
  | zero s =>
    cases b with
    | zero s' => exact .inr ⟨s, s', rfl, rfl⟩
    | notANumber => cases h
    | infinity s' | finite s' m' e' h' => cases s' <;> cases h
  | finite s m e hm =>
    cases b with
    | notANumber => cases s <;> cases h
    | infinity s' | zero s' => cases s <;> cases s' <;> cases h
    | finite s' m' e' h' =>
      cases s <;> cases s' <;> simp_all [UnpackedFloat.compare, Ordering.then_eq_eq]

theorem PartialEquivAt.float (x : Float) : PartialEquivAt x where
  symm h := float_beq_symm h
  trans {y z} h h' := by
    rw [float_beq_iff] at h h' ⊢
    rcases unpacked_compare_eq h with hxy | ⟨s, s', hx, hy⟩
    · rwa [hxy]
    · rcases unpacked_compare_eq h' with hyz | ⟨t, t', -, hz⟩
      · rwa [← hyz]
      · rw [hx, hz]
        rfl

end Scores

/-! ## Metadata -/

/-- A fact that passes from the parts of a JSON value to the value holds of every value. -/
theorem Json.induct {P : Json → Prop} (null : P .null) (bool : ∀ b, P (.bool b))
    (number : ∀ n, P (.number n)) (string : ∀ s, P (.string s))
    (array : ∀ items, (∀ j ∈ items, P j) → P (.array items))
    (object : ∀ fields, (∀ f ∈ fields, P f.2) → P (.object fields)) (j : Json) : P j :=
  @Json.rec P (fun items => ∀ j ∈ items, P j) (fun fields => ∀ f ∈ fields, P f.2) (fun f => P f.2)
    null bool number string array object (List.forall_mem_nil _)
    (fun _ _ hj hrest => List.forall_mem_cons.2 ⟨hj, hrest⟩) (List.forall_mem_nil _)
    (fun _ _ hf hrest => List.forall_mem_cons.2 ⟨hf, hrest⟩) (fun _ _ hj => hj) j

theorem Json.beqList_eq (l l' : List Json) : beqList l l' = (l == l') := by
  induction l generalizing l' with
  | nil => cases l' <;> rfl
  | cons j rest ih =>
    cases l' with
    | nil => rfl
    | cons j' rest' => rw [beqList, ih, List.cons_beq_cons]; rfl

theorem Json.beqFields_eq (l l' : List (String × Json)) : beqFields l l' = (l == l') := by
  induction l generalizing l' with
  | nil => cases l' <;> rfl
  | cons f rest ih =>
    cases l' with
    | nil => rfl
    | cons f' rest' => rw [beqFields, ih, List.cons_beq_cons]; rfl


theorem PartialEquivAt.number (n : JsonNumber) : PartialEquivAt n := by
  cases n with
  | natural n =>
    refine wrap (of_lawful n) (fun _ _ => rfl) fun {_ y} h => ?_
    cases y with
    | natural m => exact ⟨m, rfl⟩
    | negative m | float x => cases h
  | negative n =>
    refine wrap (of_lawful n) (fun _ _ => rfl) fun {_ y} h => ?_
    cases y with
    | negative m => exact ⟨m, rfl⟩
    | natural m | float x => cases h
  | float x =>
    refine wrap (float x) (fun _ _ => rfl) fun {_ y} h => ?_
    cases y with
    | float y => exact ⟨y, rfl⟩
    | natural m | negative m => cases h

theorem PartialEquivAt.json (j : Json) : PartialEquivAt j := by
  induction j using Json.induct with
  | null =>
    refine ⟨fun {y} h => ?_, fun {y z} h h' => ?_⟩
    · cases y with
      | null => rfl
      | bool b | number n | string s | array l | object l => cases h
    · cases y with
      | null => exact h'
      | bool b | number n | string s | array l | object l => cases h
  | bool b =>
    refine wrap (of_lawful b) (fun _ _ => rfl) fun {_ y} h => ?_
    cases y with
    | bool b' => exact ⟨b', rfl⟩
    | null | number n | string s | array l | object l => cases h
  | number n =>
    refine wrap (number n) (fun _ _ => rfl) fun {_ y} h => ?_
    cases y with
    | number n' => exact ⟨n', rfl⟩
    | null | bool b | string s | array l | object l => cases h
  | string s =>
    refine wrap (of_lawful s) (fun _ _ => rfl) fun {_ y} h => ?_
    cases y with
    | string s' => exact ⟨s', rfl⟩
    | null | bool b | number n | array l | object l => cases h
  | array items ih =>
    refine wrap (list ih) Json.beqList_eq fun {_ y} h => ?_
    cases y with
    | array items' => exact ⟨items', rfl⟩
    | null | bool b | number n | string s | object l => cases h
  | object fields ih =>
    refine wrap (list fun f hf => pair (of_lawful f.1) (ih f hf)) Json.beqFields_eq fun {_ y} h => ?_
    cases y with
    | object fields' => exact ⟨fields', rfl⟩
    | null | bool b | number n | string s | array l => cases h

theorem PartialEquivAt.metadata (m : Metadata) : PartialEquivAt m :=
  have h : PartialEquivAt m.entries := list fun f _ => pair (of_lawful f.1) (json f.2)
  ⟨fun hb => h.symm hb, fun hb hc => h.trans hb hc⟩

/-! ## Edges -/

theorem Edge.beq_iff {a b : Edge} :
    (a == b) = true ↔ a.type = b.type ∧ a.source = b.source ∧ a.target = b.target ∧
      (a.confidence == b.confidence) = true ∧ a.owner = b.owner ∧ a.line = b.line ∧
      (a.metadata == b.metadata) = true := by
  change (a.type == b.type && (a.source == b.source && (a.target == b.target &&
    (a.confidence == b.confidence && (a.owner == b.owner && (a.line == b.line &&
      a.metadata == b.metadata)))))) = true ↔ _
  simp only [Bool.and_eq_true, beq_iff_eq]

theorem PartialEquivAt.edge (e : Edge) : PartialEquivAt e where
  symm h := by
    obtain ⟨h₁, h₂, h₃, h₄, h₅, h₆, h₇⟩ := Edge.beq_iff.1 h
    exact Edge.beq_iff.2 ⟨h₁.symm, h₂.symm, h₃.symm, (float _).symm h₄, h₅.symm, h₆.symm,
      (metadata _).symm h₇⟩
  trans h h' := by
    obtain ⟨h₁, h₂, h₃, h₄, h₅, h₆, h₇⟩ := Edge.beq_iff.1 h
    obtain ⟨k₁, k₂, k₃, k₄, k₅, k₆, k₇⟩ := Edge.beq_iff.1 h'
    exact Edge.beq_iff.2 ⟨h₁.trans k₁, h₂.trans k₂, h₃.trans k₃, (float _).trans h₄ k₄,
      h₅.trans k₅, h₆.trans k₆, (metadata _).trans h₇ k₇⟩

end CodeAtlas
