import Mathlib
import CodeAtlas.Proofs.Table.Edges

/-!
# What a table holds under one name

Every operation on symbols changes the table under one name at a time. A `Cell` is what stands under
one name: the current symbol, and the definitions of other files that it hides. The operations are
functions on cells, so what they keep is proved on cells, without maps.

Main results:

* `Cell.Ok`: what holds of every cell of a table. `Cell.Ok.withdraw`, `Cell.Ok.define`,
  `Cell.Ok.acquire`, `Cell.Ok.release`: kept when a file gives up or adds a definition, and when a
  namespace gets its first or loses its last file.
* `Cell.Ok.definitions_withdraw`, `Cell.definitions_define`: the definitions of a name, latest
  first, behave like a stack with one entry per file.
-/

namespace CodeAtlas

open SortedMap

variable {s : Symbol}

/-- A symbol that a file defines under a name. -/
structure Symbol.IsDefinition (fqn : String) (s : Symbol) : Prop where
  fqn_eq : s.fqn = fqn
  id_eq : s.id = .ofFqn fqn
  internal : s.isExternal = false
  placed : s.file ≠ ""

/-- A symbol without a file: a placeholder, or the symbol of a declared namespace. -/
structure Symbol.IsBare (fqn : String) (declared : Bool) (s : Symbol) : Prop where
  fqn_eq : s.fqn = fqn
  id_eq : s.id = .ofFqn fqn
  file_eq : s.file = ""
  bare : s.isExternal = true ∨ s = Table.moduleSymbol fqn ∧ declared = true

/-- Whether a symbol belongs to a file of the project. -/
def Symbol.isPlaced (s : Symbol) : Bool := !s.isExternal && !s.file.isEmpty

theorem Symbol.isPlaced_iff : s.isPlaced = true ↔ s.isExternal = false ∧ s.file ≠ "" := by
  simp [isPlaced]

theorem Symbol.IsDefinition.isPlaced {fqn : String} (h : s.IsDefinition fqn) : s.isPlaced = true :=
  Symbol.isPlaced_iff.2 ⟨h.internal, h.placed⟩

@[simp] theorem Table.moduleSymbol_fqn (ns : String) : (Table.moduleSymbol ns).fqn = ns := rfl

@[simp] theorem Table.moduleSymbol_id (ns : String) : (Table.moduleSymbol ns).id = .ofFqn ns := rfl

@[simp] theorem Table.moduleSymbol_file (ns : String) : (Table.moduleSymbol ns).file = "" := rfl

@[simp] theorem Table.moduleSymbol_isExternal (ns : String) :
    (Table.moduleSymbol ns).isExternal = false := rfl

/-! ## Cells -/

/-- What a table holds under one name: the current symbol and the definitions that it hides, the
latest first. -/
@[ext] structure Cell where
  current : Option Symbol
  hidden : List Symbol

namespace Cell

/-- The definitions of the name by files, the latest first. -/
def definitions (c : Cell) : List Symbol := c.current.toList.filter Symbol.isPlaced ++ c.hidden

/-- A file gives up its definition. Where it was the only one, `fallback` takes its place. -/
def withdraw (file : String) (fallback : Option Symbol) (c : Cell) : Cell :=
  match c.current with
  | none => ⟨none, c.hidden.filter fun s => s.file != file⟩
  | some s =>
    if s.file != file || s.isExternal then ⟨some s, c.hidden.filter fun s => s.file != file⟩
    else
      match c.hidden.filter fun s => s.file != file with
      | previous :: rest => ⟨some previous, rest⟩
      | [] => ⟨fallback, []⟩

/-- A file defines the name. -/
def define (s : Symbol) (c : Cell) : Cell :=
  ⟨some s, (c.current.toList.filter fun x => x.isPlaced && x.file != s.file)
    ++ c.hidden.filter fun x => x.file != s.file⟩

/-- What the steps on a cell rest on. -/
structure Regular (fqn : String) (c : Cell) : Prop where
  id_eq : ∀ {s}, c.current = some s → s.id = .ofFqn fqn
  internal : ∀ s ∈ c.hidden, s.isExternal = false

/-- What holds of the cell of a name in every table; `declared` tells whether the name is a declared
namespace. -/
structure Ok (fqn : String) (declared : Bool) (c : Cell) : Prop where
  named : ∀ {s}, c.current = some s → s.fqn = fqn ∧ s.id = .ofFqn fqn
  /-- A placeholder belongs to no file. -/
  placeless : ∀ {s}, c.current = some s → s.isExternal = true → s.file = ""
  /-- A symbol of the project without a file stands for a declared namespace. -/
  fileless : ∀ {s}, c.current = some s → s.isExternal = false → s.file = "" →
    s = Table.moduleSymbol fqn ∧ declared = true
  hidden : ∀ s ∈ c.hidden, s.IsDefinition fqn
  /-- Only a definition hides definitions. -/
  covered : c.hidden ≠ [] → ∃ s, c.current = some s ∧ s.isPlaced = true
  /-- A file has at most one definition of the name. -/
  files_nodup : (c.definitions.map (·.file)).Nodup

variable {fqn file : String} {declared : Bool} {c : Cell}

section

variable (h : c.Ok fqn declared)

include h

theorem Ok.regular : c.Regular fqn :=
  ⟨fun hs => (h.named hs).2, fun s hs => (h.hidden s hs).internal⟩

/-- A symbol that goes with its namespace belongs to a declared one. -/
theorem Ok.declared_of_bare (hs : c.current = some s)
    (hbare : (s.kind == .moduleNode && s.file.isEmpty) = true) : declared = true := by
  have hkind : s.kind = .moduleNode ∧ s.file = "" := by simpa using hbare
  exact (h.fileless hs (by simp [Symbol.isExternal, hkind.1]) hkind.2).2

theorem Ok.current_of_isPlaced (hs : c.current = some s)
    (hp : s.isPlaced = true) : s.IsDefinition fqn :=
  ⟨(h.named hs).1, (h.named hs).2, (Symbol.isPlaced_iff.1 hp).1, (Symbol.isPlaced_iff.1 hp).2⟩

theorem Ok.isDefinition_of_mem (hs : s ∈ c.definitions) : s.IsDefinition fqn := by
  rcases List.mem_append.1 hs with hs | hs
  · obtain ⟨hs, hp⟩ := List.mem_filter.1 hs
    exact h.current_of_isPlaced (Option.mem_toList.1 hs) hp
  · exact h.hidden s hs

theorem Ok.hidden_eq_nil (hc : ∀ s, c.current = some s → s.isPlaced = false) : c.hidden = [] := by
  by_contra hne
  obtain ⟨s, hs, hp⟩ := h.covered hne
  rw [hc s hs] at hp
  cases hp

omit h in
theorem definitions_of_isPlaced (hs : c.current = some s) (hp : s.isPlaced = true) :
    c.definitions = s :: c.hidden := by
  simp [definitions, hs, hp]

theorem Ok.definitions_eq_nil
    (hc : ∀ s, c.current = some s → s.isPlaced = false) : c.definitions = [] := by
  rw [definitions, h.hidden_eq_nil hc, List.append_nil, List.filter_eq_nil_iff]
  intro s hs
  rw [hc s (Option.mem_toList.1 hs)]
  simp

/-- The current symbol of a name with definitions is the latest one. -/
theorem Ok.current_of_definitions {rest : List Symbol}
    (hd : c.definitions = s :: rest) : c.current = some s := by
  by_cases hc : ∀ x, c.current = some x → x.isPlaced = false
  · rw [h.definitions_eq_nil hc] at hd
    cases hd
  · obtain ⟨x, hx, hp⟩ : ∃ x, c.current = some x ∧ x.isPlaced = true := by simpa using hc
    rw [definitions_of_isPlaced hx hp] at hd
    cases hd
    exact hx

end

/-! ## Giving up a definition -/

/-- The three things that can happen when a file gives up a name. -/
theorem withdraw_cases (file : String) (fallback : Option Symbol) (c : Cell) :
    (c.withdraw file fallback = ⟨c.current, c.hidden.filter fun s => s.file != file⟩ ∧
      ∀ s, c.current = some s → s.file ≠ file ∨ s.isExternal = true) ∨
    ∃ s, c.current = some s ∧ s.file = file ∧ s.isExternal = false ∧
      ((∃ previous rest, (c.hidden.filter fun s => s.file != file) = previous :: rest ∧
          c.withdraw file fallback = ⟨some previous, rest⟩) ∨
        ((c.hidden.filter fun s => s.file != file) = [] ∧
          c.withdraw file fallback = ⟨fallback, []⟩)) := by
  unfold withdraw
  cases hc : c.current with
  | none => exact .inl ⟨rfl, by simp⟩
  | some s =>
    by_cases hcond : (s.file != file || s.isExternal) = true
    · left
      refine ⟨by simp only [hcond, if_true], fun x hx => ?_⟩
      cases hx
      simpa using hcond
    · right
      have hs : s.file = file ∧ s.isExternal = false := by simpa using hcond
      refine ⟨s, rfl, hs.1, hs.2, ?_⟩
      simp only [hcond, Bool.false_eq_true, if_false]
      split
      · next previous rest hr => exact .inl ⟨previous, rest, hr, rfl⟩
      · next hr => exact .inr ⟨hr, rfl⟩

/-- Where the current symbol comes from when a file has given up a name. -/
theorem current_withdraw {fallback : Option Symbol}
    (h : (c.withdraw file fallback).current = some s) :
    (c.current = some s ∧ (s.file ≠ file ∨ s.isExternal = true)) ∨
      (s ∈ c.hidden ∧ s.file ≠ file) ∨ fallback = some s := by
  rcases withdraw_cases file fallback c with
    ⟨hw, hs⟩ | ⟨x, -, -, -, ⟨previous, rest, hr, hw⟩ | ⟨-, hw⟩⟩ <;> rw [hw] at h
  · exact .inl ⟨h, hs s h⟩
  · cases h
    have hmem : s ∈ c.hidden.filter fun s => s.file != file := hr ▸ List.mem_cons_self ..
    exact .inr (.inl (by simpa using hmem))
  · exact .inr (.inr h)

theorem hidden_withdraw {fallback : Option Symbol} (h : s ∈ (c.withdraw file fallback).hidden) :
    s ∈ c.hidden ∧ s.file ≠ file := by
  have hmem : s ∈ c.hidden.filter fun s => s.file != file := by
    rcases withdraw_cases file fallback c with
      ⟨hw, -⟩ | ⟨x, -, -, -, ⟨previous, rest, hr, hw⟩ | ⟨-, hw⟩⟩ <;> rw [hw] at h
    · exact h
    · exact hr ▸ List.mem_cons_of_mem _ h
    · cases h
  simpa using hmem

/-- The definitions of the name after a file gave up its own. -/
theorem Ok.definitions_withdraw (h : c.Ok fqn declared) {fallback : Option Symbol}
    (hf : ∀ s, fallback = some s → s.isPlaced = false) :
    (c.withdraw file fallback).definitions = c.definitions.filter fun s => s.file != file := by
  rcases withdraw_cases file fallback c with ⟨hw, hs⟩ | ⟨s, hs, hfile, hext, hw⟩
  · rw [hw, definitions, definitions, List.filter_append]
    congr 1
    rw [List.filter_filter]
    refine List.filter_congr fun x hx => ?_
    rcases hs x (Option.mem_toList.1 hx) with hx | hx <;> simp [Symbol.isPlaced, hx]
  · have hall : (c.current.toList.filter Symbol.isPlaced).filter (fun s => s.file != file) = [] := by
      simp [hs, List.filter_filter, hfile]
    rw [definitions, definitions, List.filter_append, hall, List.nil_append]
    rcases hw with ⟨previous, rest, hr, hw⟩ | ⟨hr, hw⟩
    · have hmem : previous ∈ c.hidden.filter fun s => s.file != file := hr ▸ List.mem_cons_self ..
      have hp := (h.hidden previous (List.mem_filter.1 hmem).1).isPlaced
      rw [hw, hr]
      simp [hp]
    · rw [hw, hr, List.append_nil, List.filter_eq_nil_iff]
      intro x hx
      rw [hf x (Option.mem_toList.1 hx)]
      simp

/-- The symbol of a declared namespace stands in for a definition that is gone. -/
def fallback (fqn : String) (declared : Bool) : Option Symbol :=
  if declared then some (Table.moduleSymbol fqn) else none

theorem fallback_eq_some :
    fallback fqn declared = some s ↔ declared = true ∧ s = Table.moduleSymbol fqn := by
  cases declared <;> simp [fallback, eq_comm]

theorem Ok.withdraw (h : c.Ok fqn declared) (file : String) :
    (c.withdraw file (fallback fqn declared)).Ok fqn declared := by
  have hdefs : (c.withdraw file (fallback fqn declared)).definitions =
      c.definitions.filter fun s => s.file != file := by
    refine h.definitions_withdraw fun s hs => ?_
    obtain ⟨-, rfl⟩ := fallback_eq_some.1 hs
    rfl
  have hnodup : ((c.withdraw file (fallback fqn declared)).definitions.map (·.file)).Nodup := by
    rw [hdefs]
    exact h.files_nodup.sublist (List.filter_sublist.map _)
  rcases withdraw_cases file (fallback fqn declared) c with ⟨hw, -⟩ | ⟨s, hs, hfile, hext, hw⟩
  · rw [hw] at hnodup ⊢
    refine { h with files_nodup := hnodup, hidden := ?_, covered := ?_ }
    · exact fun s hs => h.hidden s (List.mem_filter.1 hs).1
    · exact fun hne => h.covered fun hnil => hne (by simp [hnil])
  · rcases hw with ⟨previous, rest, hr, hw⟩ | ⟨hr, hw⟩
    · have hmem : ∀ x ∈ previous :: rest, x.IsDefinition fqn := fun x hx =>
        h.hidden x (List.mem_filter.1 (hr ▸ hx)).1
      have hp := hmem previous (List.mem_cons_self ..)
      rw [hw] at hnodup ⊢
      refine ⟨?_, ?_, ?_, fun x hx => hmem x (List.mem_cons_of_mem _ hx), ?_, hnodup⟩
      · rintro x ⟨⟩; exact ⟨hp.fqn_eq, hp.id_eq⟩
      · rintro x ⟨⟩ hx; exact absurd hx (by simp [hp.internal])
      · rintro x ⟨⟩ - hx; exact absurd hx hp.placed
      · exact fun _ => ⟨previous, rfl, hp.isPlaced⟩
    · rw [hw] at hnodup ⊢
      refine ⟨?_, ?_, ?_, by simp, by simp, hnodup⟩
      · intro x hx; obtain ⟨-, rfl⟩ := fallback_eq_some.1 hx; exact ⟨rfl, rfl⟩
      · intro x hx he; obtain ⟨-, rfl⟩ := fallback_eq_some.1 hx; rfl
      · intro x hx _ _; exact (fallback_eq_some.1 hx).symm

/-! ## Adding a definition -/

/-- A new definition hides what belongs to files. -/
theorem hidden_define {s x : Symbol} (h : x ∈ (c.define s).hidden) :
    (c.current = some x ∧ x.isPlaced = true) ∨ x ∈ c.hidden := by
  rcases List.mem_append.1 h with h | h
  · obtain ⟨hcur, hp⟩ := List.mem_filter.1 h
    exact .inl ⟨Option.mem_toList.1 hcur, (Bool.and_eq_true_iff.1 hp).1⟩
  · exact .inr (List.mem_filter.1 h).1

theorem definitions_define (hs : s.IsDefinition fqn) :
    (c.define s).definitions = s :: c.definitions.filter fun x => x.file != s.file := by
  have hcomm : (fun x : Symbol => x.isPlaced && x.file != s.file) =
      fun x => x.file != s.file && x.isPlaced := funext fun x => Bool.and_comm _ _
  rw [definitions_of_isPlaced rfl hs.isPlaced, define, definitions, List.filter_append,
    List.filter_filter, hcomm]

theorem Ok.define (h : c.Ok fqn declared) (hs : s.IsDefinition fqn) :
    (c.define s).Ok fqn declared := by
  refine ⟨?_, ?_, ?_, ?_, fun _ => ⟨s, rfl, hs.isPlaced⟩, ?_⟩
  · rintro x ⟨⟩; exact ⟨hs.fqn_eq, hs.id_eq⟩
  · rintro x ⟨⟩ hx; exact absurd hx (by simp [hs.internal])
  · rintro x ⟨⟩ - hx; exact absurd hx hs.placed
  · intro x hx
    rcases hidden_define hx with ⟨hx, hp⟩ | hx
    · exact h.current_of_isPlaced hx hp
    · exact h.hidden x hx
  · rw [definitions_define hs, List.map_cons, List.nodup_cons]
    refine ⟨?_, h.files_nodup.sublist (List.filter_sublist.map _)⟩
    rw [List.mem_map]
    rintro ⟨x, hx, he⟩
    simpa [he] using (List.mem_filter.1 hx).2

/-! ## Namespaces and placeholders -/

/-- A name without a symbol gets `s`. -/
def acquire (s : Symbol) (c : Cell) : Cell := ⟨c.current.or (some s), c.hidden⟩

/-- The symbol of a namespace goes with the last file that declares it. -/
def release (declared : Bool) (c : Cell) : Cell :=
  ⟨c.current.filter fun s => declared || !(s.kind == .moduleNode && s.file.isEmpty), c.hidden⟩

theorem current_acquire {s x : Symbol} (h : (c.acquire s).current = some x) :
    c.current = some x ∨ x = s := by
  rcases Option.or_eq_some_iff.1 h with h | ⟨-, h⟩
  · exact .inl h
  · exact .inr (Option.some.inj h).symm

theorem definitions_acquire (hs : s.isPlaced = false) :
    (c.acquire s).definitions = c.definitions := by
  unfold acquire definitions
  cases c.current <;> simp [hs]

theorem Ok.acquire (h : c.Ok fqn declared) {declared' : Bool}
    (hd : declared = true → declared' = true) (hs : s.IsBare fqn declared') :
    (c.acquire s).Ok fqn declared' := by
  have hplaced : s.isPlaced = false := by simp [Symbol.isPlaced, hs.file_eq]
  refine ⟨fun {x} hx => ?_, fun {x} hx he => ?_, fun {x} hx he hf => ?_, h.hidden, fun hne => ?_, ?_⟩
  · rcases current_acquire hx with hx | rfl
    · exact h.named hx
    · exact ⟨hs.fqn_eq, hs.id_eq⟩
  · rcases current_acquire hx with hx | rfl
    · exact h.placeless hx he
    · exact hs.file_eq
  · rcases current_acquire hx with hx | rfl
    · exact (h.fileless hx he hf).imp_right hd
    · exact hs.bare.resolve_left (by simp [he])
  · obtain ⟨x, hx, hp⟩ := h.covered hne
    exact ⟨x, by simp [Cell.acquire, hx], hp⟩
  · rw [definitions_acquire hplaced]
    exact h.files_nodup

/-- A placeholder or the symbol of a namespace can go: it hides nothing. -/
theorem Ok.vacate (h : c.Ok fqn declared) (hc : ∀ s, c.current = some s → s.isPlaced = false)
    (declared' : Bool) : (⟨none, c.hidden⟩ : Cell).Ok fqn declared' := by
  have hnil := h.hidden_eq_nil hc
  rw [hnil]
  exact ⟨by simp, by simp, by simp, by simp, by simp, by simp [definitions]⟩

theorem Ok.release (h : c.Ok fqn declared) (declared' : Bool) :
    (c.release declared').Ok fqn declared' := by
  by_cases hc : ∃ s, c.current = some s ∧ (declared' || !(s.kind == .moduleNode && s.file.isEmpty))
  · obtain ⟨s, hs, hkeep⟩ := hc
    have hcur : (c.release declared').current = c.current := by
      rw [Cell.release, hs]
      dsimp only
      rw [Option.filter_eq_some_iff]
      exact ⟨rfl, hkeep⟩
    have heq : c.release declared' = c := Cell.ext hcur rfl
    rw [heq]
    refine { h with fileless := fun {x} hx he hf => ?_ }
    obtain ⟨rfl, -⟩ := h.fileless hx he hf
    rw [hs] at hx
    cases hx
    exact ⟨rfl, by simpa [Table.moduleSymbol, Symbol.ofName] using hkeep⟩
  · have hcur : (c.release declared').current = none := by
      rw [Cell.release, Option.filter_eq_none_iff]
      intro s hs hkeep
      exact hc ⟨s, hs, hkeep⟩
    have heq : c.release declared' = ⟨none, c.hidden⟩ := Cell.ext hcur rfl
    rw [heq]
    refine h.vacate (fun s hs => ?_) declared'
    have hdrop : s.kind = .moduleNode ∧ s.file = "" := by
      have : ¬(declared' || !(s.kind == .moduleNode && s.file.isEmpty)) = true := fun hk =>
        hc ⟨s, hs, hk⟩
      simp_all
    simp [Symbol.isPlaced, hdrop.2]

end Cell

end CodeAtlas
