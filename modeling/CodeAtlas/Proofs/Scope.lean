import Mathlib
import CodeAtlas.Proofs.SortedMap
import CodeAtlas.Scope.Basic

/-!
# What a scope knows

A scope is entered by following the parents of sketches outwards. Parents are names that nobody
checks, so they could lead around in circles. But a definition is found at its parent, the separator
and its name, so its path is longer than its parent unless the separator is empty. With an empty
separator a definition without a name is its own parent, and the walk never leaves it.

A variable holds the literal that was assigned to it last. The assignments of a variable are sorted
by line and text, and a look-up takes the last that is not too late.

Main results:

* `FileSketch.Outwards`, `FileSketch.exists_outwards`: the way from a place outwards, and its end.
* `Scope.enclosing?_eq`: the walk has no test for its end but those of the way.
* `Scope.enter_innermost`: what encloses a place.
* `LiteralBindings.lookup?_latest`: what a variable holds.
-/

namespace CodeAtlas

/-! ## Enclosing definitions -/

/-- The definitions from a place outwards, with their paths: the one at the place, the one at its
parent, and so on until there is no parent or nothing is defined at its path. -/
inductive FileSketch.Outwards (f : FileSketch) :
    Option String → List (String × SymbolSketch) → Prop
  | outermost : Outwards f none []
  | undefined {r : String} (h : f.symbolAt? r = none) : Outwards f (some r) []
  | inside {r : String} {s : SymbolSketch} {l : List (String × SymbolSketch)}
      (h : f.symbolAt? r = some s) (hl : Outwards f s.parent l) : Outwards f (some r) ((r, s) :: l)

namespace FileSketch

variable {f : FileSketch} {source : Option String} {r : String} {s : SymbolSketch}
  {l l' : List (String × SymbolSketch)}

theorem parent_ne (hsep : f.separator ≠ "") (h : f.symbolAt? r = some s) {p : String}
    (hp : s.parent = some p) : p ≠ r := by
  have hlen : f.separator.length ≠ 0 := by simpa using hsep
  intro hpr
  have hpath := congrArg String.length (relativePath_of_symbolAt? h)
  rw [SymbolSketch.relativePath, hp, String.length_append, String.length_append, hpr] at hpath
  omega

/-- The way outwards has an end. -/
theorem exists_outwards (hsep : f.separator ≠ "") (source : Option String) :
    ∃ l, f.Outwards source l := by
  cases source with
  | none => exact ⟨[], .outermost⟩
  | some r =>
    induction hn : r.length using Nat.strong_induction_on generalizing r with
    | _ n ih =>
      subst hn
      cases h : f.symbolAt? r with
      | none => exact ⟨[], .undefined h⟩
      | some s =>
        cases hp : s.parent with
        | none => exact ⟨[(r, s)], .inside h (hp ▸ .outermost)⟩
        | some p =>
          obtain ⟨l, hl⟩ := ih p.length (f.length_parent_lt h hp (parent_ne hsep h hp)) p rfl
          exact ⟨(r, s) :: l, .inside h (hp ▸ hl)⟩

theorem Outwards.unique (h : f.Outwards source l) (h' : f.Outwards source l') : l' = l := by
  induction h generalizing l' with
  | outermost =>
    cases h'
    rfl
  | undefined h =>
    cases h' with
    | undefined => rfl
    | inside hs => cases h.symm.trans hs
  | inside h _ ih =>
    cases h' with
    | undefined hn => cases h.symm.trans hn
    | inside hs hl =>
      cases h.symm.trans hs
      rw [ih hl]

/-- The fully-qualified name of the first type on the way outwards. -/
def firstType? (f : FileSketch) (l : List (String × SymbolSketch)) : Option String :=
  (l.find? fun e => e.2.kind.isType).map fun e => f.qualify e.1

/-- The fully-qualified name of the first callable on the way outwards up to the first type. -/
def firstCallable? (f : FileSketch) (l : List (String × SymbolSketch)) : Option String :=
  ((l.takeWhile fun e => !e.2.kind.isType).find? fun e => e.2.kind.isCallable).map
    fun e => f.qualify e.1

end FileSketch

theorem SymbolKind.isCallable_of_isType {k : SymbolKind} :
    k.isType = true → k.isCallable = false := by
  cases k <;> decide

namespace Scope

open FileSketch

/-- The walk outwards is what it is one step further out. -/
theorem enclosing?_eq (f : FileSketch) (r : String) (found : Enclosing) : enclosing? f r found =
    match f.symbolAt? r with
    | none => some found
    | some s =>
      let found :=
        if found.callable.isNone && s.kind.isCallable then
          { found with callable := some (f.qualify r) }
        else found
      if s.kind.isType then some { found with type := some (f.qualify r) }
      else
        match s.parent with
        | none => some found
        | some parent => enclosing? f parent found := by
  rw [enclosing?]
  split
  · next h => rw [h]
  · next s h =>
    rw [h]
    dsimp only
    split
    · rfl
    · next htype =>
      split
      · next hp => rw [hp]
      · next parent hp =>
        rw [hp]
        dsimp only
        split
        · -- the definition is its own parent
          next hself =>
          subst hself
          rw [enclosing?]
          split
          · next hn => cases h.symm.trans hn
          · next s' h' =>
            cases h.symm.trans h'
            dsimp only
            rw [if_neg htype]
            split
            · next hp' => cases hp.symm.trans hp'
            · next p' hp' =>
              cases hp.symm.trans hp'
              rw [dif_pos rfl]
        · rfl

/-- The walk outwards finds the first type and the first callable no later than that, unless a
callable was found before. -/
theorem enclosing?_outwards {f : FileSketch} {source : Option String}
    {l : List (String × SymbolSketch)} (h : f.Outwards source l) {r : String}
    (hr : source = some r) (found : Enclosing) : enclosing? f r found = some
      { type := (f.firstType? l).or found.type
        callable := found.callable.or (f.firstCallable? l) } := by
  induction h generalizing r found with
  | outermost => cases hr
  | undefined h =>
    cases hr
    rw [enclosing?_eq, h]
    simp [firstType?, firstCallable?]
  | @inside r s l h hl ih =>
    cases hr
    have hnote : (if found.callable.isNone && s.kind.isCallable then
        { found with callable := some (f.qualify r) } else found) =
        { found with callable :=
            found.callable.or (if s.kind.isCallable then some (f.qualify r) else none) } := by
      obtain ⟨type, callable⟩ := found
      cases callable <;> cases s.kind.isCallable <;> rfl
    rw [enclosing?_eq, h]
    dsimp only
    rw [hnote]
    by_cases htype : s.kind.isType = true
    · -- a type is no callable
      simp [firstType?, firstCallable?, htype, SymbolKind.isCallable_of_isType htype]
    · have hcallable : f.firstCallable? ((r, s) :: l) =
          (if s.kind.isCallable then some (f.qualify r) else none).or (f.firstCallable? l) := by
        cases hc : s.kind.isCallable <;> simp [firstCallable?, htype, hc]
      have hfirst : f.firstType? ((r, s) :: l) = f.firstType? l := by simp [firstType?, htype]
      rw [if_neg htype, hcallable, hfirst, ← Option.or_assoc]
      cases hp : s.parent with
      | none =>
        rw [hp] at hl
        cases hl
        simp [firstType?, firstCallable?]
      | some p => exact ih hp _

/-- The walk outwards returns if the separator is not empty. -/
theorem enclosing?_isSome {f : FileSketch} (hsep : f.separator ≠ "") (r : String)
    (found : Enclosing) : (enclosing? f r found).isSome = true := by
  obtain ⟨l, hl⟩ := exists_outwards hsep (some r)
  rw [enclosing?_outwards hl rfl]
  rfl

/-- The walk outwards from a place returns, whatever the parents say, if the separator is not empty.
The scope at the place knows the first type on the way and the first callable no later than that,
and nothing of a scope that was entered before. -/
theorem enter_innermost (c : Scope) {f : FileSketch} (hsep : f.separator ≠ "")
    (source : Option String) :
    (∀ r, source = some r → (enclosing? f r {}).isSome = true) ∧
    ∃ l, f.Outwards source l ∧ (∀ l', f.Outwards source l' → l' = l) ∧
      c.enter f source =
        { c with
          enclosingType := f.firstType? l, enclosingCallable := f.firstCallable? l
          within := source } ∧
      ∀ (g : FileSketch) (before : Option String),
        (c.enter g before).enter f source = c.enter f source := by
  obtain ⟨l, hl⟩ := exists_outwards hsep source
  refine ⟨fun r _ => enclosing?_isSome hsep r {}, l, hl, fun l' hl' => hl.unique hl', ?_,
    fun g before => rfl⟩
  cases source with
  | none =>
    cases hl
    rfl
  | some r => simp only [enter, enclosing?_outwards hl rfl, Option.or_none, Option.none_or]

/-- A definition that names itself as its parent, a path that is defined twice, and a callable
inside another. -/
def tangledFile : FileSketch :=
  { path := "f", language := "java", moduleName := some "m", separator := "."
    symbols :=
      [{ name := "A", kind := .classType, line := 1, column := 1 },
        { name := "run", parent := some "A", kind := .property, line := 2, column := 1 },
        { name := "run", parent := some "A", kind := .method, line := 3, column := 1 },
        { name := "go", parent := some "A.run", kind := .function, line := 4, column := 1 },
        { name := "x", parent := some "x", kind := .property, line := 5, column := 1 }] }

theorem enter_innermost_tangled : tangledFile.separator ≠ "" ∧ ∀ c : Scope,
    (c.enter tangledFile (some "A.run.go")).enclosingType = some "m.A" ∧
      (c.enter tangledFile (some "A.run.go")).enclosingCallable = some "m.A.run.go" ∧
      (c.enter tangledFile (some "x.x")).enclosingType = none := by
  refine ⟨by decide, fun c => ?_⟩
  obtain ⟨-, l, -, hunique, henter, -⟩ :=
    enter_innermost c (f := tangledFile) (by decide) (some "A.run.go")
  obtain ⟨-, l', -, hunique', henter', -⟩ :=
    enter_innermost c (f := tangledFile) (by decide) (some "x.x")
  have hl := hunique _ (.inside rfl (.inside rfl (.inside rfl .outermost)))
  have hl' := hunique' _ (.inside rfl (.undefined rfl))
  rw [henter, henter', ← hl, ← hl']
  exact ⟨rfl, rfl, rfl⟩

end Scope

/-! ## Literals -/

namespace LiteralBindings

open SortedMap

theorem atMost_iff {a b : UInt32 × String} :
    atMost a b = true ↔ a.1 < b.1 ∨ a.1 = b.1 ∧ a.2 ≤ b.2 := by
  simp [atMost]

theorem atMost_eq (a b : UInt32 × String) :
    atMost a b = decide (toLex (a.1.toNat, a.2) ≤ toLex (b.1.toNat, b.2)) := by
  rw [Bool.eq_iff_iff, atMost_iff, decide_eq_true_eq, Prod.Lex.toLex_le_toLex,
    UInt32.lt_iff_toNat_lt, UInt32.toNat_inj]

theorem atMost_trans (a b c : UInt32 × String) (hab : atMost a b = true) (hbc : atMost b c = true) :
    atMost a c = true := by
  simp only [atMost_eq, decide_eq_true_eq] at *
  exact hab.trans hbc

theorem atMost_total (a b : UInt32 × String) : (atMost a b || atMost b a) = true := by
  simp only [atMost_eq, Bool.or_eq_true, decide_eq_true_eq]
  exact le_total ..

theorem atMost_antisymm {a b : UInt32 × String} (hab : atMost a b = true) (hba : atMost b a = true) :
    a = b := by
  simp only [atMost_eq, decide_eq_true_eq] at hab hba
  obtain ⟨hline, hliteral⟩ := Prod.mk.inj (toLex.injective (le_antisymm hab hba))
  exact Prod.ext (UInt32.toNat_inj.1 hline) hliteral

/-- The literals that a list assigns to a variable, in its order. -/
def valuesOf (l : List LiteralAssignment) (x : Variable) : List (UInt32 × String) :=
  (l.filter fun a => Variable.mk a.scope a.name = x).map fun a => (a.line, a.literal)

theorem getD_foldl_record (l : List LiteralAssignment)
    (m : SortedMap Variable (List (UInt32 × String))) (x : Variable) :
    (l.foldl record m).getD x [] = m.getD x [] ++ valuesOf l x := by
  induction l generalizing m with
  | nil => simp [valuesOf]
  | cons a l ih =>
    have hone : (record m a).getD x [] = m.getD x [] ++ valuesOf [a] x := by
      rw [record, getD, get?_alter]
      split
      · next h => simp [valuesOf, h, getD]
      · next h => simp [valuesOf, Ne.symm h, getD]
    rw [List.foldl_cons, ih, hone, List.append_assoc, valuesOf, valuesOf, valuesOf,
      ← List.map_append, ← List.filter_append]
    rfl

variable {l l' : List LiteralAssignment} {scope : Option String} {name : String} {line : UInt32}

/-- A look-up goes backwards through the sorted literals of its variable. -/
theorem lookup?_eq (l : List LiteralAssignment) (scope : Option String) (name : String)
    (line : UInt32) : (ofAssignments l).lookup? scope name line =
      (((valuesOf l ⟨scope, name⟩).mergeSort atMost).reverse.find? fun v => v.1 ≤ line).map
        (·.2) := by
  have hvalues := getD_foldl_record l ∅ ⟨scope, name⟩
  rw [getD_emptyCollection, List.nil_append] at hvalues
  rw [← hvalues, lookup?, ofAssignments, get?_mapValues, getD]
  cases (l.foldl record ∅).get? ⟨scope, name⟩ <;> simp

theorem mem_valuesOf {v : UInt32 × String} : v ∈ valuesOf l ⟨scope, name⟩ ↔
    ∃ a ∈ l, a.scope = scope ∧ a.name = name ∧ (a.line, a.literal) = v := by
  simp [valuesOf, and_assoc]

theorem lookup?_eq_none_iff : (ofAssignments l).lookup? scope name line = none ↔
    ∀ v ∈ valuesOf l ⟨scope, name⟩, ¬v.1 ≤ line := by
  rw [lookup?_eq, Option.map_eq_none_iff, List.find?_eq_none]
  simp

/-- The last literal that is not too late is the greatest of those up to the line: those behind it
in the sorted list are too late, and those before it are no greater. -/
theorem greatest_of_find? {values : List (UInt32 × String)} {v : UInt32 × String}
    (hv : (values.mergeSort atMost).reverse.find? (fun v => v.1 ≤ line) = some v) :
    v ∈ values ∧ v.1 ≤ line ∧ ∀ w ∈ values, w.1 ≤ line → atMost w v = true := by
  have hsorted : (values.mergeSort atMost).reverse.Pairwise fun a b => atMost b a = true :=
    List.pairwise_reverse.2 (List.pairwise_mergeSort atMost_trans atMost_total _)
  have hmem : ∀ w, w ∈ (values.mergeSort atMost).reverse ↔ w ∈ values := fun w => by
    rw [List.mem_reverse, List.mem_mergeSort]
  obtain ⟨hline, late, early, heq, hlate⟩ := List.find?_eq_some_iff_append.1 hv
  have hself : atMost v v = true := by simpa using atMost_total v v
  simp only [← hmem]
  rw [heq] at hsorted ⊢
  refine ⟨by simp, by simpa using hline, fun w hw hwline => ?_⟩
  rcases List.mem_append.1 hw with hw | hw
  · exact absurd hwline (by simpa using hlate w hw)
  · rcases List.mem_cons.1 hw with rfl | hw
    · exact hself
    · exact (List.pairwise_cons.1 (List.pairwise_append.1 hsorted).2.1).1 w hw

theorem lookup?_eq_some_iff {literal : String} :
    (ofAssignments l).lookup? scope name line = some literal ↔
      ∃ v ∈ valuesOf l ⟨scope, name⟩, v.1 ≤ line ∧ v.2 = literal ∧
        ∀ w ∈ valuesOf l ⟨scope, name⟩, w.1 ≤ line → atMost w v = true := by
  rw [lookup?_eq, Option.map_eq_some_iff]
  constructor
  · rintro ⟨v, hv, hliteral⟩
    obtain ⟨hmem, hline, hmax⟩ := greatest_of_find? hv
    exact ⟨v, hmem, hline, hliteral, hmax⟩
  · rintro ⟨v, hmem, hline, hliteral, hmax⟩
    cases hu : ((valuesOf l ⟨scope, name⟩).mergeSort atMost).reverse.find? fun v => v.1 ≤ line with
    | none =>
      rw [List.find?_eq_none] at hu
      exact absurd (decide_eq_true hline) (hu v (by simpa using hmem))
    | some u =>
      obtain ⟨humem, huline, humax⟩ := greatest_of_find? hu
      rw [atMost_antisymm (hmax u humem huline) (humax v hmem hline)]
      exact ⟨v, rfl, hliteral⟩

/-- A variable holds no literal exactly if it is assigned none in that very scope up to that line.
Else it holds the literal of an assignment on the greatest line, and the greatest of several on that
line. The order of the assignments does not matter. -/
theorem lookup?_latest (l : List LiteralAssignment) (scope : Option String) (name : String)
    (line : UInt32) :
    ((ofAssignments l).lookup? scope name line = none ↔
      ∀ a ∈ l, a.scope = scope → a.name = name → ¬a.line ≤ line) ∧
    (∀ literal, (ofAssignments l).lookup? scope name line = some literal ↔
      ∃ a ∈ l, a.scope = scope ∧ a.name = name ∧ a.line ≤ line ∧ a.literal = literal ∧
        ∀ x ∈ l, x.scope = scope → x.name = name → x.line ≤ line →
          x.line < a.line ∨ x.line = a.line ∧ x.literal ≤ literal) ∧
    ∀ l' : List LiteralAssignment, l'.Perm l →
      (ofAssignments l').lookup? scope name line = (ofAssignments l).lookup? scope name line := by
  refine ⟨?_, fun literal => ?_, fun l' h => ?_⟩
  · rw [lookup?_eq_none_iff]
    simp only [mem_valuesOf]
    constructor
    · exact fun h a ha hscope hname => h _ ⟨a, ha, hscope, hname, rfl⟩
    · rintro h v ⟨a, ha, hscope, hname, rfl⟩
      exact h a ha hscope hname
  · rw [lookup?_eq_some_iff]
    simp only [mem_valuesOf]
    constructor
    · rintro ⟨v, ⟨a, ha, hscope, hname, rfl⟩, hline, rfl, hmax⟩
      exact ⟨a, ha, hscope, hname, hline, rfl, fun x hx h₁ h₂ h₃ =>
        atMost_iff.1 (hmax _ ⟨x, hx, h₁, h₂, rfl⟩ h₃)⟩
    · rintro ⟨a, ha, hscope, hname, hline, rfl, hmax⟩
      refine ⟨_, ⟨a, ha, hscope, hname, rfl⟩, hline, rfl, ?_⟩
      rintro w ⟨x, hx, h₁, h₂, rfl⟩ h₃
      exact atMost_iff.2 (hmax x hx h₁ h₂ h₃)
  · have hmem : ∀ v, v ∈ valuesOf l' ⟨scope, name⟩ ↔ v ∈ valuesOf l ⟨scope, name⟩ := fun v => by
      simp only [mem_valuesOf, h.mem_iff]
    apply Option.ext
    intro literal
    simp only [lookup?_eq_some_iff, hmem]

end LiteralBindings

end CodeAtlas
