import CodeAtlas.Proofs.Collector.Notes

/-!
# Overloads

Definitions of one path are folded into the first of them. The draft of a file finds it again by the
place that it noted for the path, so the places must stay in step with the list of symbols: the
place of a path is where the one symbol of that path stands (`Draft.Folded.places`). Then every
symbol is the first definition of its path, with the number of all of them.

Main results:

* `Draft.Folded.define`: one more definition keeps the symbols folded;
* `Draft.Folded.record`: so does everything that a walk comes across;
* `overloads_counted`: the symbols of a file have different paths, and each counts its definitions.
-/

namespace CodeAtlas.JavaSketches

open Syntax

variable {s : SymbolSketch}

/-! ## Counting -/

/-- How often a path is defined. -/
def timesDefined (defs : List SymbolSketch) (path : String) : Nat :=
  defs.countP fun s => s.relativePath "." == path

theorem timesDefined_append_self (defs : List SymbolSketch) (s : SymbolSketch) :
    timesDefined (defs ++ [s]) (s.relativePath ".") =
      timesDefined defs (s.relativePath ".") + 1 := by
  simp [timesDefined, List.countP_append]

theorem timesDefined_append_of_ne (defs : List SymbolSketch) {path : String}
    (h : s.relativePath "." ≠ path) : timesDefined (defs ++ [s]) path = timesDefined defs path := by
  simp [timesDefined, List.countP_append, h]

theorem timesDefined_pos {defs : List SymbolSketch} (h : s ∈ defs) :
    0 < timesDefined defs (s.relativePath ".") :=
  List.countP_pos_iff.mpr ⟨s, h, beq_self_eq_true _⟩

/-- A definition that stands for several. -/
def tally (s : SymbolSketch) (n : Nat) : SymbolSketch :=
  if n = 1 then s else { s with metadata := s.metadata.insert "overloads" (.nat n) }

@[simp] theorem tally_one (s : SymbolSketch) : tally s 1 = s := rfl

@[simp] theorem relativePath_tally (s : SymbolSketch) (n : Nat) (separator : String) :
    (tally s n).relativePath separator = s.relativePath separator := by
  rw [tally]
  split <;> rfl

@[simp] theorem parent_tally (s : SymbolSketch) (n : Nat) : (tally s n).parent = s.parent := by
  rw [tally]
  split <;> rfl

theorem get?_tally (h : s.metadata.get? "overloads" = none) (n : Nat) :
    (tally s n).metadata.get? "overloads" = if n = 1 then none else some (.nat n) := by
  rw [tally]
  split
  · exact h
  · exact SortedMap.get?_insert_self ..

/-- To count a definition is to let it stand for one more. -/
theorem countOverload_tally (h : s.metadata.get? "overloads" = none) {n : Nat} (hn : 0 < n) :
    countOverload (tally s n) = tally s (n + 1) := by
  have hcount : overloads (tally s n) = n := by
    rw [overloads, get?_tally h]
    split
    · next h1 => simp [h1]
    · rfl
  rw [countOverload, hcount, tally, tally, if_neg (by omega : n + 1 ≠ 1)]
  split
  · rfl
  · congr 1
    apply SortedMap.ext
    intro k
    simp only [SortedMap.get?_insert_eq]
    split <;> rfl

/-! ## Folding -/

theorem getElem?_concat_eq_some {α : Type} {l : List α} {a b : α} {i : Nat} :
    (l ++ [a])[i]? = some b ↔ l[i]? = some b ∨ i = l.length ∧ a = b := by
  obtain h | rfl | h := lt_trichotomy i l.length
  · simp [List.getElem?_append_left h, h.ne]
  · simp
  · simp [List.getElem?_append_right h.le, h.ne', Nat.sub_ne_zero_of_lt h, h.le]

namespace Draft

/-- The draft has folded these definitions. -/
structure Folded (d : Draft) (defs : List SymbolSketch) : Prop where
  /-- The place of a path is where its symbol stands. -/
  places : ∀ path i, d.places.get? path = some i ↔
    (d.file.symbols.map (·.relativePath "."))[i]? = some path
  symbols : ∀ s ∈ d.file.symbols, ∃ c ∈ defs, s = tally c (timesDefined defs (c.relativePath "."))
  paths : ∀ c ∈ defs, c.relativePath "." ∈ d.file.symbols.map (·.relativePath ".")

variable {d : Draft} {defs : List SymbolSketch} {s : SymbolSketch}

section

variable (h : d.Folded defs)

include h

/-- Symbols at different places have different paths. -/
theorem Folded.nodup : (d.file.symbols.map (·.relativePath ".")).Nodup := by
  rw [List.nodup_iff_getElem?_ne_getElem?]
  intro i j hij hj he
  rw [List.getElem?_eq_getElem hj] at he
  have hi := (h.places _ i).mpr he
  rw [(h.places _ j).mpr (List.getElem?_eq_getElem hj)] at hi
  exact hij.ne' (Option.some.inj hi)

/-- A path without a place is new. -/
theorem Folded.new {path : String} (hplace : d.places.get? path = none) :
    path ∉ d.file.symbols.map (·.relativePath ".") := by
  intro hmem
  obtain ⟨i, hi⟩ := List.getElem?_of_mem hmem
  rw [(h.places path i).mpr hi] at hplace
  cases hplace

/-- A definition of a new path is the first of its path. -/
theorem Folded.define_new (hplace : d.places.get? (s.relativePath ".") = none) :
    Folded ⟨d.file.addSymbol s, d.places.insert (s.relativePath ".") d.file.symbols.length⟩
      (defs ++ [s]) where
  places path i := by
    simp only [FileSketch.addSymbol, List.map_append, List.map_cons, List.map_nil,
      SortedMap.get?_insert_eq, getElem?_concat_eq_some, ← h.places, List.length_map]
    split
    · next he =>
      subst he
      simp [hplace, eq_comm]
    · next hne => simp [Ne.symm hne]
  symbols x hx := by
    obtain hx | hx := List.mem_append.mp hx
    · obtain ⟨c, hc, rfl⟩ := h.symbols x hx
      have hne : s.relativePath "." ≠ c.relativePath "." := fun he =>
        h.new hplace (he ▸ h.paths c hc)
      exact ⟨c, List.mem_append_left _ hc, by rw [timesDefined_append_of_ne defs hne]⟩
    · rw [List.mem_singleton.mp hx]
      have hnone : timesDefined defs (s.relativePath ".") = 0 := by
        rw [timesDefined, List.countP_eq_zero]
        intro c hc he
        exact h.new hplace (beq_iff_eq.mp he ▸ h.paths c hc)
      refine ⟨s, List.mem_append_right _ (List.mem_singleton_self s), ?_⟩
      rw [timesDefined_append_self, hnone, tally_one]
  paths c hc := by
    rw [FileSketch.addSymbol, List.map_append]
    obtain hc | hc := List.mem_append.mp hc
    · exact List.mem_append_left _ (h.paths c hc)
    · rw [List.mem_singleton.mp hc]
      exact List.mem_append_right _ (List.mem_singleton_self _)

omit h in
theorem map_relativePath_modify (symbols : List SymbolSketch) (i : Nat) :
    (symbols.modify i countOverload).map (·.relativePath ".") =
      symbols.map (·.relativePath ".") := by
  apply List.ext_getElem?
  intro j
  simp only [List.getElem?_map, List.getElem?_modify]
  cases symbols[j]? with
  | none => rfl
  | some x =>
    simp only [Option.map_some, Option.map_eq_map]
    split <;> rfl

/-- A definition of a path that has a place is counted there, and nowhere else. -/
theorem Folded.define_known (hplain : ∀ c ∈ defs, c.metadata.get? "overloads" = none) {i : Nat}
    (hplace : d.places.get? (s.relativePath ".") = some i) :
    Folded { d with file := { d.file with symbols := d.file.symbols.modify i countOverload } }
      (defs ++ [s]) where
  places path j := by
    rw [map_relativePath_modify]
    exact h.places path j
  symbols x hx := by
    obtain ⟨j, hj⟩ := List.getElem?_of_mem hx
    rw [List.getElem?_modify] at hj
    obtain ⟨y, hy, rfl⟩ := Option.map_eq_some_iff.mp hj
    obtain ⟨c, hc, rfl⟩ := h.symbols y (List.mem_of_getElem? hy)
    have hplace' := (h.places (c.relativePath ".") j).mpr (by simp [hy])
    refine ⟨c, List.mem_append_left _ hc, ?_⟩
    split
    · next he =>
      subst he
      have hpath : s.relativePath "." = c.relativePath "." := by
        have hi := (h.places _ i).mp hplace
        rw [(h.places _ i).mp hplace'] at hi
        exact (Option.some.inj hi).symm
      rw [← hpath, timesDefined_append_self, hpath,
        countOverload_tally (hplain c hc) (timesDefined_pos hc)]
    · next hne =>
      rw [timesDefined_append_of_ne]
      intro he
      rw [he, hplace'] at hplace
      exact hne (Option.some.inj hplace).symm
  paths c hc := by
    rw [map_relativePath_modify]
    obtain hc | hc := List.mem_append.mp hc
    · exact h.paths c hc
    · rw [List.mem_singleton.mp hc]
      exact List.mem_of_getElem? ((h.places _ i).mp hplace)

/-- One more definition keeps the symbols folded. -/
theorem Folded.define (hplain : ∀ c ∈ defs, c.metadata.get? "overloads" = none)
    (s : SymbolSketch) : (d.define s).Folded (defs ++ [s]) := by
  rw [Draft.define]
  split
  · next i hplace => exact h.define_known hplain hplace
  · next hplace => exact h.define_new hplace

/-- Everything that a walk comes across keeps the symbols folded. -/
theorem Folded.record {notes : List Note}
    (hplain : ∀ c ∈ defs ++ definitions notes, c.metadata.get? "overloads" = none) :
    (notes.foldl Draft.record d).Folded (defs ++ definitions notes) := by
  induction notes generalizing d defs with
  | nil => simpa [definitions] using h
  | cons note rest ih =>
    rw [List.foldl_cons]
    cases note with
    | definition s =>
      have hcons : defs ++ definitions (.definition s :: rest) =
          (defs ++ [s]) ++ definitions rest := by
        simp [definitions, Note.definition?]
      rw [hcons] at hplain ⊢
      exact ih (h.define (fun c hc => hplain c (by simp [hc])) s) hplain
    | package _ | imported _ | reference _ | assignment _ =>
      exact ih ⟨h.places, h.symbols, h.paths⟩ hplain

end

end Draft

/-! ## Files -/

theorem folded_ofTree (path : String) (source : Source) (root : Node) :
    ∃ places, Draft.Folded ⟨ofTree path source root, places⟩
      (definitions (extract root.height { source } root)) := by
  have hstart : Draft.Folded { file := { path, language := "java", separator := "." } } [] :=
    ⟨by simp, by simp, by simp⟩
  have hplain : ∀ c ∈ [] ++ definitions (extract root.height { source } root),
      c.metadata.get? "overloads" = none :=
    fun c hc => (shaped_extract ..).plain (by simpa using hc)
  exact ⟨_, hstart.record hplain⟩

/-- The symbols of a file have different paths, every path that the walk defines has one, and it
counts the definitions of its path if there are several. -/
theorem overloads_counted (path : String) (source : Source) (root : Node) :
    let file := ofTree path source root
    let defs := definitions (extract root.height { source } root)
    (file.symbols.map (·.relativePath ".")).Nodup ∧
      (∀ c ∈ defs, ∃ s ∈ file.symbols, s.relativePath "." = c.relativePath ".") ∧
      ∀ s ∈ file.symbols, 0 < timesDefined defs (s.relativePath ".") ∧
        s.metadata.get? "overloads" =
          if timesDefined defs (s.relativePath ".") = 1 then none
          else some (.nat (timesDefined defs (s.relativePath "."))) := by
  obtain ⟨places, h⟩ := folded_ofTree path source root
  refine ⟨h.nodup, fun c hc => List.mem_map.mp (h.paths c hc), fun s hs => ?_⟩
  obtain ⟨c, hc, rfl⟩ := h.symbols s hs
  rw [relativePath_tally]
  exact ⟨timesDefined_pos hc, get?_tally ((shaped_extract ..).plain hc) _⟩

end CodeAtlas.JavaSketches
