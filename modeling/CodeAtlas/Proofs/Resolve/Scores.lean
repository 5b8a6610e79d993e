import Mathlib
import CodeAtlas.Proofs.Resolve.Sources

/-!
# What scores tell

Score and marks always fit together, and a high score is only given to an edge that leads to a
definition.

Main results:

* `Finding.Resolved.inherited_iff`, `Finding.Resolved.defined_of_le`: what the scores of resolution
  mean.
* `scores_telling`: the scores of the edges of a file.
-/

namespace CodeAtlas

open SymbolLookup

theorem Origin.toSymbol_confidence (o : Origin) (x : Symbol) (score : Float) :
    (o.toSymbol x score).edge.confidence = Edge.clamp score := rfl

theorem Origin.toPlaceholder_confidence (o : Origin) (fqn : String) (score : Float) :
    (o.toPlaceholder fqn score).edge.confidence = Edge.clamp score := rfl

namespace Finding.Resolved

variable {s : Snapshot} {o : Origin} {f : Finding}

theorem inherited_iff (h : f.Resolved s o) :
    f.edge.confidence = 0.9 ↔ f.edge.isInherited = true := by
  cases h with
  | exact _ of | inherited _ of | only _ of =>
    rw [of.confidence, of.inherited, o.toSymbol_confidence]; decide
  | imported _ of | placeholder of =>
    rw [of.confidence, of.inherited, o.toPlaceholder_confidence]; decide
  | guessed low of =>
    rw [of.confidence, of.inherited, o.toPlaceholder_confidence]
    rcases low with rfl | rfl <;> decide

theorem defined_of_le (h : f.Resolved s o) (ht : o.type ≠ .imports)
    (hhigh : 0.9 ≤ f.edge.confidence) : f.Defined s := by
  cases h with
  | exact found of | inherited found of | only found of => exact ⟨_, _, found, of.target⟩
  | imported type _ => exact absurd type ht
  | placeholder of =>
    rw [of.confidence, o.toPlaceholder_confidence] at hhigh
    exact absurd hhigh (by decide)
  | guessed low of =>
    rw [of.confidence, o.toPlaceholder_confidence] at hhigh
    rcases low with rfl | rfl <;> exact absurd hhigh (by decide)

end Finding.Resolved

/-! ## Edges of a file -/

/-- Scores mean what they say. Every edge that resolution or a standard plugin finds in a file has a
positive score, and is marked as a guess exactly if the score is at most `0.3`. In resolution, a
score of `0.9` is that of the edges that are marked as inherited, and an edge with this score or
more leads to a definition of the project, unless it is an import. -/
theorem scores_telling (t : Table) (v : View) (f : FileSketch) (settings : EnrichmentSettings) :
    (∀ e ∈ (t.resolveFile v f).1.edges,
      0 < e.confidence ∧ (e.isDynamic = true ↔ e.confidence ≤ 0.3) ∧
        (e.confidence = 0.9 ↔ e.isInherited = true) ∧
        (e.type ≠ .imports → 0.9 ≤ e.confidence →
          ∃ fqn x, findDefined? v.snapshot fqn = some x ∧ e.target = x.id)) ∧
    ∀ plugin ∈ Plugin.standard, ∃ l, (plugin.analyzeFile settings v f).outcome = .done l ∧
      ∀ found ∈ l, 0 < found.edge.confidence ∧
        (found.edge.isDynamic = true ↔ found.edge.confidence ≤ 0.3) := by
  refine ⟨fun e he => ?_, fun plugin hp => ?_⟩
  · obtain ⟨found, hfound, rfl⟩ := List.mem_map.1 (List.mem_mergeSort.1 he)
    obtain ⟨o, -, hr, -, -⟩ := v.findings_resolved hfound
    obtain ⟨hpos, hlow⟩ := hr.sound.telling
    exact ⟨hpos, hlow, hr.inherited_iff, fun htype => hr.defined_of_le (hr.sound.type ▸ htype)⟩
  · obtain ⟨l, hl⟩ := Plugin.standard_done hp settings v f
    refine ⟨l, hl, fun found hfound => ?_⟩
    obtain ⟨o, hs, -⟩ := Plugin.standard_sound hp hl hfound
    exact hs.telling

/-- A class that inherits a method. -/
def inheriting : View where
  snapshot := ⟨.ofList [("A", { Symbol.ofName "A" "A" .classType with file := "a.go" }),
    ("A.run", { Symbol.ofName "A.run" "run" .method with file := "a.go" }),
    ("B", { Symbol.ofName "B" "B" .classType with
      file := "b.go", metadata := .ofList [("supertypes", .array [.string "A"])] })]⟩
  sketches := .ofList [("b.go", { path := "b.go", language := "go", separator := "." })]

/-- References to its supertype, to the method that it inherits, to an unknown type, and to a method
of something unknown. -/
def referring : FileSketch where
  path := "b.go"
  language := "go"
  separator := "."
  references := [
    { kind := .extendsType, target := .name "A", line := 1, column := 1 },
    { kind := .call, target := .name "run", receiver := .typeName "B", line := 2, column := 1 },
    { kind := .instantiate, target := .name "C", line := 3, column := 1 },
    { kind := .call, target := .name "run", receiver := .expression "x", line := 4, column := 1 }]

/-- All grades occur, and the inherited one is marked. -/
theorem scores_telling_inheriting :
    (inheriting.findings referring).map (·.edge.confidence) = [1.0, 0.9, 0.5, 0.3] ∧
      ∀ e ∈ (Table.empty.resolveFile inheriting referring).1.edges,
        e.confidence = 0.9 ↔ e.isInherited = true :=
  ⟨by decide +kernel,
    fun e he => ((scores_telling Table.empty inheriting referring {}).1 e he).2.2.1⟩

end CodeAtlas
