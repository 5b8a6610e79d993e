import Mathlib
import CodeAtlas.Proofs.Project.Working
import CodeAtlas.Proofs.Table.Ledger

/-!
# The ledger of a run

The table of a project always records a ledger of definitions, and every step of a run makes one
entry in it at most.

Main results:

* `Step.notes`: what one step does to the ledger.
* `Steps.accounted`, `begun_accounted`: a run never loses it.
-/

namespace CodeAtlas

open SortedMap

variable {σ : Type} {names : Set String}

namespace Run

variable {due : List SourceFile} {r r' : Run σ} {l l' : Table.Ledger}

/-- What a step does to the ledger. -/
inductive Notes (due : List SourceFile) (r r' : Run σ) (l : Table.Ledger) : Table.Ledger → Prop
  | same (collections : ∀ p, r'.collection? p = r.collection? p) : Notes due r r' l l
  | commit {c : Collected} {summary : CommitSummary} (h : CommitStep due c summary r r') :
      Notes due r r' l
        ((c.source.path, Table.Ledger.definitionsOf c.symbols) :: l.without c.source.path)
  | adopt (h : AdoptStep due r r') :
      Notes due r r' l ((settingsFile, Table.Ledger.definitionsOf [settingsSymbol]) ::
        l.without settingsFile)
  | retire (h : RetireStep due r r') : Notes due r r' l (l.without settingsFile)

theorem Step.notes (hs : Step names due r r') (hc : r.Orderly names) (h : r.table.Records l) :
    ∃ l', Notes due r r' l l' ∧ r'.table.Records l' := by
  cases hs with
  | records hs => exact ⟨l, .same hs.collection?, h.of_sameSymbols hs.same.symbols⟩
  | commit hs =>
    obtain ⟨t, ht, hsame⟩ := hs.table
    exact ⟨_, .commit hs, (h.commitFile_ok hs.path.2 ht).of_sameSymbols hsame.symbols⟩
  | edges hs => exact ⟨l, .same hs.collection?, h.of_sameSymbols hs.rewires.same⟩
  | learn hs =>
    exact ⟨l, .same (Controller.collection?_of_records hs.records),
      h.of_taught hs.taught (hs.carries hc).1.table.ok⟩
  | adopt hs =>
    obtain ⟨summary, ht⟩ := hs.table
    exact ⟨_, .adopt hs, h.commitFile_ok (by decide) ht⟩
  | retire hs => exact ⟨_, .retire hs, hs.table ▸ h.removeFile settingsFile⟩
  | prune hs =>
    exact ⟨l, .same (Controller.collection?_of_records hs.records), hs.table ▸ h.pruneExternals⟩

theorem Steps.accounted (hs : Steps names due r r') (hc : r.Covered names due)
    (h : ∃ l, r.table.Records l) : ∃ l, r'.table.Records l := by
  induction hs with
  | refl => exact h
  | tail hs hstep ih =>
    obtain ⟨l, hl⟩ := ih
    obtain ⟨l', -, hl'⟩ := hstep.notes (hc.steps hs) hl
    exact ⟨l', hl'⟩

end Run

namespace Controller

theorem begun_accounted {c : Controller σ} (h : ∃ l, c.table.Records l) (k : Conditions)
    (changes : List FileChange) (full : Bool) :
    ∃ l, (c.begun k changes full).1.table.Records l := by
  refine Run.takeChanges_induct (I := fun r => ∃ l, r.table.Records l) changes ?_
    (fun r r' path ⟨l, hl⟩ hr => ⟨_, hr.table ▸ hl.removeFile path⟩)
    fun r r' s h he => he.controller ▸ h
  rwa [Run.checkSettings_table]

end Controller

end CodeAtlas
