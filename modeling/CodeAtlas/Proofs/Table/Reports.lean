import Mathlib
import CodeAtlas.Proofs.Table.Placeholders

/-!
# Reports and the graph

A table collects reports besides its graph, and nothing that a table does reads them. So tables that
differ in their reports only answer every operation alike, and still differ in their reports only
afterwards.

Main results:

* `SameGraph.commitFile`, `SameGraph.removeFile`: files come and go.
* `SameGraph.replaceEdges`, `SameGraph.appendEdges`, `SameGraph.clearEdges`: edges change.
* `SameGraph.foldl_teach`, `SameGraph.pruneExternals`: placeholders come and go.
-/

namespace CodeAtlas.Table

open SortedMap

variable {t t' : Table} {d : List Diagnostic}

/-- The table with other reports. -/
def withReports (d : List Diagnostic) (t : Table) : Table := { t with diagnostics := d }

theorem withReports_same (t : Table) (d : List Diagnostic) : SameGraph t (t.withReports d) :=
  .setDiagnostics t d

theorem SameGraph.exists_eq (h : SameGraph t t') : ∃ d, t' = t.withReports d :=
  ⟨t'.diagnostics, ((withReports_same t t'.diagnostics).symm.trans h).eq rfl⟩

/-! ## Operations without reports -/

/-- Operations that make no report leave the reports alone. -/
theorem foldl_withReports {α : Type} {f : Table → α → Table}
    (hf : ∀ t a, f (t.withReports d) a = (f t a).withReports d) (l : List α) (t : Table) :
    l.foldl f (t.withReports d) = (l.foldl f t).withReports d :=
  List.foldl_hom (withReports d) hf

theorem clearEdges_withReports (t : Table) (owner : String) :
    (t.withReports d).clearEdges owner = (t.clearEdges owner).withReports d :=
  foldl_withReports (fun _ _ => rfl) _ (t.setEdges owner [])

theorem dropEdgesTo_withReports (targets : IdSet) (t : Table) (owner : String) :
    dropEdgesTo targets (t.withReports d) owner = (dropEdgesTo targets t owner).withReports d :=
  foldl_withReports (fun _ _ => rfl) _ (t.setEdges owner _)

theorem cascade_withReports (t : Table) (removed : IdSet) (file : String) :
    (t.withReports d).cascade removed file =
      ((t.cascade removed file).1, (t.cascade removed file).2.withReports d) :=
  Prod.ext rfl (foldl_withReports (fun t a => dropEdgesTo_withReports removed t a) _ t)

theorem replaceEdges_withReports (t : Table) (owner : String) (edges : List Edge) :
    (t.withReports d).replaceEdges owner edges =
      (t.replaceEdges owner edges).map (withReports d) := by
  unfold replaceEdges
  rw [show (t.withReports d).admitEdges owner edges = t.admitEdges owner edges from rfl]
  cases t.admitEdges owner edges with
  | error e => rfl
  | ok edges =>
    refine congrArg Except.ok ?_
    have hadd : (edges.map (·.target)).foldl (addDependent owner)
        ((t.withReports d).setEdges owner edges) =
          ((edges.map (·.target)).foldl (addDependent owner) (t.setEdges owner edges)).withReports d :=
      foldl_withReports (fun _ _ => rfl) _ (t.setEdges owner edges)
    rw [hadd]
    exact foldl_withReports (fun _ _ => rfl) _ _

theorem appendEdge_withReports (owner : String) (t : Table) (e : Edge) :
    appendEdge owner (t.withReports d) e = (appendEdge owner t e).withReports d := by
  unfold appendEdge
  dsimp only
  rw [show (t.withReports d).edgesOf owner = t.edgesOf owner from rfl]
  split <;> rfl

theorem appendEdges_withReports (t : Table) (owner : String) (edges : List Edge) :
    (t.withReports d).appendEdges owner edges =
      (t.appendEdges owner edges).map (withReports d) := by
  unfold appendEdges
  rw [show (t.withReports d).admitEdges owner edges = t.admitEdges owner edges from rfl]
  cases t.admitEdges owner edges with
  | error e => rfl
  | ok edges =>
    have hfold := foldl_withReports (d := d) (appendEdge_withReports owner) edges t
    change (if edges.isEmpty then Except.ok (t.withReports d) else _) =
      (if edges.isEmpty then Except.ok t else _ : Except AtlasError Table).map (withReports d)
    rw [hfold]
    split <;> rfl

theorem ensurePlaceholder_withReports (t : Table) (template : Symbol) :
    (t.withReports d).ensurePlaceholder template =
      ((t.ensurePlaceholder template).1, (t.ensurePlaceholder template).2.withReports d) := by
  unfold ensurePlaceholder
  rw [show (t.withReports d).symbols = t.symbols from rfl]
  split <;> rfl

theorem pruneExternals_withReports (t : Table) : (t.withReports d).pruneExternals =
      (t.pruneExternals.1, t.pruneExternals.2.withReports d) :=
  Prod.ext rfl (foldl_withReports (fun _ _ => rfl) _ t)

/-! ## Withdrawing definitions -/

theorem withdraw_withReports (t : Table) (fqn file : String) : (t.withReports d).withdraw fqn file =
      ((t.withdraw fqn file).1, (t.withdraw fqn file).2.withReports d) := by
  unfold withdraw
  rw [show (t.withReports d).purgeShadowed fqn file = (t.purgeShadowed fqn file).withReports d
    from rfl]
  generalize t.purgeShadowed fqn file = t
  dsimp only
  rw [show (t.withReports d).symbols = t.symbols from rfl,
    show (t.withReports d).shadowed = t.shadowed from rfl]
  cases t.symbols.get? fqn with
  | none => rfl
  | some s =>
    dsimp only
    split
    · rfl
    · cases t.shadowed.getD fqn [] with
      | cons previous rest => rfl
      | nil =>
        by_cases hm : t.modules.contains fqn = true
        · simp only [unindexName, show (t.withReports d).modules = t.modules from rfl, hm, if_true]
          rfl
        · simp only [unindexName, show (t.withReports d).modules = t.modules from rfl, hm]
          rfl

theorem releaseModule_withReports (t : Table) (ns file : String) :
    (t.withReports d).releaseModule ns file =
      ((t.releaseModule ns file).1, (t.releaseModule ns file).2.withReports d) := by
  unfold releaseModule
  dsimp only [withReports]
  split
  · rfl
  · split
    · split
      · split <;> rfl
      · rfl
    · rfl

theorem acquireModule_withReports (t : Table) (ns file : String) :
    (t.withReports d).acquireModule ns file = (t.acquireModule ns file).withReports d := by
  unfold acquireModule
  dsimp only [withReports]
  split <;> rfl

/-- The running result with other reports. -/
def Withdrawn.withReports (d : List Diagnostic) (w : Withdrawn) : Withdrawn :=
  { w with table := w.table.withReports d }

theorem step_withReports (file : String) (w : Withdrawn) (fqn : String) :
    (w.withReports d).step file fqn = (w.step file fqn).withReports d := by
  unfold Withdrawn.step
  rw [show (w.withReports d).table = w.table.withReports d from rfl, withdraw_withReports]
  rcases w.table.withdraw fqn file with ⟨_ | _ | _, t'⟩ <;> rfl

theorem withdrawAll_withReports (t : Table) (file : String) (fqns : List String) :
    (t.withReports d).withdrawAll file fqns = (t.withdrawAll file fqns).withReports d := by
  change fqns.foldl (Withdrawn.step file) (Withdrawn.withReports d { table := t }) = _
  exact List.foldl_hom (Withdrawn.withReports d) (step_withReports file)

theorem release_withReports (w : Withdrawn) (ns file : String) :
    (w.withReports d).release ns file = (w.release ns file).withReports d := by
  unfold Withdrawn.release
  rw [show (w.withReports d).table = w.table.withReports d from rfl, releaseModule_withReports]
  rcases w.table.releaseModule ns file with ⟨_ | _, t'⟩ <;> rfl

theorem declare_withReports (w : Withdrawn) (file : String) (old ns : Option String) :
    (w.withReports d).declare file old ns = (w.declare file old ns).withReports d := by
  have hacquire : ∀ (w : Withdrawn) n,
      ({ w.withReports d with table := (w.withReports d).table.acquireModule n file } : Withdrawn) =
        Withdrawn.withReports d { w with table := w.table.acquireModule n file } := fun w n => by
    rw [show (w.withReports d).table = w.table.withReports d from rfl, acquireModule_withReports]
    rfl
  unfold Withdrawn.declare
  split
  · rfl
  · cases old with
    | none =>
      cases ns with
      | none => rfl
      | some n => exact hacquire w n
    | some o =>
      dsimp only
      rw [release_withReports]
      cases ns with
      | none => rfl
      | some n => exact hacquire _ n

theorem goneWith_withReports (t : Table) (file : String) :
    (t.withReports d).goneWith file = (t.goneWith file).withReports d := by
  unfold goneWith
  rw [show (t.withReports d).files = t.files from rfl]
  cases t.files.get? file with
  | none => rfl
  | some entry =>
    have hall := withdrawAll_withReports (d := d) { t with files := t.files.erase file } file
      entry.fqns
    dsimp only
    rw [show ({ t.withReports d with files := t.files.erase file } : Table) =
      ({ t with files := t.files.erase file } : Table).withReports d from rfl, hall]
    cases entry.moduleName with
    | none => rfl
    | some ns => exact release_withReports _ ns file

theorem removeFile_withReports (t : Table) (file : String) : (t.withReports d).removeFile file =
      ((t.removeFile file).1, (t.removeFile file).2.withReports d) := by
  rw [removeFile_eq, removeFile_eq, goneWith_withReports]
  set w := t.goneWith file
  rw [show (w.withReports d).table = w.table.withReports d from rfl, clearEdges_withReports,
    show (w.withReports d).removed = w.removed from rfl, cascade_withReports]
  rfl

/-! ## Operations with reports -/

namespace SameGraph

variable (h : SameGraph t t')

include h

theorem clearEdges (owner : String) : SameGraph (t.clearEdges owner) (t'.clearEdges owner) := by
  obtain ⟨d, rfl⟩ := h.exists_eq
  rw [clearEdges_withReports]
  exact withReports_same _ d

theorem removeFile (file : String) : (t'.removeFile file).1 = (t.removeFile file).1 ∧
      SameGraph (t.removeFile file).2 (t'.removeFile file).2 := by
  obtain ⟨d, rfl⟩ := h.exists_eq
  rw [removeFile_withReports]
  exact ⟨rfl, withReports_same _ d⟩

theorem pruneExternals :
    t'.pruneExternals.1 = t.pruneExternals.1 ∧ SameGraph t.pruneExternals.2 t'.pruneExternals.2 := by
  obtain ⟨d, rfl⟩ := h.exists_eq
  rw [pruneExternals_withReports]
  exact ⟨rfl, withReports_same _ d⟩

theorem ensurePlaceholder (template : Symbol) :
    SameGraph (t.ensurePlaceholder template).2 (t'.ensurePlaceholder template).2 := by
  obtain ⟨d, rfl⟩ := h.exists_eq
  rw [ensurePlaceholder_withReports]
  exact withReports_same _ d

theorem inconsistency? : t'.inconsistency? = t.inconsistency? := by
  obtain ⟨d, rfl⟩ := h.exists_eq
  rfl

omit h in
/-- Two attempts to change the edges: both refused for the same reason, or both accepted. -/
theorem of_map {x x' : Except AtlasError Table} (h : x' = x.map (withReports d)) :
    (∃ e, x = .error e ∧ x' = .error e) ∨ ∃ t t', x = .ok t ∧ x' = .ok t' ∧ SameGraph t t' := by
  cases x with
  | error e => exact .inl ⟨e, rfl, h⟩
  | ok t => exact .inr ⟨t, _, rfl, h, withReports_same t d⟩

theorem replaceEdges (owner : String) (edges : List Edge) :
    (∃ e, t.replaceEdges owner edges = .error e ∧ t'.replaceEdges owner edges = .error e) ∨
      ∃ u u', t.replaceEdges owner edges = .ok u ∧ t'.replaceEdges owner edges = .ok u' ∧
        SameGraph u u' := by
  obtain ⟨d, rfl⟩ := h.exists_eq
  exact of_map (replaceEdges_withReports t owner edges)

theorem appendEdges (owner : String) (edges : List Edge) :
    (∃ e, t.appendEdges owner edges = .error e ∧ t'.appendEdges owner edges = .error e) ∨
      ∃ u u', t.appendEdges owner edges = .ok u ∧ t'.appendEdges owner edges = .ok u' ∧
        SameGraph u u' := by
  obtain ⟨d, rfl⟩ := h.exists_eq
  exact of_map (appendEdges_withReports t owner edges)

omit h in
theorem foldl {α : Type} {f : Table → α → Table}
    (hf : ∀ {t t'}, SameGraph t t' → ∀ a, SameGraph (f t a) (f t' a)) (l : List α)
    (h : SameGraph t t') : SameGraph (l.foldl f t) (l.foldl f t') := by
  induction l generalizing t t' with
  | nil => exact h
  | cons a rest ih => exact ih (hf h a)

/-- Both tables get a report. -/
theorem record_record (x x' : Diagnostic) : SameGraph (t.record x) (t'.record x') :=
  ((record t x).symm.trans h).trans (record t' x')

theorem teach (f : Finding) : SameGraph (f.teach t) (f.teach t') := by
  unfold Finding.teach
  rcases f.placeholder with _ | s <;> dsimp only <;> split
  · exact h.record_record _ _
  · exact h
  · exact (h.record_record _ _).ensurePlaceholder s
  · exact h.ensurePlaceholder s

theorem foldl_teach (found : List Finding) :
    SameGraph (found.foldl Finding.teach t) (found.foldl Finding.teach t') :=
  foldl (fun h f => h.teach f) found h

theorem insertSymbol (s : Symbol) : (t'.insertSymbol s).1 = (t.insertSymbol s).1 ∧
      SameGraph (t.insertSymbol s).2 (t'.insertSymbol s).2 := by
  obtain ⟨d, rfl⟩ := h.exists_eq
  unfold Table.insertSymbol
  dsimp only [withReports]
  split
  · exact ⟨rfl, withReports_same _ d⟩
  · refine ⟨rfl, ?_⟩
    split <;> split <;> exact withReports_same _ _

theorem commitSymbol (file : String) (summary : CommitSummary) (s : Symbol) :
    (Table.commitSymbol file (summary, t') s).1 = (Table.commitSymbol file (summary, t) s).1 ∧
      SameGraph (Table.commitSymbol file (summary, t) s).2
        (Table.commitSymbol file (summary, t') s).2 := by
  have hpurged : SameGraph (t.purgeShadowed s.fqn file) (t'.purgeShadowed s.fqn file) := by
    obtain ⟨d, rfl⟩ := h.exists_eq
    exact withReports_same _ d
  obtain ⟨hshadows, hsame⟩ := hpurged.insertSymbol s
  refine ⟨?_, hsame⟩
  unfold Table.commitSymbol
  dsimp only
  rw [hshadows]

theorem foldl_commitSymbol (file : String) (symbols : List Symbol) (summary : CommitSummary) :
    (symbols.foldl (Table.commitSymbol file) (summary, t')).1 =
        (symbols.foldl (Table.commitSymbol file) (summary, t)).1 ∧
      SameGraph (symbols.foldl (Table.commitSymbol file) (summary, t)).2
        (symbols.foldl (Table.commitSymbol file) (summary, t')).2 := by
  induction symbols generalizing t t' summary with
  | nil => exact ⟨rfl, h⟩
  | cons s rest ih =>
    obtain ⟨hsum, hsame⟩ := h.commitSymbol file summary s
    have hpair : Table.commitSymbol file (summary, t') s =
        ((Table.commitSymbol file (summary, t) s).1, (Table.commitSymbol file (summary, t') s).2) :=
      Prod.ext hsum rfl
    rw [List.foldl_cons, List.foldl_cons, hpair]
    exact ih hsame _

theorem cascade (removed : IdSet) (file : String) :
    (t'.cascade removed file).1 = (t.cascade removed file).1 ∧
      SameGraph (t.cascade removed file).2 (t'.cascade removed file).2 := by
  obtain ⟨d, rfl⟩ := h.exists_eq
  rw [cascade_withReports]
  exact ⟨rfl, withReports_same _ d⟩

theorem insertFile (file : String) (entry : FileEntry) :
    SameGraph { t with files := t.files.insert file entry }
      { t' with files := t'.files.insert file entry } := by
  obtain ⟨d, rfl⟩ := h.exists_eq
  exact withReports_same _ d

theorem commitAdmitted (file : String) (symbols : List Symbol) :
    (t'.commitAdmitted file symbols).1 = (t.commitAdmitted file symbols).1 ∧
      SameGraph (t.commitAdmitted file symbols).2 (t'.commitAdmitted file symbols).2 := by
  obtain ⟨d, rfl⟩ := h.exists_eq
  unfold Table.commitAdmitted
  dsimp only
  rw [show (t.withReports d).files = t.files from rfl, withdrawAll_withReports,
    declare_withReports]
  set w := (t.withdrawAll file _).declare file _ _
  obtain ⟨hsum, hsame⟩ := (withReports_same w.table d).foldl_commitSymbol file symbols {}
  obtain ⟨howners, hcascade⟩ := (hsame.insertFile file
    ⟨symbols.map (·.fqn), declaredModule? symbols⟩).cascade w.removed file
  refine ⟨?_, hcascade⟩
  rw [show (w.withReports d).table = w.table.withReports d from rfl,
    show (w.withReports d).removed = w.removed from rfl, hsum, howners]
  rfl

theorem commitFile (file : String) (symbols : List Symbol) :
    (t'.commitFile file symbols).1 = (t.commitFile file symbols).1 ∧
      SameGraph (t.commitFile file symbols).2 (t'.commitFile file symbols).2 := by
  obtain ⟨d, rfl⟩ := h.exists_eq
  have hsame : ∀ l admitted reports, (t.withReports d).admitSymbols file l admitted reports =
      t.admitSymbols file l admitted reports := by
    intro l
    induction l with
    | nil => exact fun _ _ => rfl
    | cons s rest ih =>
      intro admitted reports
      simp only [admitSymbols, ih]
      rfl
  unfold Table.commitFile
  dsimp only
  rw [hsame]
  rcases t.admitSymbols file symbols [] [] with ⟨_ | admitted, reports⟩
  · exact ⟨rfl, withReports_same _ _⟩
  · have hreports : SameGraph ({ t with diagnostics := t.diagnostics ++ reports })
        { t.withReports d with diagnostics := (t.withReports d).diagnostics ++ reports } :=
      withReports_same _ _
    obtain ⟨hsum, hsame⟩ := hreports.commitAdmitted file admitted
    exact ⟨congrArg Except.ok hsum, hsame⟩

end SameGraph

end CodeAtlas.Table
