import Mathlib
import CodeAtlas.Proofs.Project.AlikePasses

/-!
# Failed collections are isolated

A file whose collection fails or takes too long might as well not have been among the changes: apart
from its own record, a run that leaves it out comes to the same graph and the same records. The file
may have been known before in any state, and a store may still hold its rows; the shorter run then
retracts them, which the graph does not show.

Main results:

* `Plan.on_foldl_add`: what is planned for a file depends on its own changes.
* `Run.takeChanges_alike`: the runs are side by side when the first pass begins.
* `collection_failures_isolated`: the runs end side by side.
-/

namespace CodeAtlas

open SortedMap

variable {σ : Type} {D : String → Prop} {names : Set String}

namespace Run

variable {r r' : Run σ}

/-! ## Changed settings -/

/-- The time of a run shows in the record of the settings only. -/
theorem checkSettings_alike (D : String → Prop) (r : Run σ) (now now' : Timestamp) :
    Alike D (r.checkSettings now) (r.checkSettings now') := by
  unfold checkSettings
  split
  · exact .refl D r
  · unfold recordSettings
    dsimp only
    split
    · exact .refl D _
    · generalize r.markAllStale _ = r₁
      refine ⟨rfl, rfl, rfl, .refl _, rfl, rfl, rfl, fun p _ => ?_, fun p => ?_, fun p _ => rfl⟩
      · dsimp only
        rw [get?_insert_eq, get?_insert_eq]
        split
        · rfl
        · exact .refl _
      · rw [Controller.collection?, Controller.collection?]
        dsimp only
        rw [get?_insert_eq, get?_insert_eq]
        split <;> rfl

end Run

/-! ## Plans -/

/-- The file that a change is about. -/
def FileChange.path : FileChange → String
  | .modified s => s.path
  | .removed path => path

namespace Plan

/-- What is planned for a file: whether it goes, and what to examine. -/
def on (plan : Plan) (path : String) : Bool × Option SourceFile :=
  (plan.removals.contains path, plan.modified.get? path)

theorem add_on_of_ne {x : FileChange} {path : String} (h : path ≠ x.path) (plan : Plan) :
    (plan.add x).on path = plan.on path := by
  cases x with
  | modified s =>
    change path ≠ s.path at h
    simp only [on, add, contains_erase, get?_insert_eq, h, ne_eq, not_false_eq_true, decide_true,
      Bool.true_and, if_false]
  | removed p =>
    change path ≠ p at h
    simp only [on, add, StringSet.contains_add, get?_erase_eq, h, decide_false, Bool.false_or,
      if_false]

/-- The last change of a file counts, whatever was planned before. -/
theorem add_on_self (plan plan' : Plan) (x : FileChange) :
    (plan.add x).on x.path = (plan'.add x).on x.path := by
  cases x <;> simp [on, add, FileChange.path, contains_erase, StringSet.contains_add]

/-- What is planned for a file depends on its own changes. -/
theorem on_foldl_add (l : List FileChange) {plan plan' : Plan} {path : String}
    (h : plan.on path = plan'.on path) :
    (l.foldl add plan).on path = ((l.filter fun x => x.path = path).foldl add plan').on path := by
  induction l generalizing plan plan' with
  | nil => exact h
  | cons x rest ih =>
    by_cases hx : x.path = path
    · rw [List.filter_cons_of_pos (by simpa using hx), List.foldl_cons, List.foldl_cons]
      exact ih (hx ▸ add_on_self plan plan' x)
    · rw [List.filter_cons_of_neg (by simpa using hx), List.foldl_cons]
      exact ih ((add_on_of_ne (Ne.symm hx) plan).trans h)

end Plan

/-- The change is kept when the files of `D` are not offered. -/
def FileChange.spares (D : String → Prop) [DecidablePred D] : FileChange → Bool
  | .modified s => ¬D s.path
  | .removed _ => true

theorem FileChange.spares_of_not [DecidablePred D] {x : FileChange} (h : ¬D x.path) :
    x.spares D = true := by
  cases x with
  | modified s => exact decide_eq_true h
  | removed path => rfl

namespace Run

variable {r r' : Run σ} {A : SourceFile → Prop} {changes : List FileChange}

/-- A removal of some earlier run that the store has not taken. -/
def isBuried (r : Run σ) (path : String) : Bool :=
  (r.records.get? path).any FileRecord.isTombstone

theorem plan_start_on (r : Run σ) (path : String) :
    ({ removals := StringSet.ofList (r.records.filter fun _ x => x.isTombstone).keys } :
      Plan).on path = (r.isBuried path, none) := by
  have hcontains : (StringSet.ofList (r.records.filter fun _ x => x.isTombstone).keys).contains
      path = r.isBuried path := by
    rw [Bool.eq_iff_iff, StringSet.contains_ofList, mem_keys, contains, get?_filter, isBuried]
    cases r.records.get? path with
    | none => simp
    | some x => cases h : x.isTombstone <;> simp [Option.filter, h]
  rw [Plan.on, hcontains]
  rfl

theorem Alike.isBuried (h : Alike D r r') {path : String} (hp : ¬D path) :
    r'.isBuried path = r.isBuried path := by
  have htime : ∀ o : Option FileRecord,
      o.any FileRecord.isTombstone = (o.map FileRecord.timeless).any FileRecord.isTombstone := by
    intro o
    cases o <;> rfl
  rw [Run.isBuried, Run.isBuried, htime, h.records path hp, ← htime]

theorem plan_on (r : Run σ) (changes : List FileChange) (path : String) {plan : Plan}
    (h : plan.on path = (r.isBuried path, none)) : (r.plan changes).on path =
      ((changes.filter fun x => x.path = path).foldl Plan.add plan).on path :=
  Plan.on_foldl_add changes ((plan_start_on r path).trans h.symm)

/-- The only change of a file is what is planned for it. -/
theorem plan_on_modified (hnodup : (changes.map FileChange.path).Nodup) {s : SourceFile}
    (hs : .modified s ∈ changes) : (r.plan changes).on s.path = (false, some s) := by
  have hone := filter_key_eq hnodup hs
  change (changes.filter fun x => x.path = s.path) = [.modified s] at hone
  rw [plan_on r changes s.path (plan_start_on r s.path), hone]
  simp [Plan.on, Plan.add, contains_erase]

section

variable [DecidablePred D]

/-- Without its only change a file keeps what is left from earlier runs. -/
theorem plan_on_spared (hnodup : (changes.map FileChange.path).Nodup) {s : SourceFile}
    (hs : .modified s ∈ changes) (hD : D s.path) :
    (r.plan (changes.filter (FileChange.spares D))).on s.path = (r.isBuried s.path, none) := by
  have hone := filter_key_eq hnodup hs
  change (changes.filter fun x => x.path = s.path) = [.modified s] at hone
  rw [plan_on r _ s.path (plan_start_on r s.path), List.filter_comm, hone,
    List.filter_cons_of_neg (by simpa [FileChange.spares] using hD)]
  exact plan_start_on r s.path

theorem plan_on_of_not (h : Alike (fun _ => False) r r') {path : String} (hD : ¬D path) :
    (r'.plan (changes.filter (FileChange.spares D))).on path = (r.plan changes).on path := by
  have hstart := plan_start_on r path
  rw [plan_on r changes path hstart,
    plan_on r' _ path (hstart.trans (by rw [h.isBuried not_false])), List.filter_filter]
  congr 2
  refine List.filter_congr fun x _ => ?_
  by_cases hx : x.path = path
  · simp [hx, FileChange.spares_of_not (D := D) (hx ▸ hD)]
  · simp [hx]

end

end Run

/-! ## Removals -/

/-- There is nothing to remove of a file that the table does not know. -/
theorem Table.removeFile_absent {t : Table} {path : String} (hfile : t.files.get? path = none)
    (hedges : t.edges.get? path = none) : t.removeFile path = (⟨∅, ∅⟩, t) := by
  have hgone : t.goneWith path = { table := t } := by
    rw [goneWith, hfile]
  rw [removeFile_eq, hgone, clearEdges_eq_self hedges]
  rfl

namespace Run

variable {r r' : Run σ} {A : SourceFile → Prop} {changes : List FileChange}

theorem Alike.forget (h : Alike D r r') {path : String} (hp : ¬D path) :
    Alike D { r with records := r.records.erase path }
      { r' with records := r'.records.erase path } := by
  have hcol : ∀ (r : Run σ) p,
      Controller.collection? { r.toController with records := r.records.erase path } p =
        if p = path then none else r.collection? p := by
    intro r p
    rw [Controller.collection?, Controller.collection?]
    dsimp only
    rw [get?_erase_eq]
    split <;> rfl
  refine { h with
    records := fun q hq => ?_, collections := fun q => ?_
    affected := fun q hq => h.affected q fun hD hs => ?_ }
  · dsimp only
    rw [get?_erase_eq, get?_erase_eq]
    split
    · exact .refl _
    · exact h.records q hq
  · rw [hcol, hcol, h.collections]
  · have hne : q ≠ path := by
      rintro rfl
      exact hp hD
    have := hq hD hs
    rwa [hcol, if_neg hne] at this

theorem Alike.unqueue (h : Alike D r r') (path : String) (removed removed' : List String)
    (x x' : RunReport) : Alike D { r with affected := r.affected.erase path, removed, report := x }
      { r' with affected := r'.affected.erase path, removed := removed', report := x' } := by
  refine { h with affected := fun p hp => ?_ }
  dsimp only
  rw [contains_erase, contains_erase, h.affected p hp]

/-- Both runs remove a file. -/
theorem Alike.removeFile (h : Alike D r r') {path : String} (hp : ¬D path) :
    Alike D (r.removeFile path) (r'.removeFile path) := by
  obtain ⟨hsummary, hgraph⟩ := h.table.removeFile path
  have hforget := (h.setTable hgraph).forget hp
  unfold Run.removeFile
  dsimp only
  rw [h.contains_records fun hD => absurd hD hp, h.containsFile, hsummary]
  split
  · exact h
  · exact ((hforget.markAllStale _).drop _ _).unqueue path _ _ _ _

/-- One of the runs removes a file of `D` that the table does not know. -/
theorem Alike.removeFile_right (h : Alike D r r') {path : String} (hD : D path)
    (ho : r'.Orderly names) (hb : r'.Backed) (ht : r'.Tallies A)
    (hcol : r'.collection? path = none) : Alike D r (r'.removeFile path) := by
  rcases removeFile_cases r' path with ⟨hsame, -⟩ | hr
  · rwa [hsame]
  have hfile : r'.table.files.get? path = none := by
    rw [← contains_eq_false_iff, ← Bool.not_eq_true]
    intro hknown
    have hsome := (ht.containsFile_iff hr.path_ne).1 hknown
    rw [Controller.get?_sketches_eq_map, hcol] at hsome
    cases hsome
  have hedges : r'.table.edges.get? path = none :=
    Grounded.get?_edges ⟨ho.counted, hb⟩ hr.path_ne (by rw [hcol]; exact Bool.false_ne_true)
  have hsummary := Table.removeFile_absent hfile hedges
  have hstale : ∀ p, p ∉ (r'.table.removeFile path).1.stale.toList := by
    intro p hp
    rw [hsummary] at hp
    cases hp
  refine ⟨hr.setup.settings.trans h.settings, hr.setup.registry.trans h.registry,
    hr.setup.plugins.trans h.plugins, ?_, hr.cancelled.trans h.cancelled, hr.seq.trans h.seq,
    ?_, fun p hp => ?_, fun p => ?_, fun p hp => ?_⟩
  · rw [hr.table, hsummary]
    exact h.table
  · rw [Bool.eq_iff_iff, hr.settingsAffected, h.settingsAffected]
    simp [hstale]
  · have hne : p ≠ path := by
      rintro rfl
      exact hp hD
    rw [hr.records, if_neg hne, if_neg fun hmem => hstale p hmem.1]
    exact h.records p hp
  · rw [hr.collection?]
    split
    · next heq => rw [← h.collections, heq, hcol]
    · exact h.collections p
  · have hne : p ≠ path := by
      rintro rfl
      have hsome := hp hD hr.path_ne
      rw [← h.collections, hcol] at hsome
      cases hsome
    rw [Bool.eq_iff_iff, hr.affected, h.affected p hp]
    simp [hne, hstale]

/-- What the comparison needs to know of the run that removes more. -/
theorem removeFile_comparable (p : String) (ho : r.Orderly names) (hb : r.Backed)
    (ht : r.Tallies A) (hcol : ∀ q, r'.collection? q = none → r.collection? q = none) :
    (r.removeFile p).Orderly names ∧ (r.removeFile p).Backed ∧ (r.removeFile p).Tallies A ∧
      ∀ q, r'.collection? q = none → (r.removeFile p).collection? q = none := by
  refine removeFile_keeps (I := fun b => b.Orderly names ∧ b.Backed ∧ b.Tallies A ∧
    ∀ q, r'.collection? q = none → b.collection? q = none) ⟨ho, hb, ht, hcol⟩
    fun r'' hr => ⟨hr.orderly ho, hr.backed ho hb, hr.tallies ht, fun q hq => ?_⟩
  rw [hr.collection?]
  split
  · rfl
  · exact hcol q hq

/-- One of the runs removes some files of `D` more, of which it has no sketches. -/
theorem Alike.foldl_removeFile [DecidablePred D] {l l' : List String} (h : Alike D r r')
    (ho : r'.Orderly names) (hb : r'.Backed) (ht : r'.Tallies A)
    (hl : (l'.filter fun p => ¬D p) = l.filter fun p => ¬D p) (hleft : ∀ p ∈ l, ¬D p)
    (hright : ∀ p ∈ l', D p → r'.collection? p = none) :
    Alike D (l.foldl Run.removeFile r) (l'.foldl Run.removeFile r') := by
  refine (foldl_sideBySide (S := fun p => ¬D p)
    (R := fun a b => Alike D a b ∧ b.Orderly names ∧ b.Backed ∧ b.Tallies A ∧
      ∀ p, r'.collection? p = none → b.collection? p = none)
    ?_ ?_ ?_ hl ⟨h, ho, hb, ht, fun _ h => h⟩).1
  · rintro a b p - hp ⟨hab, ho, hb, ht, hcol⟩
    exact ⟨hab.removeFile hp, removeFile_comparable p ho hb ht hcol⟩
  · rintro a b p hmem hp
    exact absurd (hleft p hmem) hp
  · rintro a b p hmem hp ⟨hab, ho, hb, ht, hcol⟩
    have hD : D p := not_not.1 hp
    exact ⟨hab.removeFile_right hD ho hb ht (hcol p (hright p hmem hD)),
      removeFile_comparable p ho hb ht hcol⟩

/-! ## Files to be collected -/

/-- The files to be collected, in order. -/
theorem foldl_examine_due (l : List SourceFile) (acc : Run σ × List SourceFile) :
    (l.foldl examine acc).2 = acc.2 ++ l.filter fun s =>
      FileRecord.need s.fingerprint (acc.1.records.get? s.path) = .collection := by
  induction l generalizing acc with
  | nil => simp
  | cons s rest ih =>
    obtain ⟨hex, hdue⟩ := examine_examined acc.1 acc.2 s
    have hrec : (examine acc s).1.records = acc.1.records :=
      congrArg Controller.records hex.controller
    rw [List.foldl_cons, ih, hrec, show (examine acc s).2 = _ from hdue]
    by_cases hs : FileRecord.need s.fingerprint (acc.1.records.get? s.path) = .collection
    · simp [hs]
    · simp [hs]

theorem examine_of_collection {acc : Run σ × List SourceFile} {s : SourceFile}
    (h : FileRecord.need s.fingerprint (acc.1.records.get? s.path) = .collection) :
    examine acc s = (acc.1, acc.2 ++ [s]) := by
  unfold examine
  simp only [h]

theorem Alike.examine {acc acc' : Run σ × List SourceFile} (h : Alike D acc.1 acc'.1)
    {s : SourceFile} (hs : ¬D s.path) : Alike D (Run.examine acc s).1 (Run.examine acc' s).1 := by
  have hneed := (h.records s.path hs).need s.fingerprint
  unfold Run.examine
  simp only [hneed]
  cases FileRecord.need s.fingerprint (acc.1.records.get? s.path) with
  | nothing => exact h.setReport _ _
  | resolution => exact h.queue s.path
  | collection => exact h

/-- One of the runs examines some files of `D` more, which have to be collected. -/
theorem Alike.foldl_examine [DecidablePred D] {l : List SourceFile} (h : Alike D r r')
    (hD : ∀ s ∈ l, D s.path →
      FileRecord.need s.fingerprint (r.records.get? s.path) = .collection) :
    Alike D (l.foldl Run.examine (r, [])).1
        ((l.filter fun s => ¬D s.path).foldl Run.examine (r', [])).1 ∧
      ((l.filter fun s => ¬D s.path).foldl Run.examine (r', [])).2 =
        (l.foldl Run.examine (r, [])).2.filter fun s => ¬D s.path := by
  have hdue : ((l.filter fun s => ¬D s.path).foldl Run.examine (r', [])).2 =
      (l.foldl Run.examine (r, [])).2.filter fun s => ¬D s.path := by
    rw [foldl_examine_due, foldl_examine_due, List.nil_append, List.nil_append,
      List.filter_filter, List.filter_filter]
    refine List.filter_congr fun s _ => ?_
    by_cases hs : D s.path
    · simp [hs]
    · rw [(h.records s.path hs).need, Bool.and_comm]
  refine ⟨?_, hdue⟩
  rw [List.foldl_filter]
  refine (List.foldl_rel (r := fun (a b : Run σ × List SourceFile) =>
    Alike D a.1 b.1 ∧ a.1.records = r.records) ⟨h, rfl⟩ ?_).1
  rintro s hs a b ⟨hab, hrec⟩
  have hkept := congrArg Controller.records (examine_examined a.1 a.2 s).1.controller
  refine ⟨?_, hkept.trans hrec⟩
  by_cases hDs : D s.path
  · rw [if_neg (by simpa using hDs), examine_of_collection (by rw [hrec]; exact hD s hs hDs)]
    exact hab
  · rw [if_pos (by simpa using hDs)]
    exact hab.examine hDs

/-! ## Taking in the changes -/

/-- The files to be examined are listed under their paths. -/
theorem map_path_plan (r : Run σ) (changes : List FileChange) :
    (r.plan changes).modified.values.map (·.path) = (r.plan changes).modified.keys := by
  unfold values keys
  rw [List.map_map]
  refine List.map_congr_left fun e he => ?_
  exact ((plan_fits r changes).modified (mem_entries_iff.1 he)).1

/-- No file is collected twice. -/
theorem takeChanges_paths_nodup (r : Run σ) (changes : List FileChange) :
    ((r.takeChanges changes).2.map (·.path)).Nodup := by
  unfold takeChanges
  dsimp only
  rw [foldl_examine_due, List.nil_append]
  refine List.Nodup.sublist (List.filter_sublist.map _) ?_
  rw [map_path_plan]
  exact keys_nodup _

section

variable [DecidablePred D]

theorem plan_values_spared (h : Alike (fun _ => False) r r')
    (hnodup : (changes.map FileChange.path).Nodup)
    (hD : ∀ p, D p → ∃ s, s.path = p ∧ .modified s ∈ changes) :
    (r'.plan (changes.filter (FileChange.spares D))).modified.values =
      (r.plan changes).modified.values.filter fun s => ¬D s.path := by
  have hfilter : (r'.plan (changes.filter (FileChange.spares D))).modified =
      (r.plan changes).modified.filter fun p _ => ¬D p := by
    refine SortedMap.ext fun p => ?_
    rw [get?_filter]
    by_cases hp : D p
    · obtain ⟨s, rfl, hs⟩ := hD p hp
      refine (congrArg Prod.snd (plan_on_spared hnodup hs hp)).trans ?_
      cases (r.plan changes).modified.get? s.path <;> simp [Option.filter, hp]
    · refine (congrArg Prod.snd (plan_on_of_not h hp)).trans ?_
      change (r.plan changes).modified.get? p = _
      cases (r.plan changes).modified.get? p <;> simp [Option.filter, hp]
  rw [hfilter]
  unfold values SortedMap.filter
  dsimp only
  rw [List.filter_map]
  refine congrArg (List.map _) (List.filter_congr fun e he => ?_)
  rw [Function.comp_apply, ((plan_fits r changes).modified (mem_entries_iff.1 he)).1]

/-- Without the files of `D`, all of which have to be collected, a run begins the same. -/
theorem takeChanges_alike (h : ∀ D, Alike D r r') (ho : r'.Orderly names) (hb : r'.Backed)
    (ht : r'.Tallies A) (hnodup : (changes.map FileChange.path).Nodup)
    (hD : ∀ p, D p → ∃ s ∈ (r.takeChanges changes).2, s.path = p) :
    Alike D (r.takeChanges changes).1
        (r'.takeChanges (changes.filter (FileChange.spares D))).1 ∧
      (r'.takeChanges (changes.filter (FileChange.spares D))).2 =
        (r.takeChanges changes).2.filter fun s => ¬D s.path := by
  have hoffered : ∀ p, D p → ∃ s, s.path = p ∧ .modified s ∈ changes := by
    intro p hp
    obtain ⟨s, hs, hpath⟩ := hD p hp
    exact ⟨s, hpath, (takeChanges_due hs).2⟩
  have hremoved : Alike D ((r.plan changes).removals.toList.foldl removeFile r)
      ((r'.plan (changes.filter (FileChange.spares D))).removals.toList.foldl removeFile r') :=
    (h D).foldl_removeFile ho hb ht ?_ ?_ ?_
  · unfold takeChanges at hD ⊢
    dsimp only at hD ⊢
    rw [plan_values_spared (h _) hnodup hoffered]
    refine hremoved.foldl_examine fun s hs hDs => ?_
    -- the file that has to be collected is the only one under its path
    obtain ⟨s', hs', hpath⟩ := hD s.path hDs
    rw [foldl_examine_due, List.nil_append, List.mem_filter] at hs'
    have heq : s' = s := by
      refine List.inj_on_of_nodup_map ?_ hs'.1 hs hpath
      rw [map_path_plan]
      exact keys_nodup _
    rw [← heq]
    exact of_decide_eq_true hs'.2
  · refine filter_keys_eq fun p hp => ?_
    exact congrArg Prod.fst (plan_on_of_not (h _) (of_decide_eq_true hp))
  · intro p hp hDp
    obtain ⟨s, rfl, hs⟩ := hoffered p hDp
    have hnot := congrArg Prod.fst (plan_on_modified (r := r) hnodup hs)
    rw [StringSet.mem_toList] at hp
    exact Bool.false_ne_true (hnot.symm.trans hp)
  · intro p hp hDp
    obtain ⟨s, rfl, hs⟩ := hoffered p hDp
    have hburied := congrArg Prod.fst (plan_on_spared (r := r') hnodup hs hDp)
    rw [StringSet.mem_toList] at hp
    have hburied : r'.isBuried s.path = true := hburied.symm.trans hp
    rw [isBuried] at hburied
    rw [Controller.collection?]
    cases hx : r'.records.get? s.path with
    | none => rfl
    | some x =>
      rw [hx] at hburied
      have hnone : x.sketches = none := by
        simp only [Option.any_some, FileRecord.isTombstone, Bool.and_eq_true] at hburied
        exact Option.isNone_iff_eq_none.1 hburied.1.1
      simp [FileRecord.collection?, hnone]

end

end Run

/-! ## Whole runs -/

namespace Controller

variable {c c₀ : Controller σ} {k k' : Conditions} {changes : List FileChange} {full : Bool}

/-- The files whose collection fails or takes too long. -/
def failing (k : Conditions) (changes : List FileChange) (full : Bool) (c : Controller σ) :
    List String :=
  (((c.begun k changes full).1.collectSources k (c.begun k changes full).2).1.filter
    (·.2.isFailure)).map (·.1.path)

/-- The changes without the files whose collection fails or takes too long. -/
def sparing (k : Conditions) (changes : List FileChange) (full : Bool) (c : Controller σ) :
    List FileChange :=
  changes.filter (FileChange.spares (· ∈ c.failing k changes full))

theorem mem_failing {p : String} : p ∈ c.failing k changes full ↔
    ∃ x ∈ ((c.begun k changes full).1.collectSources k (c.begun k changes full).2).1,
      x.2.isFailure = true ∧ x.1.path = p := by
  simp only [failing, List.mem_map, List.mem_filter, and_assoc]

section

variable [Sink σ] {P : RunKind σ} {Q : σ → σ → Prop}

theorem Reaches.backed (hnew : c₀.IsNew) (h : Reaches names P Q c₀ c) : c.Backed :=
  h.induct (I := Backed) hnew.orderly hnew.backed
    (fun hc _ hw _ hb hran => hran.backed hc hw hb) fun _ hb => hb

theorem forgets_of_work (hc : c.Orderly Set.univ) {finished : List String} {r : Run σ}
    (hwork : c.work k changes full = .ok (finished, r)) : r.Forgets ∧ r.sink = c.sink := by
  have hrun : c.run k changes full = .ok (r.deliver k.now finished) := by
    rw [run_eq, hwork]
    rfl
  obtain ⟨finished', r', hran⟩ := ran_of_run hc (within_univ ..) hrun
  cases hwork.symm.trans hran.work
  exact ⟨hran.forgets, (Run.Steps.stays hran.worked.steps).setup.sink.trans
    (begun_setup hc k changes full).sink⟩

/-- Failed collections are isolated: whatever state the project has come to, over a store that takes
every batch, a run over changes of different files and a run without the files that fail to be
collected lead to the same graph and, for all other files, to the same records. Or both stop for the
same reason, and leave the same behind. -/
theorem collection_failures_isolated (hnew : c₀.IsNew) (h : Reaches Set.univ P Q c₀ c)
    (hsink : Sink.Accepts c.sink) (hnodup : (changes.map FileChange.path).Nodup)
    (hk : k'.befalls = k.befalls) : Agree (· ∈ c.failing k changes full)
      (fun x y => x.2.SameProject (· ∈ c.failing k changes full) y.2)
      (c.run k changes full) (c.run k' (c.sparing k changes full) full) := by
  have hc := (h.orderly_sameKind hnew.orderly).1
  have hb := h.backed hnew
  have ht : c.Tallies fun _ => True := h.tallies hnew fun _ _ _ => trivial
  -- a failure is the only result of its file
  have hresults := (Run.collectSources_spec k (c.begun k changes full).1
    (c.begun k changes full).2).2.1
  have hpaths := Run.takeChanges_paths_nodup ((Run.start c full).checkSettings k.now) changes
  have hfail : ∀ x ∈ ((c.begun k changes full).1.collectSources k (c.begun k changes full).2).1,
      x.1.path ∈ c.failing k changes full → x.2.isFailure = true := by
    intro x hx hmem
    obtain ⟨y, hy, hfailed, hpath⟩ := mem_failing.1 hmem
    have hone : y = x := by
      refine List.inj_on_of_nodup_map (f := fun x => x.1.path) ?_ hy hx hpath
      have := congrArg (List.map (·.path)) hresults
      rw [List.map_map] at this
      exact this ▸ hpaths
    exact hone ▸ hfailed
  have hdue : ∀ p, p ∈ c.failing k changes full → ∃ s ∈ (c.begun k changes full).2,
      s.path = p := by
    intro p hp
    obtain ⟨x, hx, -, hpath⟩ := mem_failing.1 hp
    exact ⟨x.1, hresults ▸ List.mem_map_of_mem hx, hpath⟩
  have hwork : Agree (· ∈ c.failing k changes full)
      (Run.AlikeWith (· ∈ c.failing k changes full)) (c.work k changes full)
      (c.work k' (c.sparing k changes full) full) := by
    obtain ⟨hbegun, hdue'⟩ := Run.takeChanges_alike
      (fun D => Run.checkSettings_alike D (Run.start c full) k.now k'.now)
      (Run.checkSettings_orderly (Run.start_orderly hc full) k'.now)
      (Run.checkSettings_backed (r := Run.start c full) hb k'.now)
      (Run.checkSettings_tallies (start_tallies ht full) k'.now) hnodup hdue
    have hg : (c.begun k changes full).1.Grounded :=
      ⟨(begun_orderly hc k changes full).counted, begun_backed hc hb k changes full⟩
    unfold work
    rw [show (c.begun k' (c.sparing k changes full) full).2 = _ from hdue']
    exact hbegun.work hg hk hfail
  rw [run_eq, run_eq]
  rcases hx : c.work k changes full with ⟨e, d⟩ | ⟨finished, r⟩ <;>
    rcases hy : c.work k' (c.sparing k changes full) full with ⟨e', d'⟩ | ⟨finished', r'⟩ <;>
    rw [hx, hy] at hwork
  · cases hwork with
    | error h => exact .error h
  · cases hwork
  · cases hwork
  · cases hwork with
    | ok h =>
      obtain ⟨heq, halike⟩ := h
      obtain rfl : finished' = finished := heq
      obtain ⟨hf, hs⟩ := forgets_of_work hc hx
      obtain ⟨hf', hs'⟩ := forgets_of_work hc hy
      exact .ok (halike.deliver (hs ▸ hsink) (hs' ▸ hsink) hf hf' k.now k'.now finished')

end

/-- A file that refers to itself; no other file can be read. -/
def readable : Controller MemoryStore := ofSketches [.extending "a.go" "a.go"]

theorem failing_readable :
    readable.failing {} [.seen "a.go", .seen "broken.go"] false = ["broken.go"] := by
  decide +kernel

/-- The graph that comes of a file is the same whether or not one that cannot be read stands beside
it. -/
theorem collection_failures_isolated_readable :
    readable.failing {} [.seen "a.go", .seen "broken.go"] false = ["broken.go"] ∧
      Agree (· ∈ readable.failing {} [.seen "a.go", .seen "broken.go"] false)
        (fun x y => x.2.SameProject
          (· ∈ readable.failing {} [.seen "a.go", .seen "broken.go"] false) y.2)
        (readable.run {} [.seen "a.go", .seen "broken.go"] false)
        (readable.run {} (readable.sparing {} [.seen "a.go", .seen "broken.go"] false) false) :=
  ⟨failing_readable, collection_failures_isolated (P := fun _ _ _ _ _ => True)
    (Q := fun _ _ => True) ⟨rfl, rfl, rfl⟩ .start (MemoryStore.accepts rfl) (by decide) rfl⟩

end Controller

end CodeAtlas
