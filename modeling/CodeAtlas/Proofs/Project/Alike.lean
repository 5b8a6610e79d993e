import Mathlib
import CodeAtlas.Proofs.Project.Frame
import CodeAtlas.Proofs.Table.Reports

/-!
# Runs side by side

Two runs that agree on everything that steers the rest of a run, and differ in reports, in times and
in the records of some files `D`. A file of `D` without sketches may be queued in one of the runs
only: it has no edge to lose, and there is nothing to resolve.

Main results:

* `Alike`, `Agree`: runs side by side, and outcomes side by side.
* `foldl_sideBySide`: two walks over lists that agree on what is of concern.
* `Alike.collect`: the first pass, when the files that one run collects in addition fail.
-/

namespace CodeAtlas

open SortedMap

variable {σ : Type} {D : String → Prop}

/-! ## Records without times -/

namespace FileRecord

variable {o o' : Option FileRecord} {f f' : FileRecord → FileRecord} {g : FileState → FileState}

/-- The record without the time of its last resolution. -/
def timeless (x : FileRecord) : FileRecord := { x with resolvedAt := none }

/-- Records that differ at most in the time of the last resolution. -/
def SameButTime (o o' : Option FileRecord) : Prop := o'.map timeless = o.map timeless

/-- Besides the time, a revision changes the state of a record, and looks at nothing else. -/
def Moves (g : FileState → FileState) (f : FileRecord → FileRecord) : Prop :=
  ∀ x, (f x).timeless = { x.timeless with state := g x.state }

theorem SameButTime.refl (o : Option FileRecord) : SameButTime o o := rfl

theorem SameButTime.isSome (h : SameButTime o o') : o'.isSome = o.isSome := by
  have := congrArg Option.isSome h
  rwa [Option.isSome_map, Option.isSome_map] at this

theorem SameButTime.map (h : SameButTime o o') (hf : Moves g f) (hf' : Moves g f') :
    SameButTime (o.map f) (o'.map f') := by
  unfold SameButTime at h ⊢
  cases o with
  | none =>
    rw [Option.map_none, Option.map_eq_none_iff] at h
    rw [h]
    rfl
  | some x =>
    obtain ⟨y, rfl, hy⟩ := Option.map_eq_some_iff.1 h
    have hstate : y.timeless.state = x.timeless.state := by rw [hy]
    simp only [Option.map_some]
    rw [hf, hf', hy, show y.state = x.state from hstate]

theorem moves_outdated : Moves (fun s => if s == .failed then s else .stale) outdated := by
  intro x
  by_cases h : x.state = .failed <;> simp [outdated, timeless, h]

theorem moves_ready : Moves (fun s => if s == .failed then s else .collected) ready := by
  intro x
  by_cases h : x.state = .failed <;> simp [ready, timeless, h]

@[simp] theorem ready_collection? (x : FileRecord) : x.ready.collection? = x.collection? := by
  unfold ready
  split <;> rfl

theorem moves_stored (now : Timestamp) :
    Moves (fun s => if s == .collected then .resolved else s) (stored now) := by
  intro x
  by_cases h : x.state = .collected <;> simp [stored, timeless, h]

theorem moves_cleared : Moves (fun s => if s == .resolved then .stale else s)
    fun x => if x.state == .resolved then { x with state := .stale } else x := by
  intro x
  by_cases h : x.state = .resolved <;> simp [timeless, h]

theorem SameButTime.need (h : SameButTime o o') (fingerprint : String) :
    FileRecord.need fingerprint o' = FileRecord.need fingerprint o := by
  have htime : ∀ o : Option FileRecord,
      FileRecord.need fingerprint o = FileRecord.need fingerprint (o.map timeless) := by
    intro o
    cases o <;> rfl
  rw [htime, h, ← htime]

end FileRecord

open FileRecord (SameButTime Moves)

/-! ## Side by side -/

/-- Projects with the same graph, and the same records outside of `D` up to times. -/
structure Controller.SameProject (D : String → Prop) (c c' : Controller σ) : Prop where
  table : c.table.SameGraph c'.table
  records : ∀ p, ¬D p → SameButTime (c.records.get? p) (c'.records.get? p)

/-- Outcomes side by side. -/
inductive Agree {α β : Type} (D : String → Prop) (R : α → β → Prop) :
    Except (Halt σ) α → Except (Halt σ) β → Prop
  | ok {a : α} {b : β} (h : R a b) : Agree D R (.ok a) (.ok b)
  | error {e : AtlasError} {c c' : Controller σ} (h : c.SameProject D c') :
      Agree D R (.error ⟨e, c⟩) (.error ⟨e, c'⟩)

namespace Agree

variable {α β γ δ ι : Type} {R : α → β → Prop} {S : γ → δ → Prop} {x : Except (Halt σ) α}
  {y : Except (Halt σ) β}

theorem bind (h : Agree D R x y) {f : α → Except (Halt σ) γ} {g : β → Except (Halt σ) δ}
    (hfg : ∀ {a b}, R a b → Agree D S (f a) (g b)) : Agree D S (x >>= f) (y >>= g) := by
  cases h with
  | ok h => exact hfg h
  | error h => exact .error h

theorem foldlM {f : α → ι → Except (Halt σ) α} {g : β → ι → Except (Halt σ) β} {l : List ι}
    (hfg : ∀ {a b}, ∀ i ∈ l, R a b → Agree D R (f a i) (g b i)) {a : α} {b : β} (h : R a b) :
    Agree D R (l.foldlM f a) (l.foldlM g b) := by
  induction l generalizing a b with
  | nil => exact .ok h
  | cons i rest ih =>
    rw [List.foldlM_cons, List.foldlM_cons]
    exact (hfg i (List.mem_cons_self ..) h).bind fun h' =>
      ih (fun j hj => hfg j (List.mem_cons_of_mem _ hj)) h'

end Agree

/-- An owner without an edge has nothing to lose. -/
theorem Table.clearEdges_eq_self {t : Table} {owner : String} (h : t.edges.get? owner = none) :
    t.clearEdges owner = t := by
  rw [clearEdges, edgesOf, getD_of_none h]
  change t.setEdges owner [] = t
  rw [setEdges, List.isEmpty_nil, if_pos rfl, erase_eq_self h]

/-- Step by step through two lists that have the same members in `S`, the others being of no
concern. -/
theorem foldl_sideBySide {α β ι : Type} {R : α → β → Prop} {S : ι → Prop} [DecidablePred S]
    {f : α → ι → α} {g : β → ι → β} {l l' : List ι}
    (hboth : ∀ {a b i}, i ∈ l → S i → R a b → R (f a i) (g b i))
    (hleft : ∀ {a b i}, i ∈ l → ¬S i → R a b → R (f a i) b)
    (hright : ∀ {a b i}, i ∈ l' → ¬S i → R a b → R a (g b i))
    (hl : l'.filter S = l.filter S) {a : α} {b : β} (h : R a b) :
    R (l.foldl f a) (l'.foldl g b) := by
  induction l generalizing l' a b with
  | nil =>
    induction l' generalizing b with
    | nil => exact h
    | cons j rest' ih =>
      have hj : ¬S j := fun hj => by
        rw [List.filter_cons_of_pos (by simpa using hj)] at hl
        cases hl
      rw [List.filter_cons_of_neg (by simpa using hj)] at hl
      exact ih (fun hi => hright (List.mem_cons_of_mem _ hi)) hl
        (hright (List.mem_cons_self ..) hj h)
  | cons i rest ih =>
    have hrest : ∀ {l'' : List ι}, (∀ j ∈ l'', j ∈ l') → l''.filter S = rest.filter S →
        ∀ {a b}, R a b → R (rest.foldl f a) (l''.foldl g b) := fun {_} hsub hl' {_ _} =>
      ih (fun hj => hboth (List.mem_cons_of_mem _ hj))
        (fun hj => hleft (List.mem_cons_of_mem _ hj)) (fun hj => hright (hsub _ hj)) hl'
    by_cases hi : S i
    · rw [List.filter_cons_of_pos (by simpa using hi)] at hl
      clear ih
      -- the other list skips what is of no concern until it comes to the same member
      induction l' generalizing b with
      | nil => cases hl
      | cons j rest' ih' =>
        have hsub : ∀ x ∈ rest', x ∈ j :: rest' := fun x hx => List.mem_cons_of_mem _ hx
        by_cases hj : S j
        · rw [List.filter_cons_of_pos (by simpa using hj)] at hl
          obtain ⟨rfl, htail⟩ := List.cons.inj hl
          exact hrest hsub htail (hboth (List.mem_cons_self ..) hj h)
        · rw [List.filter_cons_of_neg (by simpa using hj)] at hl
          exact ih' (fun hx => hright (hsub _ hx)) hl (hright (List.mem_cons_self ..) hj h)
            fun hx => hrest fun y hy => hsub y (hx y hy)
    · rw [List.filter_cons_of_neg (by simpa using hi)] at hl
      exact hrest (fun _ hj => hj) hl (hleft (List.mem_cons_self ..) hi h)

namespace Run

theorem collection?_modify (r : Run σ) {f : FileRecord → FileRecord}
    (hcol : ∀ x, (f x).collection? = x.collection?) (path p : String) :
    Controller.collection? { r.toController with records := r.records.modify path f } p =
      r.collection? p := by
  rw [Controller.collection?, Controller.collection?]
  change ((r.records.modify path f).get? p).bind _ = _
  rw [get?_modify]
  split
  · next heq =>
    rw [heq]
    cases r.records.get? path with
    | none => rfl
    | some x => exact hcol x
  · rfl

/-- Runs side by side. A file of `D` that has no sketches may be queued in one of them only. -/
structure Alike (D : String → Prop) (r r' : Run σ) : Prop where
  settings : r'.settings = r.settings
  registry : r'.registry = r.registry
  plugins : r'.plugins = r.plugins
  table : r.table.SameGraph r'.table
  cancelled : r'.cancelled = r.cancelled
  seq : r'.seq = r.seq
  settingsAffected : r'.settingsAffected = r.settingsAffected
  records : ∀ p, ¬D p → SameButTime (r.records.get? p) (r'.records.get? p)
  collections : ∀ p, r'.collection? p = r.collection? p
  affected : ∀ p, (D p → p ≠ settingsFile → (r.collection? p).isSome = true) →
    r'.affected.contains p = r.affected.contains p

namespace Alike

variable {r r' r₁ r₁' : Run σ} (h : Alike D r r')

include h

theorem sameProject : r.SameProject D r'.toController := ⟨h.table, h.records⟩

theorem setTable {t t' : Table} (ht : t.SameGraph t') :
    Alike D { r with table := t } { r' with table := t' } :=
  { h with table := ht }

theorem setReport (x x' : RunReport) : Alike D { r with report := x } { r' with report := x' } :=
  { h with }

theorem drop (ids ids' : IdSet) : Alike D (r.drop ids) (r'.drop ids') :=
  { h with }

theorem touch (s s' : StringSet) : Alike D { r with touched := s } { r' with touched := s' } :=
  { h with }

theorem diagnose (kind : DiagnosticKind) (path message : String) :
    Alike D (r.diagnose kind path message) (r'.diagnose kind path message) :=
  h.setTable (h.table.record_record _ _)

theorem halt {α β : Type} {R : α → β → Prop} (e : AtlasError) : Agree D R (r.halt e) (r'.halt e) :=
  .error h.sameProject

theorem contains_records {p : String} (hp : D p → (r.collection? p).isSome = true) :
    r'.records.contains p = r.records.contains p := by
  by_cases hD : D p
  · -- both runs have sketches of the file
    have hknown : ∀ r : Run σ, (r.collection? p).isSome = true → r.records.contains p = true := by
      intro r hc
      rw [Controller.collection?] at hc
      rw [contains]
      exact Option.isSome_of_isSome_bind hc
    rw [hknown r (hp hD), hknown r' (by rw [h.collections]; exact hp hD)]
  · exact (h.records p hD).isSome

/-- Both runs queue the same files. -/
theorem marked {paths : List String} (hm : Marked paths r r₁) (hm' : Marked paths r' r₁') :
    Alike D r₁ r₁' where
  settings := hm'.setup.settings.trans (h.settings.trans hm.setup.settings.symm)
  registry := hm'.setup.registry.trans (h.registry.trans hm.setup.registry.symm)
  plugins := hm'.setup.plugins.trans (h.plugins.trans hm.setup.plugins.symm)
  table := by rw [hm.table, hm'.table]; exact h.table
  cancelled := hm'.cancelled.trans (h.cancelled.trans hm.cancelled.symm)
  seq := hm'.seq.trans (h.seq.trans hm.seq.symm)
  settingsAffected := by
    rw [Bool.eq_iff_iff, hm.settingsAffected, hm'.settingsAffected, h.settingsAffected]
  records p hp := by
    rw [hm.records, hm'.records]
    split
    · exact (h.records p hp).map FileRecord.moves_outdated FileRecord.moves_outdated
    · exact h.records p hp
  collections p := by rw [hm.collection?, hm'.collection?, h.collections]
  affected p hp := by
    rw [hm.collection?] at hp
    rw [Bool.eq_iff_iff, hm.affected, hm'.affected, h.affected p hp]
    by_cases hs : p = settingsFile
    · simp [hs]
    · rw [h.contains_records fun hD => hp hD hs]

theorem markAllStale (paths : StringSet) : Alike D (r.markAllStale paths) (r'.markAllStale paths) :=
  h.marked (markAllStale_marked r paths) (markAllStale_marked r' paths)

/-- Both runs revise the record of a file. -/
theorem modify {f : FileRecord → FileRecord} {g : FileState → FileState} (hf : Moves g f)
    (hcol : ∀ x, (f x).collection? = x.collection?) (path : String) :
    Alike D { r with records := r.records.modify path f }
      { r' with records := r'.records.modify path f } := by
  refine { h with
    records := fun p hp => ?_, collections := fun p => ?_
    affected := fun p hp => h.affected p fun hD hs => ?_ }
  · rw [get?_modify, get?_modify]
    split
    · next heq => exact (h.records path (heq ▸ hp)).map hf hf
    · exact h.records p hp
  · exact ((collection?_modify r' hcol path p).trans (h.collections p)).trans
      (collection?_modify r hcol path p).symm
  · exact collection?_modify r hcol path p ▸ hp hD hs

/-! ## Collection -/

omit h in
/-- A failed collection leaves the sketches of earlier ones. -/
theorem collection?_failCollection (r : Run σ) (s : SourceFile) (kind : DiagnosticKind)
    (e : AtlasError) (p : String) : (r.failCollection s kind e).collection? p = r.collection? p := by
  rw [Controller.collection?, Controller.collection?]
  change ((r.records.insert s.path _).get? p).bind _ = _
  rw [get?_insert_eq]
  split
  · next heq =>
    rw [heq]
    cases r.records.get? s.path <;> rfl
  · rfl

theorem failCollection (s : SourceFile) (kind : DiagnosticKind) (e : AtlasError) :
    Alike D (r.failCollection s kind e) (r'.failCollection s kind e) := by
  refine { h with
    table := h.table.record_record _ _, records := fun p hp => ?_, collections := fun p => ?_
    affected := fun p hp => h.affected p fun hD hs => ?_ }
  · change SameButTime ((r.records.insert s.path _).get? p) ((r'.records.insert s.path _).get? p)
    rw [get?_insert_eq, get?_insert_eq]
    split
    · next heq =>
      have hrec := h.records p hp
      rw [heq] at hrec
      unfold SameButTime at hrec ⊢
      cases hx : r.records.get? s.path with
      | none =>
        rw [hx, Option.map_none, Option.map_eq_none_iff] at hrec
        rw [hrec]
      | some x =>
        rw [hx] at hrec
        obtain ⟨y, hy, htime⟩ := Option.map_eq_some_iff.1 hrec
        rw [hy]
        exact congrArg (fun z : FileRecord => some { z with state := .failed }) htime
    · exact h.records p hp
  · rw [collection?_failCollection, collection?_failCollection, h.collections]
  · rw [← collection?_failCollection r s kind e]
    exact hp hD hs

/-- The collection of a file of `D` fails in one of the runs. -/
theorem failCollection_left {s : SourceFile} (hs : D s.path) (kind : DiagnosticKind)
    (e : AtlasError) : Alike D (r.failCollection s kind e) r' := by
  refine { h with
    table := (Table.SameGraph.record _ _).symm.trans h.table
    records := fun p hp => ?_, collections := fun p => ?_
    affected := fun p hp => h.affected p fun hD hne => ?_ }
  · change SameButTime ((r.records.insert s.path _).get? p) _
    rw [get?_insert_eq, if_neg]
    · exact h.records p hp
    · rintro rfl
      exact hp hs
  · rw [collection?_failCollection, h.collections]
  · rw [← collection?_failCollection r s kind e]
    exact hp hD hne

theorem queue (path : String) : Alike D { r with affected := r.affected.add path }
      { r' with affected := r'.affected.add path } := by
  refine { h with affected := fun p hp => ?_ }
  rw [StringSet.contains_add, StringSet.contains_add, h.affected p hp]

theorem announce (c : Collected) : Alike D (r.announce c) (r'.announce c) := by
  have hconcerned : (concerned r'.table c).keys.flatMap r'.table.dependentFiles =
      (concerned r.table c).keys.flatMap r.table.dependentFiles := by
    obtain ⟨d, hd⟩ := h.table.exists_eq
    rw [hd]
    rfl
  unfold Run.announce
  dsimp only
  rw [hconcerned]
  exact (h.queue c.source.path).markAllStale _

omit h in
/-- Deleting the edges of a file leaves its sketches. -/
theorem collection?_clearFile (r : Run σ) (path p : String) :
    (r.clearFile path).collection? p = r.collection? p :=
  collection?_modify r (fun x => by split <;> rfl) path p

theorem clearFile (path : String) : Alike D (r.clearFile path) (r'.clearFile path) := by
  refine (h.setTable (h.table.clearEdges path)).modify FileRecord.moves_cleared (fun x => ?_) path
  split <;> rfl

/-- A file of `D` without an edge is cleared in one of the runs. -/
theorem clearFile_left {path : String} (hD : D path) (hedges : r.table.edges.get? path = none) :
    Alike D (r.clearFile path) r' := by
  have htable : (r.clearFile path).table = r.table := Table.clearEdges_eq_self hedges
  refine { h with
    table := htable ▸ h.table, records := fun p hp => ?_, collections := fun p => ?_
    affected := fun p hp => h.affected p fun hD hs => ?_ }
  · change SameButTime ((r.records.modify path _).get? p) _
    rw [get?_modify, if_neg]
    · exact h.records p hp
    · rintro rfl
      exact hp hD
  · rw [collection?_clearFile, h.collections]
  · exact collection?_clearFile r path p ▸ hp hD hs

end Alike

/-- The counts of a run are right, and who owns an edge has sketches. -/
structure Grounded (r : Run σ) : Prop where
  counted : r.table.Counted
  backed : r.Backed

namespace Grounded

variable {r r' : Run σ}

theorem of_same (h : r.Grounded) (hgraph : r.table.SameGraph r'.table)
    (hcol : ∀ p, r'.collection? p = r.collection? p) : r'.Grounded := by
  refine ⟨h.counted.of_same hgraph.edges, fun o ho hne => ?_⟩
  rw [Table.edgesOf, hgraph.edges.edges] at hne
  rw [hcol]
  exact h.backed o ho hne

theorem clearFile (h : r.Grounded) (path : String) : (r.clearFile path).Grounded := by
  have hclear := Table.clearEdges_rewires r.table path
  refine ⟨hclear.counted h.counted, fun o ho hne => ?_⟩
  have hedges : (r.clearFile path).table.edgesOf o = _ := hclear.edgesOf o
  rw [hedges] at hne
  rw [Alike.collection?_clearFile]
  split at hne
  · exact absurd rfl hne
  · exact h.backed o ho hne

/-- A file without sketches has no edge. -/
theorem get?_edges (h : r.Grounded) {p : String} (hp : p ≠ settingsFile)
    (hcol : ¬(r.collection? p).isSome = true) : r.table.edges.get? p = none := by
  refine h.counted.toTight.get?_edges_eq_none ?_
  by_contra hne
  exact hcol (h.backed p hp hne)

end Grounded

namespace Alike

variable {r r' : Run σ}

theorem refl (D : String → Prop) (r : Run σ) : Alike D r r :=
  ⟨rfl, rfl, rfl, .refl _, rfl, rfl, rfl, fun _ _ => .refl _, fun _ => rfl, fun _ _ => rfl⟩

theorem symm (h : Alike D r r') : Alike D r' r where
  settings := h.settings.symm
  registry := h.registry.symm
  plugins := h.plugins.symm
  table := h.table.symm
  cancelled := h.cancelled.symm
  seq := h.seq.symm
  settingsAffected := h.settingsAffected.symm
  records p hp := (h.records p hp).symm
  collections p := (h.collections p).symm
  affected p hp := (h.affected p fun hD hs => h.collections p ▸ hp hD hs).symm

/-- Queued files that only one run has to clear have no edge. -/
theorem clearAffected (h : Alike D r r') (hg : r.Grounded) :
    Alike D r.clearAffected r'.clearAffected := by
  classical
  have hfold : Alike D (r.affected.toList.foldl Run.clearFile r)
      (r'.affected.toList.foldl Run.clearFile r') := by
    -- along the way no file gains or loses its sketches
    refine (foldl_sideBySide
      (R := fun a b => Alike D a b ∧ a.Grounded ∧ ∀ p, a.collection? p = r.collection? p)
      (S := fun p => D p → p ≠ settingsFile → (r.collection? p).isSome = true)
      (fun {a b p} _ _ hab => ⟨hab.1.clearFile p, hab.2.1.clearFile p, fun q => ?_⟩)
      (fun {a b p} _ hp hab => ?_) (fun {a b p} _ hp hab => ?_)
      (filter_keys_eq fun p hp => h.affected p (of_decide_eq_true hp)) ⟨h, hg, fun _ => rfl⟩).1
    · rw [collection?_clearFile, hab.2.2]
    · obtain ⟨hab, hga, hcol⟩ := hab
      push Not at hp
      obtain ⟨hD, hs, hnone⟩ := hp
      refine ⟨hab.clearFile_left hD (hga.get?_edges hs (by rw [hcol]; exact hnone)),
        hga.clearFile p, fun q => ?_⟩
      rw [collection?_clearFile, hcol]
    · obtain ⟨hab, hga, hcol⟩ := hab
      push Not at hp
      obtain ⟨hD, hs, hnone⟩ := hp
      have hedges := hga.get?_edges hs (by rw [hcol]; exact hnone)
      rw [← hab.table.edges.edges] at hedges
      exact ⟨(hab.symm.clearFile_left hD hedges).symm, hga, hcol⟩
  unfold Run.clearAffected
  dsimp only
  by_cases hset : (r.affected.toList.foldl Run.clearFile r).settingsAffected = true
  · rw [if_pos hset, if_pos (hfold.settingsAffected.trans hset)]
    exact hfold.setTable (hfold.table.clearEdges settingsFile)
  · rw [if_neg hset, if_neg (by rw [hfold.settingsAffected]; exact hset)]
    exact hfold

theorem reportIssues (h : Alike D r r') (c : Collected) :
    Alike D (r.reportIssues c) (r'.reportIssues c) := by
  unfold Run.reportIssues
  dsimp only
  split
  · exact h
  · exact h.diagnose _ _ _

theorem recordCollected (h : Alike D r r') {c : Collected} (hc : ¬D c.source.path) :
    Alike D (r.recordCollected c) (r'.recordCollected c) := by
  have hcol : ∀ (r : Run σ) p, (r.recordCollected c).collection? p =
      if p = c.source.path then some ⟨r.seq + 1, c.source.fingerprint, c.sketches⟩
      else r.collection? p := by
    intro r p
    rw [Controller.collection?, Controller.collection?]
    change ((r.records.insert c.source.path _).get? p).bind _ = _
    rw [get?_insert_eq]
    split <;> rfl
  refine { h with
    seq := congrArg (· + 1) h.seq, records := fun p hp => ?_, collections := fun p => ?_
    affected := fun p hp => h.affected p fun hD hs => ?_ }
  · change SameButTime ((r.records.insert c.source.path _).get? p)
      ((r'.records.insert c.source.path _).get? p)
    rw [get?_insert_eq, get?_insert_eq]
    split
    · rw [h.seq]
      rfl
    · exact h.records p hp
  · rw [hcol, hcol, h.seq, h.collections]
  · have hne : p ≠ c.source.path := by
      rintro rfl
      exact hc hD
    have := hp hD hs
    rwa [hcol, if_neg hne] at this

theorem commit (h : Alike D r r') {c : Collected} (hc : ¬D c.source.path) :
    Agree D (Alike D) (r.commit c) (r'.commit c) := by
  obtain ⟨hresult, hgraph⟩ := h.table.commitFile c.source.path c.symbols
  unfold Run.commit
  rcases hx : r.table.commitFile c.source.path c.symbols with ⟨result, t⟩
  rcases hx' : r'.table.commitFile c.source.path c.symbols with ⟨result', t'⟩
  rw [hx, hx'] at hresult hgraph
  obtain rfl : result' = result := hresult
  have htable := h.setTable hgraph
  cases result' with
  | ok summary =>
    exact .ok ((((htable.markAllStale _).drop _ _).reportIssues c).recordCollected hc)
  | error e =>
    dsimp only
    split
    · exact htable.halt e
    · exact .ok (htable.failCollection _ _ _)

end Alike

/-! ### Results -/

/-- Answers side by side. -/
def AlikeWith {α : Type} (D : String → Prop) (x y : α × Run σ) : Prop :=
  y.1 = x.1 ∧ Alike D x.2 y.2

end Run

open Run (Alike AlikeWith)

theorem Agree.bindWith {α γ δ : Type} {S : γ → δ → Prop} {x y : Except (Halt σ) (α × Run σ)}
    {f : α × Run σ → Except (Halt σ) γ} {g : α × Run σ → Except (Halt σ) δ}
    (h : Agree D (AlikeWith D) x y)
    (hfg : ∀ a {r r'}, Alike D r r' → Agree D S (f (a, r)) (g (a, r'))) :
    Agree D S (x >>= f) (y >>= g) := by
  refine h.bind ?_
  rintro ⟨a, r⟩ ⟨b, r'⟩ ⟨heq, hab⟩
  obtain rfl : b = a := heq
  exact hfg b hab

/-- Whether work came to nothing by its own fault. -/
def TaskResult.isFailure {α : Type} : TaskResult α → Bool
  | .failed _ | .timedOut => true
  | _ => false

/-- Work that fails does not cancel the run. -/
theorem Shift.perform_of_isFailure {ι α : Type} {limit : Nat} {work : ι → Unit → Attempt α × Unit}
    {path : String} {item : ι} {s : Shift Unit}
    (h : (s.perform limit work path item).1.isFailure = true) :
    (s.perform limit work path item).2 = s := by
  rw [Shift.perform_eq] at h ⊢
  split
  · rfl
  · next hs =>
    rw [if_neg hs] at h
    unfold Attempt.judge at h
    split at h
    · cases h
    · next hc =>
      rw [Bool.not_eq_true] at hc
      rw [hc, Bool.or_false]

/-- Without the items that fail, the others come to the same. -/
theorem runAll_filter {ι α : Type} [DecidablePred D] (limit : Nat)
    (work : ι → Unit → Attempt α × Unit) (path : ι → String) (items : List ι) (s : Shift Unit)
    (hfail : ∀ x ∈ items.zip ((runAll limit work (items.map fun i => (path i, i)) s).1.map (·.2)),
      D (path x.1) → x.2.isFailure = true) :
    (items.filter fun i => ¬D (path i)).zip ((runAll limit work
        ((items.filter fun i => ¬D (path i)).map fun i => (path i, i)) s).1.map (·.2)) =
      ((items.zip ((runAll limit work (items.map fun i => (path i, i)) s).1.map (·.2))).filter
        fun x => ¬D (path x.1)) ∧
    (runAll limit work ((items.filter fun i => ¬D (path i)).map fun i => (path i, i)) s).2 =
      (runAll limit work (items.map fun i => (path i, i)) s).2 := by
  induction items generalizing s with
  | nil => exact ⟨rfl, rfl⟩
  | cons i rest ih =>
    simp only [List.map_cons, runAll, List.zip_cons_cons] at hfail ⊢
    have hrest := ih _ fun x hx => hfail x (List.mem_cons_of_mem _ hx)
    by_cases hi : D (path i)
    · -- the item fails, and the run goes on as if it had not been there
      have hstay := Shift.perform_of_isFailure (hfail _ (List.mem_cons_self ..) hi)
      rw [hstay] at hrest ⊢
      rw [List.filter_cons_of_neg (by simpa using hi), List.filter_cons_of_neg (by simpa using hi)]
      exact hrest
    · rw [List.filter_cons_of_pos (by simpa using hi), List.filter_cons_of_pos (by simpa using hi)]
      simp only [List.map_cons, runAll, List.zip_cons_cons]
      exact ⟨congrArg (_ :: ·) hrest.1, hrest.2⟩

namespace Run

namespace Alike

variable {r r' : Run σ} {k k' : Conditions}

theorem setCancelled (h : Alike D r r') (b : Bool) :
    Alike D { r with cancelled := b } { r' with cancelled := b } :=
  { h with cancelled := rfl }

theorem collectSources_eq (h : Alike D r r') (hk : k'.befalls = k.befalls)
    (due : List SourceFile) : r'.collectSources k' due =
      ((r.collectSources k due).1, { r' with cancelled := (r.collectSources k due).2.cancelled }) := by
  unfold Run.collectSources
  rw [h.settings, h.registry, h.cancelled, hk]

/-- One of the runs collects some files less, all of which fail. -/
theorem collectSources [DecidablePred D] (h : Alike D r r') (hk : k'.befalls = k.befalls)
    {due : List SourceFile}
    (hfail : ∀ x ∈ (r.collectSources k due).1, D x.1.path → x.2.isFailure = true) :
    (r'.collectSources k' (due.filter fun s => ¬D s.path)).1 =
        ((r.collectSources k due).1.filter fun x => ¬D x.1.path) ∧
      Alike D (r.collectSources k due).2
        (r'.collectSources k' (due.filter fun s => ¬D s.path)).2 := by
  obtain ⟨hresults, hshift⟩ := runAll_filter r.settings.pipeline.fileTimeoutMs
    (fun s : SourceFile =>
      (k.befalls .collect s.path).before fun (u : Unit) => (r.registry.collect s, u))
    SourceFile.path due { state := (), closed := r.cancelled } hfail
  rw [h.collectSources_eq hk]
  refine ⟨hresults, ?_⟩
  unfold Run.collectSources
  dsimp only
  rw [hshift]
  exact h.setCancelled _

theorem takeCollected {acc acc' : List Collected × Run σ} (h : AlikeWith D acc acc')
    (x : SourceFile × TaskResult FileSketch) :
    AlikeWith D (Run.takeCollected acc x) (Run.takeCollected acc' x) := by
  obtain ⟨heq, h⟩ := h
  obtain ⟨s, result⟩ := x
  cases result with
  | done sketches => exact ⟨congrArg (· ++ _) heq, h⟩
  | failed e => exact ⟨heq, h.failCollection s _ e⟩
  | timedOut =>
    refine ⟨heq, ?_⟩
    change Alike D (acc.2.failCollection s .timeout (.timeout s.path _))
      (acc'.2.failCollection s .timeout (.timeout s.path acc'.2.settings.pipeline.fileTimeoutMs))
    rw [h.settings]
    exact h.failCollection s _ _
  | cancelled => exact ⟨heq, h.setReport _ _⟩

/-- The failure of a file of `D` is taken in by one of the runs. -/
theorem takeCollected_left {acc acc' : List Collected × Run σ} (h : AlikeWith D acc acc')
    {x : SourceFile × TaskResult FileSketch} (hD : D x.1.path) (hx : x.2.isFailure = true) :
    AlikeWith D (Run.takeCollected acc x) acc' := by
  obtain ⟨heq, h⟩ := h
  obtain ⟨s, result⟩ := x
  cases result with
  | failed e => exact ⟨heq, h.failCollection_left hD _ e⟩
  | timedOut => exact ⟨heq, h.failCollection_left hD _ _⟩
  | done sketches | cancelled => cases hx

/-- The first pass leaves the graph and all sketches alone until it deletes edges. -/
theorem takeCollected_same (acc : List Collected × Run σ) (x : SourceFile × TaskResult FileSketch) :
    acc.2.table.SameGraph (Run.takeCollected acc x).2.table ∧
      ∀ p, (Run.takeCollected acc x).2.collection? p = acc.2.collection? p := by
  obtain ⟨s, result⟩ := x
  cases result with
  | done sketches | cancelled => exact ⟨.refl _, fun _ => rfl⟩
  | failed e => exact ⟨.record _ _, collection?_failCollection _ s _ e⟩
  | timedOut => exact ⟨.record _ _, collection?_failCollection _ s _ _⟩

theorem mem_takeCollected {acc : List Collected × Run σ} {x : SourceFile × TaskResult FileSketch}
    {c : Collected} (hc : c ∈ (Run.takeCollected acc x).1) : c ∈ acc.1 ∨ c.source = x.1 := by
  obtain ⟨s, result⟩ := x
  cases result with
  | done sketches =>
    rcases List.mem_append.1 hc with hc | hc
    · exact .inl hc
    · exact .inr (List.mem_singleton.1 hc ▸ rfl)
  | failed e | timedOut | cancelled => exact .inl hc

theorem announce_same (r : Run σ) (c : Collected) :
    (r.announce c).table = r.table ∧ ∀ p, (r.announce c).collection? p = r.collection? p := by
  have hm := markAllStale_marked { r with affected := r.affected.add c.source.path }
    (StringSet.ofList ((concerned r.table c).keys.flatMap r.table.dependentFiles))
  exact ⟨hm.table, hm.collection?⟩

/-- The files that one of the runs collects in addition fail. -/
theorem collect [DecidablePred D] (h : Alike D r r') (hg : r.Grounded)
    (hk : k'.befalls = k.befalls) {due : List SourceFile}
    (hfail : ∀ x ∈ (r.collectSources k due).1, D x.1.path → x.2.isFailure = true) :
    Agree D (Alike D) (r.collect k due) (r'.collect k' (due.filter fun s => ¬D s.path)) := by
  obtain ⟨hresults, hstart⟩ := h.collectSources hk hfail
  have hground : (r.collectSources k due).2.Grounded := hg.of_same (.refl _) fun _ => rfl
  unfold Run.collect
  rcases hx : r.collectSources k due with ⟨results, r₁⟩
  rcases hx' : r'.collectSources k' (due.filter fun s => ¬D s.path) with ⟨results', r₁'⟩
  rw [hx, hx'] at hresults hstart
  rw [hx] at hfail hground
  obtain rfl : results' = results.filter fun x => ¬D x.1.path := hresults
  dsimp only at hfail hstart hground ⊢
  -- only files outside of `D` come out of the first half
  have htaken : AlikeWith D (results.foldl Run.takeCollected ([], r₁))
      ((results.filter fun x => ¬D x.1.path).foldl Run.takeCollected ([], r₁')) ∧
      (results.foldl Run.takeCollected ([], r₁)).2.Grounded ∧
      ∀ c ∈ ((results.filter fun x => ¬D x.1.path).foldl Run.takeCollected ([], r₁')).1,
        ¬D c.source.path := by
    rw [List.foldl_filter]
    refine List.foldl_rel (r := fun (acc acc' : List Collected × Run σ) =>
      AlikeWith D acc acc' ∧ acc.2.Grounded ∧ ∀ c ∈ acc'.1, ¬D c.source.path)
      ⟨⟨rfl, hstart⟩, hground, by simp⟩ ?_
    rintro x hxmem acc acc' ⟨hacc, hga, hca⟩
    obtain ⟨hgraph, hcol⟩ := takeCollected_same acc x
    by_cases hD : D x.1.path
    · rw [if_neg (by simpa using hD)]
      exact ⟨takeCollected_left hacc hD (hfail x hxmem hD), hga.of_same hgraph hcol, hca⟩
    · rw [if_pos (by simpa using hD)]
      refine ⟨takeCollected hacc x, hga.of_same hgraph hcol, fun c hc => ?_⟩
      exact (mem_takeCollected hc).elim (hca c) fun heq => heq ▸ hD
  obtain ⟨⟨hcollected, htaken⟩, hground, hc⟩ := htaken
  rw [hcollected] at hc ⊢
  generalize results.foldl Run.takeCollected ([], r₁) = acc at *
  generalize (results.filter fun x => ¬D x.1.path).foldl Run.takeCollected ([], r₁') = acc' at *
  have hannounced : Alike D (acc.1.foldl Run.announce acc.2) (acc.1.foldl Run.announce acc'.2) ∧
      (acc.1.foldl Run.announce acc.2).Grounded := by
    refine List.foldl_rel (r := fun a b => Alike D a b ∧ a.Grounded) ⟨htaken, hground⟩ ?_
    rintro c - a b ⟨hab, hga⟩
    obtain ⟨htable, hcol⟩ := announce_same a c
    exact ⟨hab.announce c, hga.of_same (htable ▸ .refl _) hcol⟩
  exact Agree.foldlM (fun c hmem hab => hab.commit (hc c hmem))
    (hannounced.1.clearAffected hannounced.2)

end Alike

end Run

end CodeAtlas
