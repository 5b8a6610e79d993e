import Mathlib
import CodeAtlas.Project.Passes
import CodeAtlas.Proofs.SortedMap

/-!
# Queueing files

What queueing dependents for resolution does to a run, and what a run never changes before it hands
its results to the store.

Main results:

* `markAllStale_marked`: queueing a set of files outdates their records, adds them to the affected
  files, and changes nothing else.
* `runAll_spec`: the results of a pass come from pieces of work done one after the other.
-/

namespace CodeAtlas

open SortedMap

variable {σ : Type}

/-! ## The setup of a project -/

/-- Projects with the same settings, collectors, plugins, store and folder. -/
structure Controller.SameSetup (c c' : Controller σ) : Prop where
  settings : c'.settings = c.settings
  registry : c'.registry = c.registry
  plugins : c'.plugins = c.plugins
  sink : c'.sink = c.sink
  root : c'.root = c.root

namespace Controller.SameSetup

variable {c c' c'' : Controller σ}

@[refl] theorem refl (c : Controller σ) : SameSetup c c := ⟨rfl, rfl, rfl, rfl, rfl⟩

theorem trans (h : SameSetup c c') (h' : SameSetup c' c'') : SameSetup c c'' :=
  ⟨h'.settings.trans h.settings, h'.registry.trans h.registry, h'.plugins.trans h.plugins,
    h'.sink.trans h.sink, h'.root.trans h.root⟩

end Controller.SameSetup

/-! ## Outdated records -/

@[simp] theorem FileRecord.outdated_path (x : FileRecord) : x.outdated.path = x.path := by
  unfold FileRecord.outdated
  split <;> rfl

@[simp] theorem FileRecord.outdated_sketches (x : FileRecord) :
    x.outdated.sketches = x.sketches := by
  unfold FileRecord.outdated
  split <;> rfl

@[simp] theorem FileRecord.outdated_fingerprint (x : FileRecord) :
    x.outdated.fingerprint = x.fingerprint := by
  unfold FileRecord.outdated
  split <;> rfl

theorem FileRecord.outdated_of_failed {x : FileRecord} (h : x.outdated.state = .failed) :
    x.outdated = x := by
  unfold FileRecord.outdated at h ⊢
  split
  · rfl
  · next hs =>
    rw [if_neg hs] at h
    cases h

theorem FileRecord.outdated_state (x : FileRecord) :
    x.outdated.state = .failed ∨ x.outdated.state = .stale := by
  unfold FileRecord.outdated
  split
  · next h => exact .inl (by simpa using h)
  · exact .inr rfl

@[simp] theorem FileRecord.outdated_outdated (x : FileRecord) :
    x.outdated.outdated = x.outdated := by
  unfold FileRecord.outdated
  split <;> simp_all

/-! ## Collections -/

/-- What a file was last collected as. -/
structure Collection where
  seq : Nat
  fingerprint : String
  sketches : FileSketch

/-- What the file of a record was last collected as, if its sketches are held. -/
def FileRecord.collection? (x : FileRecord) : Option Collection :=
  x.sketches.map fun f => ⟨x.seq, x.fingerprint, f⟩

def Controller.collection? (c : Controller σ) (p : String) : Option Collection :=
  (c.records.get? p).bind FileRecord.collection?

@[simp] theorem FileRecord.outdated_collection? (x : FileRecord) :
    x.outdated.collection? = x.collection? := by
  unfold FileRecord.outdated
  split <;> rfl

theorem Controller.get?_sketches_eq_map (c : Controller σ) (p : String) :
    c.sketches.get? p = (c.collection? p).map (·.sketches) := by
  rw [Controller.sketches, get?_filterMap, Controller.collection?]
  cases c.records.get? p with
  | none => rfl
  | some x => cases h : x.sketches <;> simp [FileRecord.collection?, h]

theorem Controller.sketches_of_collection? {c c' : Controller σ} {p : String}
    (h : c'.collection? p = c.collection? p) : c'.sketches.get? p = c.sketches.get? p := by
  rw [c'.get?_sketches_eq_map, h, c.get?_sketches_eq_map]

theorem Controller.collection?_of_records {c c' : Controller σ} (h : c'.records = c.records)
    (p : String) : c'.collection? p = c.collection? p := by
  rw [Controller.collection?, h]
  rfl

/-! ## Queueing -/

namespace Run

/-- What queueing `paths` does to a run. -/
structure Marked (paths : List String) (r r' : Run σ) : Prop where
  setup : r.SameSetup r'.toController
  table : r'.table = r.table
  cancelled : r'.cancelled = r.cancelled
  seq : r'.seq = r.seq
  removed : r'.removed = r.removed
  forgotten : r'.forgotten = r.forgotten
  droppedIds : r'.droppedIds = r.droppedIds
  report : r'.report = r.report
  records : ∀ p, r'.records.get? p =
    if p ∈ paths ∧ p ≠ settingsFile then (r.records.get? p).map FileRecord.outdated
    else r.records.get? p
  affected : ∀ p, r'.affected.contains p = true ↔ r.affected.contains p = true ∨
    (p ∈ paths ∧ p ≠ settingsFile) ∧ r.records.contains p = true
  settingsAffected : r'.settingsAffected = true ↔
    r.settingsAffected = true ∨ settingsFile ∈ paths

theorem markStale_marked (r : Run σ) (path : String) : Marked [path] r (r.markStale path) := by
  unfold markStale
  by_cases hs : path = settingsFile
  · have hno : ∀ p, ¬(p ∈ [path] ∧ p ≠ settingsFile) := by
      rintro p ⟨hp, hne⟩
      rw [List.mem_singleton.1 hp] at hne
      exact hne hs
    rw [if_pos (by simpa using hs)]
    refine ⟨.refl _, rfl, rfl, rfl, rfl, rfl, rfl, rfl, fun p => (if_neg (hno p)).symm, fun p => ?_, ?_⟩
    · exact ⟨.inl, fun h => h.resolve_right fun hp => hno p hp.1⟩
    · simp [hs]
  · rw [if_neg (by simpa using hs)]
    have hset : r.settingsAffected = true ↔ r.settingsAffected = true ∨ settingsFile ∈ [path] := by
      simp [Ne.symm hs]
    have hp : ∀ p, p ∈ [path] ∧ p ≠ settingsFile ↔ p = path := by
      intro p
      rw [List.mem_singleton]
      exact ⟨fun h => h.1, fun h => ⟨h, h ▸ hs⟩⟩
    split
    · next hc =>
      refine ⟨⟨rfl, rfl, rfl, rfl, rfl⟩, rfl, rfl, rfl, rfl, rfl, rfl, rfl, fun p => ?_, fun p => ?_, hset⟩
      · simp only [hp]
        rw [get?_modify]
        split
        · next h => rw [h]
        · rfl
      · rw [hp, StringSet.contains_add, Bool.or_eq_true, decide_eq_true_eq]
        constructor
        · rintro (rfl | h)
          · exact .inr ⟨rfl, hc⟩
          · exact .inl h
        · rintro (h | ⟨h, -⟩)
          · exact .inr h
          · exact .inl h
    · next hc =>
      refine ⟨.refl _, rfl, rfl, rfl, rfl, rfl, rfl, rfl, fun p => ?_, fun p => ?_, hset⟩
      · simp only [hp]
        split
        · next h =>
          rw [h, contains_eq_false_iff.1 (by simpa using hc)]
          rfl
        · rfl
      · rw [hp]
        constructor
        · exact .inl
        · rintro (h | ⟨rfl, h⟩)
          · exact h
          · exact absurd h hc

theorem contains_records_of_marked {paths : List String} {r r' : Run σ} (h : Marked paths r r')
    (p : String) : r'.records.contains p = r.records.contains p := by
  unfold SortedMap.contains
  rw [h.records]
  split <;> simp

theorem Marked.collection? {paths : List String} {r r' : Run σ} (h : Marked paths r r')
    (p : String) : r'.collection? p = r.collection? p := by
  rw [Controller.collection?, Controller.collection?, h.records]
  split <;> cases r.records.get? p <;> simp

theorem Marked.trans {paths paths' : List String} {r r' r'' : Run σ} (h : Marked paths r r')
    (h' : Marked paths' r' r'') : Marked (paths ++ paths') r r'' := by
  refine ⟨h.setup.trans h'.setup, h'.table.trans h.table, h'.cancelled.trans h.cancelled,
    h'.seq.trans h.seq, h'.removed.trans h.removed, h'.forgotten.trans h.forgotten,
    h'.droppedIds.trans h.droppedIds, h'.report.trans h.report, fun p => ?_, fun p => ?_, ?_⟩
  · rw [h'.records, h.records]
    by_cases hs : p = settingsFile
    · simp [hs]
    · by_cases hp : p ∈ paths <;> by_cases hp' : p ∈ paths' <;> simp [hs, hp, hp', Function.comp_def]
  · rw [h'.affected, h.affected, contains_records_of_marked h, List.mem_append]
    tauto
  · rw [h'.settingsAffected, h.settingsAffected, List.mem_append]
    tauto

theorem foldl_markStale_marked (paths : List String) (r : Run σ) :
    Marked paths r (paths.foldl markStale r) := by
  induction paths generalizing r with
  | nil =>
    exact ⟨.refl _, rfl, rfl, rfl, rfl, rfl, rfl, rfl, fun p => by simp, fun p => by simp, by simp⟩
  | cons p rest ih => exact (markStale_marked r p).trans (ih _)

/-- Queueing a set of files. -/
theorem markAllStale_marked (r : Run σ) (paths : StringSet) :
    Marked paths.toList r (r.markAllStale paths) :=
  foldl_markStale_marked paths.toList r

end Run

/-! ## Work on files -/

variable {ι α τ : Type}

theorem bind_eq_ok {ε β : Type} {x : Except ε α} {f : α → Except ε β} {b : β} :
    x >>= f = .ok b ↔ ∃ a, x = .ok a ∧ f a = .ok b := by
  cases x with
  | error e =>
    constructor
    · intro h
      cases h
    · rintro ⟨a, h, -⟩
      cases h
  | ok a =>
    constructor
    · exact fun h => ⟨a, rfl, h⟩
    · rintro ⟨a', h, hf⟩
      cases h
      exact hf

theorem foldlM_cons_eq_ok {ε β : Type} {f : β → α → Except ε β} {a : α} {l : List α} {b b' : β} :
    (a :: l).foldlM f b = .ok b' ↔ ∃ b₁, f b a = .ok b₁ ∧ l.foldlM f b₁ = .ok b' := by
  rw [List.foldlM_cons, bind_eq_ok]

theorem Attempt.done_of_judge {a : Attempt α} {path : String} {limit : Nat} {value : α}
    (h : a.judge path limit = .done value) : a.outcome = .done value := by
  unfold Attempt.judge at h
  split at h
  · cases h
  split at h
  · cases h
  split at h <;> simp_all

theorem Shift.perform_eq (limit : Nat) (work : ι → τ → Attempt α × τ) (path : String) (item : ι)
    (s : Shift τ) : s.perform limit work path item =
      if s.closed || (s.cancelled && !(work item s.state).1.begun) then (.cancelled, s)
      else ((work item s.state).1.judge path limit,
        { s with
          state := (work item s.state).2
          cancelled := s.cancelled || (work item s.state).1.cancels }) := rfl

theorem map_fst_runAll (limit : Nat) (work : ι → τ → Attempt α × τ) (items : List (String × ι))
    (s : Shift τ) : (runAll limit work items s).1.map (·.1) = items.map (·.1) := by
  induction items generalizing s with
  | nil => rfl
  | cons entry rest ih => exact congrArg (entry.1 :: ·) (ih _)

/-- Every result of a pass comes from a piece of work; `R` relates the states along the pass. -/
theorem runAll_spec {R : τ → τ → Prop} (hrefl : ∀ s, R s s)
    (htrans : ∀ {a b c}, R a b → R b c → R a c) {limit : Nat} {work : ι → τ → Attempt α × τ}
    (hwork : ∀ i s, R s (work i s).2) (items : List (String × ι)) (s : Shift τ) :
    R s.state (runAll limit work items s).2.state ∧
      ∀ x ∈ (runAll limit work items s).1, ∀ value, x.2 = .done value →
        ∃ item s₀, (x.1, item) ∈ items ∧ (work item s₀).1.outcome = .done value ∧
          R s.state s₀ ∧ R (work item s₀).2 (runAll limit work items s).2.state := by
  induction items generalizing s with
  | nil => exact ⟨hrefl _, by simp [runAll]⟩
  | cons entry rest ih =>
    obtain ⟨path, item⟩ := entry
    have hperform : R s.state (s.perform limit work path item).2.state ∧
        ∀ value, (s.perform limit work path item).1 = .done value →
          (work item s.state).1.outcome = .done value ∧
            (s.perform limit work path item).2.state = (work item s.state).2 := by
      rw [Shift.perform_eq]
      split
      · exact ⟨hrefl _, fun value h => by cases h⟩
      · exact ⟨hwork item s.state, fun value h => ⟨Attempt.done_of_judge h, rfl⟩⟩
    obtain ⟨hstate, hresults⟩ := ih (s.perform limit work path item).2
    refine ⟨htrans hperform.1 hstate, fun x hx value hv => ?_⟩
    rcases List.mem_cons.1 hx with rfl | hx
    · obtain ⟨hout, hs⟩ := hperform.2 value hv
      exact ⟨item, s.state, List.mem_cons_self .., hout, hrefl _, hs ▸ hstate⟩
    · obtain ⟨item', s₀, hmem, hout, hR, hR'⟩ := hresults x hx value hv
      exact ⟨item', s₀, List.mem_cons_of_mem _ hmem, hout, htrans hperform.1 hR, hR'⟩

end CodeAtlas
