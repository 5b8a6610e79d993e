import Mathlib
import CodeAtlas.Proofs.Project.Collection

/-!
# The passes over queued files

Resolution and enrichment as sequences of steps. Both work on one view of the project: while they
run the table only learns placeholders, so every finding still fits when its edge is stored.

Main results:

* `resolve_passed`, `enrich_passed`: the passes are sequences of steps on the edges of queued files;
  every file has a result, is named as a failure, or the run is cancelled.
-/

namespace CodeAtlas

open SortedMap

variable {σ : Type} {names : Set String}

/-! ## What the work of a pass finds -/

/-- The edges come from findings whose placeholders the table has learned. -/
def Controller.Found (c : Controller σ) (v : View) (f : FileSketch) (t : Table)
    (edges : List Edge) : Prop :=
  ∀ e ∈ edges, ∃ found, found.edge = e ∧ c.Finds v f found ∧
    ∀ s, found.placeholder = some s → t.symbols.contains s.fqn = true

theorem resolveFile_found (c : Controller σ) (v : View) (f : FileSketch) (t : Table) :
    c.Found v f (t.resolveFile v f).2 (t.resolveFile v f).1.edges := by
  intro e he
  obtain ⟨found, hmem, rfl⟩ := List.mem_map.1 (Table.mem_sort.1 he)
  exact ⟨found, rfl, .inl hmem, fun s hs => Table.contains_foldl_teach hmem hs t⟩

theorem Attempt.andThen_done {α β : Type} {a : Attempt α} {f : α → Attempt β} {b : β}
    (h : (a.andThen f).outcome = .done b) : ∃ x, a.outcome = .done x ∧ (f x).outcome = .done b := by
  unfold Attempt.andThen at h
  split at h
  · next x hx => exact ⟨x, hx, h⟩
  all_goals cases h

theorem runOn_taught (e : EnrichmentSettings) (v : View) (f : FileSketch) (plugins : List Plugin)
    (t : Table) : t.Taught (Plugin.runOn e v f plugins t).2 := by
  induction plugins generalizing t with
  | nil => exact .refl t
  | cons plugin rest ih =>
    unfold Plugin.runOn
    dsimp only
    split
    · next l _ => exact (Table.foldl_teach_taught l t).trans (ih _)
    · exact .refl t

theorem runOn_found {c : Controller σ} {v : View} {f : FileSketch} {plugins : List Plugin}
    (hp : ∀ p ∈ plugins, p ∈ c.plugins) {t : Table} {edges : List Edge}
    (h : (Plugin.runOn c.settings.enrichment v f plugins t).1.outcome = .done edges) :
    c.Found v f (Plugin.runOn c.settings.enrichment v f plugins t).2 edges := by
  induction plugins generalizing t edges with
  | nil =>
    cases h
    simp [Controller.Found]
  | cons plugin rest ih =>
    unfold Plugin.runOn at h ⊢
    dsimp only at h ⊢
    split at h
    · next l hl =>
      obtain ⟨-, -, h⟩ := Attempt.andThen_done h
      obtain ⟨edges', hrest, hret⟩ := Attempt.andThen_done h
      cases hret
      dsimp only
      intro e he
      rcases List.mem_append.1 he with he | he
      · obtain ⟨found, hmem, rfl⟩ := List.mem_map.1 he
        exact ⟨found, rfl, .inr ⟨plugin, hp _ (List.mem_cons_self ..), l, hl, hmem⟩, fun s hs =>
          (runOn_taught ..).contains (Table.contains_foldl_teach hmem hs t)⟩
      · exact ih (fun p hp' => hp p (List.mem_cons_of_mem _ hp')) hrest e he
    · next hno =>
      obtain ⟨l, hl, -⟩ := Attempt.andThen_done h
      exact absurd hl (hno l)

namespace Run

variable {due : List SourceFile} {r r' : Run σ} {acc : List String × Run σ} {finished : List String}

/-! ## Storing edges -/

theorem commitEdges_cases {path : String} {edges : List Edge} {pass : Pass}
    (h : r.commitEdges path edges pass = .ok r') :
    (∃ t edges', r' = { r with table := t } ∧ Table.Rewires path edges' r.table t ∧
      r.table.Admissible path edges ∧ ∀ e ∈ edges', e ∈ r.table.edgesOf path ∨ e ∈ edges) ∨
      ∃ message, r' = { r with report := r.report.fail path pass message } := by
  unfold commitEdges at h
  dsimp only at h
  split at h
  · next t ht =>
    refine .inl ⟨t, ?_⟩
    cases h
    cases pass with
    | enrich =>
      obtain ⟨hadm, edges', hw, hmem⟩ := Table.appendEdges_rewires ht
      exact ⟨edges', rfl, hw, hadm, hmem⟩
    | collect | resolve =>
      obtain ⟨hadm, hw⟩ := Table.replaceEdges_rewires ht
      exact ⟨_, rfl, hw, hadm,
        fun e he => .inr (Table.mem_sort.1 (Table.mem_of_mem_dropRepeats he))⟩
  · next e he =>
    split at h
    · cases h
    · exact .inr ⟨_, (Except.ok.inj h).symm⟩

/-- What a pass does to a run, up to some result: `acc` holds the files with a result. -/
structure Passing (names : Set String) (due : List SourceFile) (r : Run σ)
    (acc : List String × Run σ) : Prop where
  steps : Steps names due r acc.2
  symbols : r.table.SameSymbols acc.2.table
  affected : acc.2.affected = r.affected
  settingsAffected : acc.2.settingsAffected = r.settingsAffected
  droppedIds : acc.2.droppedIds = r.droppedIds
  sketches : ∀ p, acc.2.sketches.get? p = r.sketches.get? p
  contains : ∀ p, acc.2.records.contains p = r.records.contains p
  records : acc.2.Calm → acc.2.records = r.records

section

variable (h : Passing names due r acc)

include h

theorem Passing.queued (hq : r.Queued) : acc.2.Queued := by
  intro p hp hne x hx hr
  rw [h.affected] at hp
  exact hq p hp hne x (Steps.resolved h.steps hne hx hr) hr

/-- A finding stays one while only edges change. -/
theorem Traced.of_passing {e : Edge} (ht : r.Traced e) : acc.2.Traced e := by
  obtain ⟨v, f, found, hedge, hbelow, ⟨p, hp⟩, hlearned, horigin⟩ := ht
  have hsetup := (Steps.stays h.steps).setup
  have hsym := h.symbols.symbols
  refine ⟨v, f, found, hedge, ⟨fun hx => hsym ▸ hbelow.kept hx, fun hx => hbelow.new (hsym ▸ hx)⟩,
    ⟨p, by rw [h.sketches, hp]⟩, fun s hs => hsym ▸ hlearned s hs, ?_⟩
  rwa [Controller.Finds, hsetup.plugins, hsetup.settings]

theorem Passing.note {report : RunReport} (hfailures : acc.2.report.failures <+: report.failures)
    (hcancelled : acc.2.report.cancelled = true → report.cancelled = true) :
    Passing names due r (finished, { acc.2 with report }) := by
  have hstep : RecordsStep due acc.2 { acc.2 with report } :=
    recordsStep_of_same ⟨⟨rfl, rfl, rfl, rfl, rfl⟩, rfl, rfl, le_rfl, fun _ => id, id, .inl, hfailures,
      hcancelled⟩ (.refl _) rfl rfl
  exact ⟨h.steps.tail (.records hstep), h.symbols, h.affected, h.settingsAffected, h.droppedIds,
    h.sketches, h.contains, fun hc => h.records (hstep.toStays.calm hc)⟩

theorem Passing.leaveStale (path : String) (pass : Pass) (kind : DiagnosticKind) (e : AtlasError) :
    Passing names due r (acc.1, acc.2.leaveStale path pass kind e) := by
  set r' := acc.2.leaveStale path pass kind e with hr'
  have hget : ∀ p, r'.records.get? p =
      if p = path then (acc.2.records.get? path).map FileRecord.outdated
      else acc.2.records.get? p := fun p => get?_modify acc.2.records path p _
  have hcontains : ∀ p, r'.records.contains p = acc.2.records.contains p := by
    intro p
    rw [SortedMap.contains, SortedMap.contains, hget]
    split
    · next hp => rw [hp, Option.isSome_map]
    · rfl
  have hfails : r'.Fails path := fails_of_fail (r := acc.2) rfl
  have hgraph : acc.2.table.SameGraph r'.table := .record _ _
  have hstep : RecordsStep due acc.2 r' := by
    refine ⟨⟨⟨rfl, rfl, rfl, rfl, rfl⟩, rfl, rfl, le_rfl, fun _ => id, id, .inl, List.prefix_append _ _,
      id⟩, hgraph, rfl, fun {p x} hx => ?_, fun p hc => hcontains p ▸ hc⟩
    rw [hget] at hx
    split at hx
    · next hp =>
      subst hp
      obtain ⟨y, hy, rfl⟩ := Option.map_eq_some_iff.1 hx
      rw [hy]
      exact revises_outdated (.inr hfails)
    · exact .of_get? hx
  exact ⟨h.steps.tail (.records hstep), h.symbols.trans hgraph.symbols, h.affected,
    h.settingsAffected, h.droppedIds,
    fun p => (Controller.sketches_of_collection? (hstep.collection? p)).trans (h.sketches p),
    fun p => (hcontains p).trans (h.contains p), fun hc => absurd hfails (hc.not_fails path)⟩

theorem Passing.commitEdges (hcoh : acc.2.Orderly names)
    (hq : r.Queued) {path : String} {edges : List Edge} {pass : Pass}
    (ha : r.affected.contains path = true) (hsk : (r.sketches.get? path).isSome = true)
    (hfound : ∀ e ∈ edges, r.Traced e) (hok : acc.2.commitEdges path edges pass = .ok r') :
    Passing names due r (finished, r') := by
  have hqueued := h.queued hq
  have haff : acc.2.affected.contains path = true := by rw [h.affected, ha]
  rcases commitEdges_cases hok with ⟨t, edges', rfl, hw, hadm, hmem⟩ | ⟨message, rfl⟩
  · have hstep : EdgesStep due path edges' acc.2 { acc.2 with table := t } := by
      refine ⟨.of_eq ⟨rfl, rfl, rfl, rfl, rfl⟩ rfl, hw, rfl, fun e he => ?_, fun e he => ?_,
        fun e he => (hmem e he).imp_right fun he => (hadm e he).2, fun _ => haff,
        fun _ _ => by rw [h.sketches, hsk], .of_get?, fun hne x hx => hqueued path haff hne x hx,
        fun _ _ => rfl, fun _ => rfl, fun hs => .inr (hs ▸ haff)⟩
      · rcases hmem e he with he | he
        · exact hcoh.owned he
        · exact (hadm e he).1
      · exact (hmem e he).imp_right fun he => .inl ((hfound e he).of_passing h)
    exact ⟨h.steps.tail (.edges hstep), h.symbols.trans hw.same, h.affected, h.settingsAffected,
      h.droppedIds, h.sketches, h.contains, h.records⟩
  · exact h.note (List.prefix_append _ _) id

end

section Results

variable {α : Type} {pass : Pass} {edges : α → List Edge} {unresolved : α → Nat}
  {acc acc' : List String × Run σ} {results : List (String × TaskResult α)}
  {x : String × TaskResult α}

theorem takeResult_cases {path : String} {result : TaskResult α}
    (hok : takeResult pass edges unresolved acc (path, result) = .ok acc') :
    (∃ a n r', result = .done a ∧ acc' = (acc.1 ++ [path], r') ∧
      { acc.2 with report := { acc.2.report with unresolved := n } }.commitEdges path (edges a)
        pass = .ok r') ∨
      (∃ kind e, acc' = (acc.1, acc.2.leaveStale path pass kind e)) ∨
      acc' = (acc.1, acc.2.reportCancelled) := by
  cases result with
  | done a =>
    refine .inl ⟨a, acc.2.report.unresolved + unresolved a, ?_⟩
    obtain ⟨r', hc, hret⟩ := bind_eq_ok.1 hok
    cases hret
    exact ⟨r', rfl, rfl, hc⟩
  | failed e =>
    cases hok
    exact .inr (.inl ⟨_, e, rfl⟩)
  | timedOut =>
    cases hok
    exact .inr (.inl ⟨_, _, rfl⟩)
  | cancelled =>
    cases hok
    exact .inr (.inr rfl)

/-- What became of a file in a pass: it has a result, its failure is named, or the run is
cancelled. -/
def Settled (acc : List String × Run σ) (p : String) : Prop :=
  p ∈ acc.1 ∨ acc.2.Stalls p ∨ acc.2.report.cancelled = true

theorem takeResult_settled (hpass : pass ≠ .collect)
    (hok : takeResult pass edges unresolved acc x = .ok acc') : Settled acc' x.1 := by
  rcases takeResult_cases hok with ⟨a, n, r', -, rfl, -⟩ | ⟨kind, e, rfl⟩ | rfl
  · exact .inl (by simp)
  · exact .inr (.inl (stalls_of_fail (r := acc.2) hpass rfl))
  · exact .inr (.inr rfl)

/-- One result of a pass. -/
theorem takeResult_passing (h : Passing names due r acc) (hcoh : acc.2.Orderly names)
    (hq : r.Queued) (ha : r.affected.contains x.1 = true)
    (hsk : (r.sketches.get? x.1).isSome = true)
    (hfound : ∀ a, x.2 = .done a → ∀ e ∈ edges a, r.Traced e)
    (hok : takeResult pass edges unresolved acc x = .ok acc') :
    Passing names due r acc' ∧ (acc'.1 = acc.1 ++ [x.1] ∨ acc'.1 = acc.1) := by
  rcases takeResult_cases hok with ⟨a, n, r', hdone, rfl, hc⟩ | ⟨kind, e, rfl⟩ | rfl
  · have hnote : Passing names due r
        (acc.1, { acc.2 with report := { acc.2.report with unresolved := n } }) :=
      h.note List.prefix_rfl id
    exact ⟨hnote.commitEdges hcoh hq ha hsk (hfound a hdone) hc, .inl rfl⟩
  · exact ⟨h.leaveStale x.1 pass kind e, .inr rfl⟩
  · exact ⟨h.note List.prefix_rfl fun _ => rfl, .inr rfl⟩

/-- One result changes the edges of its file and the report only. -/
theorem takeResult_table (hok : takeResult pass edges unresolved acc x = .ok acc') :
    (∀ due, Stays due acc.2 acc'.2) ∧ acc.2.table.SameSymbols acc'.2.table ∧
      ∀ o, o ≠ x.1 → acc'.2.table.edgesOf o = acc.2.table.edgesOf o := by
  rcases takeResult_cases hok with ⟨a, n, r', -, rfl, hc⟩ | ⟨kind, e, rfl⟩ | rfl
  · rcases commitEdges_cases hc with ⟨t, edges', rfl, hw, -⟩ | ⟨message, rfl⟩
    · refine ⟨fun _ => .of_eq ⟨rfl, rfl, rfl, rfl, rfl⟩ rfl, hw.same, fun o ho => ?_⟩
      rw [hw.edgesOf, if_neg ho]
    · exact ⟨fun _ => ⟨⟨rfl, rfl, rfl, rfl, rfl⟩, rfl, rfl, le_rfl, fun _ => id, id, .inl,
        List.prefix_append _ _, id⟩, .refl _, fun _ _ => rfl⟩
  · have hgraph : acc.2.table.SameGraph (acc.2.leaveStale x.1 pass kind e).table := .record _ _
    exact ⟨fun _ => ⟨⟨rfl, rfl, rfl, rfl, rfl⟩, rfl, rfl, le_rfl, fun _ => id, id, .inl,
      List.prefix_append _ _, id⟩, hgraph.symbols, fun o _ => hgraph.edges.edgesOf o⟩
  · exact ⟨fun _ => (reportCancelled_step acc.2).toStays, .refl _, fun _ _ => rfl⟩

theorem foldlM_takeResult (hpass : pass ≠ .collect) (hr : r.Covered names due) (hq : r.Queued)
    (h : Passing names due r acc)
    (hres : ∀ x ∈ results, r.affected.contains x.1 = true ∧ (r.sketches.get? x.1).isSome = true ∧
      ∀ a, x.2 = .done a → ∀ e ∈ edges a, r.Traced e)
    (hok : results.foldlM (takeResult pass edges unresolved) acc = .ok acc') :
    Passing names due r acc' ∧ (∃ l, acc'.1 = acc.1 ++ l ∧ l.Sublist (results.map (·.1))) ∧
      ∀ p, Settled acc p ∨ p ∈ results.map (·.1) → Settled acc' p := by
  induction results generalizing acc with
  | nil =>
    cases hok
    exact ⟨h, ⟨[], by simp, by simp⟩, fun p hp => hp.resolve_right (by simp)⟩
  | cons x rest ih =>
    obtain ⟨acc₁, hx, hrest⟩ := foldlM_cons_eq_ok.1 hok
    obtain ⟨ha, hsk, hfound⟩ := hres x (List.mem_cons_self ..)
    obtain ⟨hone, hfin⟩ := takeResult_passing h (hr.steps h.steps) hq ha hsk hfound hx
    obtain ⟨hpassing, ⟨l, hl, hsub⟩, hset⟩ :=
      ih hone (fun y hy => hres y (List.mem_cons_of_mem _ hy)) hrest
    refine ⟨hpassing, ?_, fun p hp => ?_⟩
    · rcases hfin with hfin | hfin
      · refine ⟨x.1 :: l, ?_, hsub.cons_cons _⟩
        rw [hl, hfin, List.append_assoc]
        rfl
      · exact ⟨l, by rw [hl, hfin], hsub.cons _⟩
    · rw [List.map_cons, List.mem_cons] at hp
      rcases hp with hp | rfl | hp
      · -- what became of a file before is not forgotten
        refine hset p (.inl ?_)
        have hstays := (takeResult_table hx).1 due
        refine hp.imp (fun hmem => ?_) (Or.imp hstays.stalls hstays.cancelled)
        rcases hfin with hfin | hfin <;> rw [hfin]
        · exact List.mem_append_left _ hmem
        · exact hmem
      · exact hset _ (.inl (takeResult_settled hpass hx))
      · exact hset p (.inr hp)

/-- Only the files of a pass get edges. -/
theorem foldlM_takeResult_table
    (hok : results.foldlM (takeResult pass edges unresolved) acc = .ok acc') :
    acc.2.table.SameSymbols acc'.2.table ∧
      ∀ o, o ∉ results.map (·.1) → acc'.2.table.edgesOf o = acc.2.table.edgesOf o := by
  induction results generalizing acc with
  | nil =>
    cases hok
    exact ⟨.refl _, fun _ _ => rfl⟩
  | cons x rest ih =>
    obtain ⟨acc₁, hx, hrest⟩ := foldlM_cons_eq_ok.1 hok
    obtain ⟨-, hsym, hedges⟩ := takeResult_table hx
    obtain ⟨hsym', hedges'⟩ := ih hrest
    refine ⟨hsym.trans hsym', fun o ho => ?_⟩
    rw [List.map_cons, List.mem_cons, not_or] at ho
    rw [hedges' o ho.2, hedges o ho.1]

end Results

/-! ## A pass -/

/-- What a pass over files does to a run. -/
structure Passed (names : Set String) (due : List SourceFile) (paths : List String) (r : Run σ)
    (finished : List String) (r' : Run σ) : Prop where
  steps : Steps names due r r'
  affected : r'.affected = r.affected
  settingsAffected : r'.settingsAffected = r.settingsAffected
  droppedIds : r'.droppedIds = r.droppedIds
  queued : r'.Queued
  sketches : ∀ p, r'.sketches.get? p = r.sketches.get? p
  records : r'.Calm → r'.records = r.records
  edges : ∀ o, o ∉ paths → r'.table.edgesOf o = r.table.edgesOf o
  sublist : finished.Sublist paths
  complete : ∀ p ∈ paths, Settled (finished, r') p

theorem runPass_spec {α : Type} (k : Conditions) (pass : Pass)
    {work : FileSketch → Table → Attempt α × Table} (files : List FileSketch) (r : Run σ)
    (hlearn : ∀ f t, Table.Taught t (work f t).2) :
    (∃ t b, (r.runPass k pass work files).2 = { r with table := t, cancelled := b }) ∧
      r.table.Taught (r.runPass k pass work files).2.table ∧
      (r.runPass k pass work files).1.map (·.1) = files.map (·.path) ∧
      ∀ x ∈ (r.runPass k pass work files).1, ∀ a, x.2 = .done a → ∃ f ∈ files, f.path = x.1 ∧
        ∃ t, (work f t).1.outcome = .done a ∧
          (work f t).2.Taught (r.runPass k pass work files).2.table := by
  have hbefore : ∀ (f : FileSketch) t,
      Table.Taught t ((k.befalls pass f.path).before (work f) t).2 := by
    intro f t
    rcases Attempt.before_state (k.befalls pass f.path) (work f) t with h | h <;> rw [h]
    exact hlearn f t
  obtain ⟨htaught, hresults⟩ := runAll_spec (R := Table.Taught) .refl .trans
    (fun f t => hbefore f t) (files.map fun f => (f.path, f))
    { state := r.table, closed := r.cancelled }
  refine ⟨⟨_, _, rfl⟩, htaught, ?_, fun x hx a ha => ?_⟩
  · exact (map_fst_runAll ..).trans (by rw [List.map_map]; rfl)
  · obtain ⟨f, t, hmem, hout, -, hafter⟩ := hresults x hx a ha
    obtain ⟨f', hf', heq⟩ := List.mem_map.1 hmem
    obtain ⟨hpath, rfl⟩ := Prod.mk.inj heq
    obtain ⟨hdone, hstate⟩ := Attempt.before_done hout
    exact ⟨f', hf', hpath, t, hdone, hstate ▸ hafter⟩

/-- A pass over queued files whose work finds what it stores. -/
theorem pass_passed {α : Type} {k : Conditions} {pass : Pass} {edges : α → List Edge}
    {unresolved : α → Nat} {work : FileSketch → Table → Attempt α × Table}
    (hlate : pass ≠ .collect) (hr : r.Covered names due) (hq : r.Queued) {v : View}
    (hv : v.snapshot = r.table.snapshot) (hlearn : ∀ f t, Table.Taught t (work f t).2)
    (hfound : ∀ f t a, (work f t).1.outcome = .done a → r.Found v f (work f t).2 (edges a))
    {files : List FileSketch}
    (hfiles : ∀ f ∈ files, r.affected.contains f.path = true ∧ r.sketches.get? f.path = some f)
    (hnames : ∀ fqn, r'.table.symbols.contains fqn = true → fqn ∈ names)
    (hok : (r.runPass k pass work files).1.foldlM (takeResult pass edges unresolved)
      ([], (r.runPass k pass work files).2) = .ok (finished, r')) :
    Passed names due (files.map (·.path)) r finished r' := by
  obtain ⟨⟨t, b, hr₁⟩, htaught, hpaths, hdone⟩ := runPass_spec k pass files r hlearn
  rcases hrun : r.runPass k pass work files with ⟨results, r₁⟩
  rw [hrun] at hr₁ htaught hpaths hdone hok
  dsimp only at hr₁ htaught hpaths hdone hok
  subst hr₁
  obtain ⟨hsymbols, hothers⟩ := foldlM_takeResult_table hok
  set r₁ : Run σ := { r with table := t, cancelled := b } with hr₁
  have hlearnStep : LearnStep names due r r₁ :=
    ⟨.of_eq ⟨rfl, rfl, rfl, rfl, rfl⟩ rfl, htaught,
      fun fqn hc => hnames fqn (by rwa [hsymbols.symbols]), rfl, rfl⟩
  have hbelow : v.snapshot.Below r₁.table := by
    rw [hv]
    exact ⟨htaught.kept, fun hx => (htaught.new hx).imp_right fun h => ⟨h.1, h.2.1⟩⟩
  have hstart : Passing names due r₁ ([], r₁) :=
    ⟨.refl, .refl _, rfl, rfl, rfl, fun _ => rfl, fun _ => rfl, fun _ => rfl⟩
  have hresults : ∀ x ∈ results, r₁.affected.contains x.1 = true ∧
      (r₁.sketches.get? x.1).isSome = true ∧ ∀ a, x.2 = .done a → ∀ e ∈ edges a, r₁.Traced e := by
    intro x hx
    have hmem : x.1 ∈ files.map (·.path) := hpaths ▸ List.mem_map_of_mem hx
    obtain ⟨f, hf, hfx⟩ := List.mem_map.1 hmem
    obtain ⟨haff, hsk⟩ := hfiles f hf
    rw [hfx] at haff hsk
    have hsk : r₁.sketches.get? x.1 = some f := hsk
    refine ⟨haff, by rw [hsk]; rfl, fun a ha e he => ?_⟩
    obtain ⟨f', hf', -, t', hout, hafter⟩ := hdone x hx a ha
    obtain ⟨found, hedge, hfinds, hplace⟩ := hfound f' t' a hout e he
    exact ⟨v, f', found, hedge, hbelow, ⟨f'.path, (hfiles f' hf').2⟩,
      fun s hs => hafter.contains (hplace s hs), hfinds⟩
  obtain ⟨hpass, ⟨l, hl, hsub⟩, hcomplete⟩ := foldlM_takeResult hlate
    (hr.step (.learn hlearnStep)) hq hstart hresults hok
  refine ⟨.head (.learn hlearnStep) hpass.steps, hpass.affected, hpass.settingsAffected,
    hpass.droppedIds, hpass.queued hq, hpass.sketches, hpass.records, fun o ho => ?_, ?_,
    fun p hp => hcomplete p (.inr (by rwa [hpaths]))⟩
  · rw [← hpaths] at ho
    rw [hothers o ho]
    exact htaught.edges.edgesOf o
  · rw [← hpaths, show finished = l from hl]
    exact hsub

theorem sketch_path {c : Controller σ} (h : c.Orderly names) {p : String} {f : FileSketch}
    (hf : c.sketches.get? p = some f) : f.path = p := by
  rw [Controller.sketches, get?_filterMap] at hf
  obtain ⟨x, hx, hxf⟩ := Option.bind_eq_some_iff.1 hf
  exact ((h.record hx).sketches hxf).1

theorem map_path_sketches {c : Controller σ} (h : c.Orderly names) (l : List String) :
    (l.filterMap c.sketches.get?).map (·.path) =
      l.filter fun p => (c.sketches.get? p).isSome := by
  induction l with
  | nil => rfl
  | cons p rest ih =>
    cases hf : c.sketches.get? p with
    | none => simp [hf, ih]
    | some f => simp [hf, ih, sketch_path h hf]

/-- Resolution works on the queued files with sketches. -/
theorem resolve_passed {k : Conditions} (hr : r.Covered names due) (hq : r.Queued)
    (hnames : ∀ fqn, r'.table.symbols.contains fqn = true → fqn ∈ names)
    (hok : r.resolve k = .ok (finished, r')) :
    Passed names due (r.affected.toList.filter fun p => (r.sketches.get? p).isSome) r finished
      r' := by
  rw [← map_path_sketches hr.toOrderly]
  refine pass_passed (by decide) hr hq (v := r.view) rfl
    (fun f t => Table.foldl_teach_taught _ t) (fun f t a ha => ?_) (fun f hf => ?_) hnames hok
  · cases ha
    exact resolveFile_found r.toController r.view f t
  · obtain ⟨p, hp, hsk⟩ := List.mem_filterMap.1 hf
    have hpath := sketch_path hr.toOrderly hsk
    exact ⟨hpath ▸ StringSet.mem_toList.1 hp, hpath ▸ hsk⟩

/-- Enrichment works on the resolved files. -/
theorem enrich_passed {k : Conditions} (hr : r.Covered names due) (hq : r.Queued)
    {resolved finished : List String}
    (hnames : ∀ fqn, r'.table.symbols.contains fqn = true → fqn ∈ names)
    (hres : ∀ p ∈ resolved, r.affected.contains p = true ∧ (r.sketches.get? p).isSome = true)
    (hok : r.enrich k resolved = .ok (finished, r')) : Passed names due resolved r finished r' := by
  unfold enrich at hok
  dsimp only at hok
  split at hok
  · cases hok
    exact ⟨.refl, rfl, rfl, rfl, hq, fun _ => rfl, fun _ => rfl, fun _ _ => rfl, .refl _,
      fun p hp => .inl hp⟩
  · have hpaths : (resolved.filterMap r.sketches.get?).map (·.path) = resolved := by
      rw [map_path_sketches hr.toOrderly, List.filter_eq_self]
      exact fun p hp => (hres p hp).2
    rw [← hpaths]
    refine pass_passed (by decide) hr hq (v := r.view) rfl (fun f t => runOn_taught ..)
      (fun f t a ha => runOn_found (fun p hp => List.mem_of_mem_filter hp) ha) (fun f hf => ?_)
      hnames hok
    obtain ⟨p, hp, hsk⟩ := List.mem_filterMap.1 hf
    have hpath := sketch_path hr.toOrderly hsk
    exact ⟨hpath ▸ (hres p hp).1, hpath ▸ hsk⟩

end Run

end CodeAtlas
