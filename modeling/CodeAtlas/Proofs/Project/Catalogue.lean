import Mathlib
import CodeAtlas.Enrich.Standard
import CodeAtlas.Project.Restore
import CodeAtlas.Proofs.Project.Account
import CodeAtlas.Proofs.Project.Histories
import CodeAtlas.Proofs.Table.Commits

/-!
# The catalogue of a project

The records of a project tell what its table knows. Every file is known exactly as long as its
sketches are held, and the sketches, committed to an empty table in the order of their collection,
make the same definitions again, but for the node of the settings.

Main results:

* `Step.tallies`, `begun_tallies`, `deliver_tallies`: records and table stay in agreement through
  every part of a run.
* `Tallies.definition?_rebuilt`, `Tallies.rebuilt_ok`: the table that the sketches make.
* `records_tell_table`: all of it, for every state that a project comes to.
-/

namespace CodeAtlas

open SortedMap

variable {σ : Type} {names : Set String} {A : SourceFile → Prop} {l l' : Table.Ledger}

/-! ## Ledgers without a file -/

namespace Table.Ledger

theorem mem_without {file : String} {e : String × SortedMap String Symbol} :
    e ∈ l.without file ↔ e ∈ l ∧ e.1 ≠ file := by
  simp [without]

theorem without_cons_self (l : Ledger) (file : String) (m : SortedMap String Symbol) :
    Ledger.without ((file, m) :: l.without file) file = l.without file := by
  simp [without]

end Table.Ledger

/-! ## Collections and the ledger -/

namespace Controller

variable {c c' : Controller σ}

/-- When a file was last collected. -/
def collectedAt (c : Controller σ) (p : String) : Nat := (c.collection? p).elim 0 (·.seq)

/-- Where the collections of a project come from; `A` holds of every source that was offered. -/
structure Sourced (A : SourceFile → Prop) (c : Controller σ) : Prop where
  bounded : ∀ {p x}, c.collection? p = some x → x.seq ≤ c.seq
  distinct : ∀ {p q x y}, c.collection? p = some x → c.collection? q = some y →
    x.seq = y.seq → p = q
  origin : ∀ {p x}, c.collection? p = some x → ∃ s, A s ∧ s.path = p ∧
    s.fingerprint = x.fingerprint ∧ (c.registry.collect s).outcome = .done x.sketches
  acceptable : ∀ {p x}, c.collection? p = some x →
    Table.Acceptable p x.sketches.assembleSymbols

/-- The ledger has an entry for every collection, the latest first. -/
structure Catalogued (l : Table.Ledger) (c : Controller σ) : Prop where
  records : c.table.Records l
  entries : ∀ {p m}, p ≠ settingsFile → ((p, m) ∈ l ↔
    ∃ x, c.collection? p = some x ∧ m = Table.Ledger.definitionsOf x.sketches.assembleSymbols)
  ordered : (l.without settingsFile).Pairwise fun a b => c.collectedAt b.1 < c.collectedAt a.1

/-- Records and table agree. -/
def Tallies (A : SourceFile → Prop) (c : Controller σ) : Prop :=
  c.Sourced A ∧ ∃ l, Catalogued l c

theorem collectedAt_of_eq {p : String} (h : c'.collection? p = c.collection? p) :
    c'.collectedAt p = c.collectedAt p := by
  rw [collectedAt, h]
  rfl

theorem Sourced.collectedAt_le (h : c.Sourced A) (p : String) : c.collectedAt p ≤ c.seq := by
  unfold collectedAt
  cases hx : c.collection? p with
  | none => exact Nat.zero_le _
  | some x => exact h.bounded hx

/-- Collections that are left come from where they came. -/
theorem Sourced.of_le (h : c.Sourced A) (hseq : c.seq ≤ c'.seq) (hreg : c'.registry = c.registry)
    (hcol : ∀ {p x}, c'.collection? p = some x → c.collection? p = some x) : c'.Sourced A :=
  ⟨fun hx => (h.bounded (hcol hx)).trans hseq, fun hx hy => h.distinct (hcol hx) (hcol hy),
    fun hx => hreg ▸ h.origin (hcol hx), fun hx => h.acceptable (hcol hx)⟩

/-- Entries whose collections stay keep their order. -/
theorem Catalogued.ordered_of_sublist (h : Catalogued l c) {l' : Table.Ledger}
    (hsub : l'.Sublist (l.without settingsFile))
    (hcol : ∀ e ∈ l', c'.collection? e.1 = c.collection? e.1) :
    l'.Pairwise fun a b => c'.collectedAt b.1 < c'.collectedAt a.1 := by
  refine (h.ordered.sublist hsub).imp_of_mem fun ha hb hab => ?_
  rwa [collectedAt_of_eq (hcol _ ha), collectedAt_of_eq (hcol _ hb)]

/-- The settings may come and go. -/
theorem Catalogued.of_same (h : Catalogued l c) (hr : c'.table.Records l')
    (hl : l'.without settingsFile = l.without settingsFile)
    (hcol : ∀ p, p ≠ settingsFile → c'.collection? p = c.collection? p) : Catalogued l' c' := by
  refine ⟨hr, fun {p m} hp => ?_, ?_⟩
  · have hmem : (p, m) ∈ l' ↔ (p, m) ∈ l := by
      have hiff := congrArg (fun k : Table.Ledger => (p, m) ∈ k) hl
      simpa [Table.Ledger.mem_without, hp] using hiff
    rw [hmem, h.entries hp, hcol p hp]
  · rw [hl]
    exact h.ordered_of_sublist (.refl _) fun e he => hcol _ (Table.Ledger.mem_without.1 he).2

/-- A file goes. -/
theorem Catalogued.remove (h : Catalogued l c) {path : String}
    (hr : c'.table.Records (l.without path))
    (hcol : ∀ p, c'.collection? p = if p = path then none else c.collection? p) :
    Catalogued (l.without path) c' := by
  refine ⟨hr, fun {p m} hp => ?_, ?_⟩
  · rw [Table.Ledger.mem_without, h.entries hp, hcol]
    by_cases hpath : p = path <;> simp [hpath]
  · refine h.ordered_of_sublist (List.filter_sublist.filter _) fun e he => ?_
    have hne := (Table.Ledger.mem_without.1 (Table.Ledger.mem_without.1 he).1).2
    rw [hcol, if_neg hne]

end Controller

/-! ## The steps of a run -/

namespace Run

variable {due : List SourceFile} {r r' : Run σ}

theorem CommitStep.sourced {c : Collected} {summary : CommitSummary}
    (hs : CommitStep due c summary r r') (hA : A c.source) (h : r.Sourced A) : r'.Sourced A := by
  obtain ⟨n, hlt, hle, hnew⟩ := hs.collection?
  obtain ⟨t, ht, -⟩ := hs.table
  have hcases : ∀ {p x}, r'.collection? p = some x →
      p = c.source.path ∧ x = ⟨n, c.source.fingerprint, c.sketches⟩ ∨
        p ≠ c.source.path ∧ r.collection? p = some x := by
    intro p x hx
    by_cases hp : p = c.source.path
    · rw [hp, hnew] at hx
      exact .inl ⟨hp, (Option.some.inj hx).symm⟩
    · exact .inr ⟨hp, hs.collection?_of_ne hp ▸ hx⟩
  refine ⟨fun hx => ?_, fun {p q x y} hx hy hxy => ?_, fun hx => ?_, fun hx => ?_⟩
  · rcases hcases hx with ⟨-, rfl⟩ | ⟨-, hx⟩
    · exact hle
    · exact (h.bounded hx).trans (hlt.le.trans hle)
  · rcases hcases hx with ⟨hp, rfl⟩ | ⟨-, hx⟩ <;> rcases hcases hy with ⟨hq, rfl⟩ | ⟨-, hy⟩
    · exact hp.trans hq.symm
    · have := h.bounded hy
      dsimp only at hxy
      omega
    · have := h.bounded hx
      dsimp only at hxy
      omega
    · exact h.distinct hx hy hxy
  · rw [hs.setup.registry]
    rcases hcases hx with ⟨rfl, rfl⟩ | ⟨-, hx⟩
    · exact ⟨c.source, hA, rfl, rfl, hs.collected⟩
    · exact h.origin hx
  · rcases hcases hx with ⟨rfl, rfl⟩ | ⟨-, hx⟩
    · exact fun s hmem => Table.commitFile_admits ht hmem
    · exact h.acceptable hx

theorem CommitStep.catalogued {c : Collected} {summary : CommitSummary}
    (hs : CommitStep due c summary r r') (hg : r.Sourced A)
    (h : Controller.Catalogued l r.toController) (hr : r'.table.Records
      ((c.source.path, Table.Ledger.definitionsOf c.symbols) :: l.without c.source.path)) :
    Controller.Catalogued
      ((c.source.path, Table.Ledger.definitionsOf c.symbols) :: l.without c.source.path)
      r'.toController := by
  obtain ⟨n, hlt, -, hnew⟩ := hs.collection?
  refine ⟨hr, fun {p m} hp => ?_, ?_⟩
  · rw [List.mem_cons, Table.Ledger.mem_without, h.entries hp]
    by_cases hpath : p = c.source.path
    · subst hpath
      rw [hnew]
      simp [Collected.symbols]
    · rw [hs.collection?_of_ne hpath]
      simp [hpath]
  · set rest := Table.Ledger.without (l.without c.source.path) settingsFile
    have hne : ∀ e ∈ rest, e.1 ≠ c.source.path := fun e he =>
      (Table.Ledger.mem_without.1 (Table.Ledger.mem_without.1 he).1).2
    have hrest : rest.Pairwise fun a b => r'.collectedAt b.1 < r'.collectedAt a.1 :=
      h.ordered_of_sublist (List.filter_sublist.filter _) fun e he =>
        hs.collection?_of_ne (hne e he)
    by_cases hpath : c.source.path = settingsFile
    · simpa [Table.Ledger.without, hpath, rest] using hrest
    · -- the new collection comes after all others
      have hcons : Table.Ledger.without ((c.source.path, Table.Ledger.definitionsOf c.symbols) ::
          l.without c.source.path) settingsFile =
          (c.source.path, Table.Ledger.definitionsOf c.symbols) :: rest := by
        simp [Table.Ledger.without, hpath, rest]
      rw [hcons, List.pairwise_cons]
      refine ⟨fun e he => ?_, hrest⟩
      calc r'.collectedAt e.1 = r.collectedAt e.1 :=
            Controller.collectedAt_of_eq (hs.collection?_of_ne (hne e he))
        _ ≤ r.seq := hg.collectedAt_le _
        _ < n := hlt
        _ = r'.collectedAt c.source.path := by rw [Controller.collectedAt, hnew]; rfl

theorem Step.tallies (hs : Step names due r r') (hc : r.Orderly names) (hA : ∀ s ∈ due, A s)
    (h : r.Tallies A) : r'.Tallies A := by
  obtain ⟨hg, l, hl⟩ := h
  obtain ⟨l', hnotes, hr⟩ := hs.notes hc hl.records
  have hsame (hcol : ∀ p, r'.collection? p = r.collection? p)
      (hl' : l'.without settingsFile = l.without settingsFile) : r'.Tallies A :=
    ⟨hg.of_le hs.stays.seq hs.stays.setup.registry fun hx => hcol _ ▸ hx, l',
      hl.of_same hr hl' fun p _ => hcol p⟩
  cases hnotes with
  | same hcol => exact hsame hcol rfl
  | commit hs => exact ⟨hs.sourced (hA _ hs.offered) hg, _, hs.catalogued hg hl hr⟩
  | adopt hs =>
    exact hsame (Controller.collection?_of_records hs.records)
      (Table.Ledger.without_cons_self ..)
  | retire hs =>
    exact hsame (Controller.collection?_of_records hs.records)
      (by simp [Table.Ledger.without])

theorem Steps.tallies (hs : Steps names due r r') (hc : r.Covered names due) (hA : ∀ s ∈ due, A s)
    (h : r.Tallies A) : r'.Tallies A := by
  induction hs with
  | refl => exact h
  | tail hs hstep ih => exact hstep.tallies (hc.steps hs) hA ih

/-! ## The beginning and the end of a run -/

theorem checkSettings_collection? (r : Run σ) (now : Timestamp) :
    (∀ p, p ≠ settingsFile → (r.checkSettings now).collection? p = r.collection? p) ∧
      ∀ {x}, (r.checkSettings now).collection? settingsFile = some x →
        r.collection? settingsFile = some x := by
  rcases checkSettings_cases r now with heq | ⟨paths, r₁, -, hm, hr⟩
  · rw [heq]
    exact ⟨fun p _ => rfl, id⟩
  · refine ⟨fun p hp => ?_, fun {x} hx => ?_⟩
    · rw [Controller.collection?, hr.records p hp]
      exact hm.collection? p
    · obtain ⟨y, hy, hcol⟩ := Option.bind_eq_some_iff.1 hx
      simp [FileRecord.collection?, (hr.settings hy).2.1] at hcol

theorem checkSettings_tallies (h : r.Tallies A) (now : Timestamp) :
    (r.checkSettings now).Tallies A := by
  obtain ⟨hg, l, hl⟩ := h
  obtain ⟨hcol, hset⟩ := checkSettings_collection? r now
  have hstays : (r.checkSettings now).seq = r.seq ∧
      (r.checkSettings now).registry = r.registry := by
    rcases checkSettings_cases r now with heq | ⟨paths, r₁, -, hm, hr⟩
    · rw [heq]
      exact ⟨rfl, rfl⟩
    · exact ⟨hr.seq.trans hm.seq, hr.setup.registry.trans hm.setup.registry⟩
  refine ⟨hg.of_le hstays.1.ge hstays.2 fun {p x} hx => ?_, l,
    hl.of_same (checkSettings_table r now ▸ hl.records) rfl hcol⟩
  by_cases hp : p = settingsFile
  · subst hp
    exact hset hx
  · exact hcol p hp ▸ hx

theorem Removal.tallies {path : String} (h : r.Tallies A) (hr : Removal path r r') :
    r'.Tallies A := by
  obtain ⟨hg, l, hl⟩ := h
  refine ⟨hg.of_le hr.seq.ge hr.setup.registry fun {p x} hx => ?_, _,
    hl.remove (hr.table ▸ hl.records.removeFile path) hr.collection?⟩
  rw [hr.collection?] at hx
  split at hx
  · cases hx
  · exact hx

theorem takeChanges_tallies (h : r.Tallies A) (changes : List FileChange) :
    (r.takeChanges changes).1.Tallies A :=
  takeChanges_induct (I := fun r : Run σ => r.Tallies A) changes h
    (fun _ _ _ h hr => hr.tallies h) fun _ _ _ h he => he.controller ▸ h

@[simp] theorem stored_collection? (now : Timestamp) (x : FileRecord) :
    (x.stored now).collection? = x.collection? := by
  unfold FileRecord.stored
  split <;> rfl

section

variable [Sink σ]

theorem deliver_collection? (hf : r.Forgets) (now : Timestamp) (finished : List String)
    (p : String) : (r.deliver now finished).2.collection? p = r.collection? p := by
  rw [Controller.collection?, Controller.collection?]
  rcases deliver_records now finished hf p with heq | ⟨-, heq⟩ | ⟨hp, heq⟩ <;> rw [heq]
  · cases r.records.get? p <;> simp
  · rw [(hf p hp).2]
    rfl

theorem deliver_tallies (h : r.Tallies A) (hf : r.Forgets) (now : Timestamp)
    (finished : List String) : (r.deliver now finished).2.Tallies A := by
  obtain ⟨hg, l, hl⟩ := h
  have hoffers := deliver_offers now finished r
  have hcol := deliver_collection? hf now finished
  exact ⟨hg.of_le hoffers.seq.ge hoffers.registry fun hx => hcol _ ▸ hx, l,
    hl.of_same (hl.records.of_sameSymbols hoffers.table.symbols) rfl fun p _ => hcol p⟩

end

end Run

/-! ## Runs -/

namespace Controller

variable {c c' : Controller σ} {k : Conditions} {changes : List FileChange} {full : Bool}

theorem start_tallies (h : c.Tallies A) (full : Bool) : (Run.start c full).Tallies A :=
  ⟨h.1.of_le le_rfl rfl id, h.2.imp fun _ hl => hl.of_same hl.records rfl fun _ _ => rfl⟩

theorem begun_tallies (h : c.Tallies A) (k : Conditions) (changes : List FileChange) (full : Bool) :
    (c.begun k changes full).1.Tallies A :=
  Run.takeChanges_tallies (Run.checkSettings_tallies (start_tallies h full) k.now) changes

theorem IsNew.tallies (h : c.IsNew) : c.Tallies A := by
  have hcol : ∀ p, c.collection? p = none := fun p => by rw [collection?, h.records]; rfl
  refine ⟨⟨fun hx => ?_, fun hx => ?_, fun hx => ?_, fun hx => ?_⟩, [], h.table ▸ .empty,
    fun hp => ?_, .nil⟩
  · simp [hcol] at hx
  · simp [hcol] at hx
  · simp [hcol] at hx
  · simp [hcol] at hx
  · simp [hcol]

section

variable [Sink σ]

theorem Ran.tallies {finished : List String} {r : Run σ} {report : RunReport}
    (hc : c.Orderly names) (hw : c.Within names k changes full)
    (h : Ran names k changes full c finished r report c')
    (hA : ∀ s, .modified s ∈ changes → A s) (ht : c.Tallies A) : c'.Tallies A := by
  have hr := Run.Steps.tallies h.worked.steps (hw.covered hc)
    (fun s hs => hA s (Run.takeChanges_due hs).2) (begun_tallies ht k changes full)
  exact h.deliver_eq ▸ Run.deliver_tallies hr h.forgets k.now finished

end

end Controller

/-! ## The rebuilt table -/

/-- What a file with a record commits. -/
def FileRecord.commit? (x : FileRecord) : Option (String × List Symbol) :=
  x.sketches.map fun f => (x.path, f.assembleSymbols)

namespace Controller

variable {c : Controller σ}

/-- The records of all files but the settings, in the order of their collection. -/
def catalogue (c : Controller σ) : List FileRecord :=
  (c.records.erase settingsFile).values.mergeSort collectedBefore

/-- The table that the sketches of a project make, in the order of their collection. -/
def rebuilt (c : Controller σ) : Except AtlasError Table :=
  Table.empty.commitAll (c.catalogue.filterMap FileRecord.commit?)

theorem catalogue_pairwise (c : Controller σ) : c.catalogue.Pairwise fun a b => a.seq ≤ b.seq := by
  let order := compareLex (compareOn FileRecord.seq) (compareOn FileRecord.path)
  have hle : ∀ a b, collectedBefore a b = (order a b).isLE := fun a b =>
    Bool.eq_iff_iff.2 ⟨fun h => Ordering.isLE_iff_ne_gt.2 (bne_iff_ne.1 h), fun h =>
      bne_iff_ne.2 (Ordering.isLE_iff_ne_gt.1 h)⟩
  refine (List.pairwise_mergeSort (fun a b d => ?_) (fun a b => ?_) _).imp fun {a b} h => ?_
  · simp only [hle]
    exact Std.TransCmp.isLE_trans
  · simp only [hle]
    have hswap : order b a = (order a b).swap := Std.OrientedCmp.eq_swap
    rw [hswap]
    cases order a b <;> rfl
  · by_contra hlt
    have hgt : compare a.seq b.seq = .gt := Nat.compare_eq_gt.2 (by omega)
    simp [collectedBefore, hgt] at h

section

variable (hok : ∀ {p x}, c.records.get? p = some x → x.Ok p)

include hok

theorem mem_catalogue {x : FileRecord} :
    x ∈ c.catalogue ↔ x.path ≠ settingsFile ∧ c.records.get? x.path = some x := by
  rw [catalogue, List.mem_mergeSort, mem_values]
  simp only [get?_erase_eq]
  constructor
  · rintro ⟨p, hp⟩
    split at hp
    · cases hp
    · next hne =>
      obtain rfl := (hok hp).path_eq
      exact ⟨hne, hp⟩
  · rintro ⟨hne, hx⟩
    exact ⟨x.path, (if_neg hne).trans hx⟩

/-- A file stands in the catalogue once. -/
theorem catalogue_paths_nodup : (c.catalogue.map (·.path)).Nodup := by
  have hkeys : (c.records.erase settingsFile).values.map (·.path) =
      (c.records.erase settingsFile).keys := by
    unfold values keys
    rw [List.map_map]
    refine List.map_congr_left fun e he => (hok (p := e.1) (x := e.2) ?_).path_eq
    have hget := mem_entries_iff.1 he
    rw [get?_erase_eq] at hget
    split at hget
    · cases hget
    · exact hget
  exact ((List.mergeSort_perm _ _).map _).nodup_iff.2 (hkeys ▸ keys_nodup _)

theorem mem_commits {p : String} {symbols : List Symbol} :
    (p, symbols) ∈ c.catalogue.filterMap FileRecord.commit? ↔
      p ≠ settingsFile ∧ ∃ x, c.collection? p = some x ∧ symbols = x.sketches.assembleSymbols := by
  simp only [List.mem_filterMap, mem_catalogue hok, FileRecord.commit?, Option.map_eq_some_iff,
    Prod.mk.injEq, collection?, Option.bind_eq_some_iff, FileRecord.collection?]
  constructor
  · rintro ⟨x, ⟨hne, hx⟩, f, hf, rfl, rfl⟩
    exact ⟨hne, _, ⟨x, hx, f, hf, rfl⟩, rfl⟩
  · rintro ⟨hne, -, ⟨x, hx, f, hf, rfl⟩, rfl⟩
    obtain rfl := (hok hx).path_eq
    exact ⟨x, ⟨hne, hx⟩, f, hf, rfl, rfl⟩

theorem commits_nodup : ((c.catalogue.filterMap FileRecord.commit?).map (·.1)).Nodup := by
  refine (catalogue_paths_nodup hok).sublist ?_
  rw [List.map_filterMap]
  induction c.catalogue with
  | nil => exact .slnil
  | cons x rest ih =>
    cases hf : x.sketches with
    | none => simpa [FileRecord.commit?, hf] using ih.cons _
    | some f => simpa [FileRecord.commit?, hf] using ih

/-- The ledger of the rebuilt table is that of the project without the settings. -/
theorem Catalogued.rebuilt_ledger (h : Catalogued l c) (hs : c.Sourced A) :
    ((c.catalogue.filterMap FileRecord.commit?).map
      fun f => (f.1, Table.Ledger.definitionsOf f.2)).reverse = l.without settingsFile := by
  set rebuilt := ((c.catalogue.filterMap FileRecord.commit?).map
    fun f => (f.1, Table.Ledger.definitionsOf f.2)).reverse with hrebuilt
  have hmem : ∀ p m, (p, m) ∈ rebuilt ↔ (p, m) ∈ l.without settingsFile := by
    intro p m
    rw [hrebuilt, List.mem_reverse, List.mem_map, Table.Ledger.mem_without]
    constructor
    · rintro ⟨⟨q, symbols⟩, hq, heq⟩
      cases heq
      obtain ⟨hne, x, hx, rfl⟩ := (mem_commits hok).1 hq
      exact ⟨(h.entries hne).2 ⟨x, hx, rfl⟩, hne⟩
    · rintro ⟨hl, hne⟩
      obtain ⟨x, hx, rfl⟩ := (h.entries hne).1 hl
      exact ⟨_, (mem_commits hok).2 ⟨hne, x, hx, rfl⟩, rfl⟩
  have hordered : rebuilt.Pairwise fun a b => c.collectedAt b.1 ≤ c.collectedAt a.1 := by
    rw [hrebuilt, List.pairwise_reverse, List.pairwise_map, List.pairwise_filterMap]
    refine c.catalogue_pairwise.imp_of_mem fun {x y} hx hy hxy a ha b hb => ?_
    have hat : ∀ {x a}, x ∈ c.catalogue → x.commit? = some a → c.collectedAt a.1 = x.seq := by
      intro x a hx ha
      obtain ⟨f, hf, rfl⟩ := Option.map_eq_some_iff.1 ha
      simp [collectedAt, collection?, ((mem_catalogue hok).1 hx).2, FileRecord.collection?, hf]
    rwa [hat hx ha, hat hy hb]
  have hnodup : rebuilt.Nodup := by
    refine List.nodup_reverse.2 (List.Nodup.of_map Prod.fst ?_)
    rw [List.map_map]
    exact commits_nodup hok
  have hnodup' : (l.without settingsFile).Nodup :=
    h.ordered.imp fun {a b} hlt heq => absurd (heq ▸ hlt) (lt_irrefl _)
  refine List.Perm.eq_of_pairwise (fun a b ha hb hab hba => ?_) hordered
    (h.ordered.imp fun hlt => hlt.le) ((List.perm_ext_iff_of_nodup hnodup hnodup').2 fun e =>
      hmem e.1 e.2)
  -- entries of the same time are entries of the same file
  obtain ⟨ha, hane⟩ := Table.Ledger.mem_without.1 ((hmem a.1 a.2).1 ha)
  obtain ⟨hb, hbne⟩ := Table.Ledger.mem_without.1 hb
  obtain ⟨x, hx, hxm⟩ := (h.entries hane).1 ha
  obtain ⟨y, hy, hym⟩ := (h.entries hbne).1 hb
  have hpath : a.1 = b.1 := hs.distinct hx hy (by
    have heq := hba.antisymm hab
    simpa [collectedAt, hx, hy] using heq)
  rw [hpath, hy] at hx
  cases hx
  exact Prod.ext hpath (hxm.trans hym.symm)

/-- The sketches make the definitions of the table again, those of the settings apart. -/
theorem Tallies.definition?_rebuilt (h : c.Tallies A) {t : Table} (ht : c.rebuilt = .ok t)
    (fqn : String) :
    t.definition? fqn = (Table.others settingsFile (c.table.cell fqn).definitions).head? := by
  obtain ⟨hs, l, hl⟩ := h
  have hne : ∀ f ∈ c.catalogue.filterMap FileRecord.commit?, f.1 ≠ "" := by
    rintro ⟨p, symbols⟩ hf
    obtain ⟨hne, x, hx, rfl⟩ := (mem_commits hok).1 hf
    exact (hl.records.own ((hl.entries hne).2 ⟨x, hx, rfl⟩)).1
  have hr := Table.Records.empty.commitAll hne (commits_nodup hok) (fun _ _ _ he => nomatch he) ht
  rw [List.append_nil, hl.rebuilt_ledger hok hs] at hr
  rw [hr.definition?_eq, ← Table.Records.head?_definitions, hl.records.definitions_without,
    hl.records.definitions]

/-- Without clashes of identifiers the sketches are accepted again. -/
theorem Tallies.rebuilt_ok (h : c.Tallies A) (hinj : Set.InjOn SymbolId.ofFqn names)
    (hnames : ∀ {p f}, p ≠ settingsFile → c.sketches.get? p = some f →
      Table.UsesNames names f.assembleSymbols) : ∃ t, c.rebuilt = .ok t := by
  obtain ⟨hs, l, hl⟩ := h
  obtain ⟨t, ht, -⟩ := Table.commitAll_accepts (c.catalogue.filterMap FileRecord.commit?)
    (Table.orderly_empty.sound hinj) Table.counted_empty (by
      rintro ⟨p, symbols⟩ hf
      obtain ⟨hne, x, hx, rfl⟩ := (mem_commits hok).1 hf
      refine ⟨(hl.records.own ((hl.entries hne).2 ⟨x, hx, rfl⟩)).1, hs.acceptable hx,
        hnames hne ?_⟩
      rw [get?_sketches_eq_map, hx]
      rfl)
  exact ⟨t, ht⟩

end

theorem Tallies.containsFile_iff (h : c.Tallies A) {p : String} (hp : p ≠ settingsFile) :
    c.table.containsFile p = true ↔ (c.sketches.get? p).isSome = true := by
  obtain ⟨-, l, hl⟩ := h
  rw [get?_sketches_eq_map, Option.isSome_map, Table.containsFile, contains_iff]
  constructor
  · rintro ⟨entry, he⟩
    obtain ⟨-, m, hm⟩ := hl.records.entry he
    obtain ⟨x, hx, -⟩ := (hl.entries hp).1 hm
    rw [hx]
    rfl
  · intro hx
    obtain ⟨x, hx⟩ := Option.isSome_iff_exists.1 hx
    obtain ⟨entry, he, -⟩ := hl.records.listed ((hl.entries hp).2 ⟨x, hx, rfl⟩)
    exact ⟨entry, he⟩

/-! ## Every state of a project -/

section

variable [Sink σ] {P : RunKind σ} {Q : σ → σ → Prop} {c₀ c : Controller σ}

/-- The sources that are offered have the digest of their content. -/
def Digested : RunKind σ := fun _ changes _ _ _ =>
  ∀ s, .modified s ∈ changes → s.fingerprint = Digest.ofString s.content

omit [Sink σ] in
theorem Digested.seen {k : Conditions} {full : Bool} {report : RunReport} (paths : List String) :
    Digested k (paths.map .seen) full c report := by
  intro s hs
  obtain ⟨path, -, h⟩ := List.mem_map.1 hs
  cases h
  rfl

theorem Reaches.tallies (hnew : c₀.IsNew)
    (hA : ∀ {k changes full c report}, P k changes full c report →
      ∀ s, .modified s ∈ changes → A s) (h : Reaches names P Q c₀ c) : c.Tallies A :=
  h.induct (I := fun c => c.Tallies A) hnew.orderly hnew.tallies
    (fun hc _ hw hkind ht hran => hran.tallies hc hw (hA hkind) ht)
    fun _ ht => ⟨ht.1.of_le le_rfl rfl id, ht.2.imp fun _ hl =>
      hl.of_same hl.records rfl fun _ _ => rfl⟩

/-- Apart from the settings, the files that the table knows are those with sketches. The sketches,
committed to an empty table in the order of their collection, make the definition of every name
again that the settings do not own; no two were collected at the same time, and each is what the
collector makes of a content with the digest of the record. -/
theorem records_tell_table (hnew : c₀.IsNew) (h : Reaches Set.univ P Q c₀ c) :
    (∀ p, p ≠ settingsFile →
      (c.table.containsFile p = true ↔ (c.sketches.get? p).isSome = true)) ∧
    (∀ names, Set.InjOn SymbolId.ofFqn names →
      (∀ p f, p ≠ settingsFile → c.sketches.get? p = some f →
        Table.UsesNames names f.assembleSymbols) →
      ∃ t, c.rebuilt = .ok t ∧
        ∀ fqn, (∀ s, c.table.definition? fqn = some s → s.file ≠ settingsFile) →
          t.definition? fqn = c.table.definition? fqn) ∧
    (∀ p q x y, c.records.get? p = some x → c.records.get? q = some y →
      x.sketches.isSome = true → y.sketches.isSome = true → x.seq = y.seq → p = q) ∧
    ((∀ {k changes full c report}, P k changes full c report →
        Digested k changes full c report) →
      ∀ p x f, c.records.get? p = some x → x.sketches = some f → ∃ s : SourceFile, s.path = p ∧
        Digest.ofString s.content = x.fingerprint ∧ (c.registry.collect s).outcome = .done f) := by
  have horderly : c.Orderly Set.univ := (h.orderly_sameKind hnew.orderly).1
  have hcollection {p : String} {x : FileRecord} {f : FileSketch} (hx : c.records.get? p = some x)
      (hf : x.sketches = some f) : c.collection? p = some ⟨x.seq, x.fingerprint, f⟩ := by
    simp [collection?, hx, FileRecord.collection?, hf]
  have htallies : c.Tallies fun _ => True := h.tallies hnew fun _ _ _ => trivial
  refine ⟨fun p hp => htallies.containsFile_iff hp, fun names hinj hnames => ?_,
    fun p q x y hx hy hsx hsy => ?_, fun hdig p x f hx hf => ?_⟩
  · obtain ⟨t, ht⟩ := htallies.rebuilt_ok horderly.record hinj fun hp hf => hnames _ _ hp hf
    have hdef := htallies.definition?_rebuilt horderly.record ht
    refine ⟨t, ht, fun fqn hfile => ?_⟩
    obtain ⟨-, l, hl⟩ := htallies
    have hlive : c.table.definition? fqn = ((c.table.cell fqn).definitions).head? := by
      rw [hl.records.definition?_eq, hl.records.definitions, Table.Records.head?_definitions]
    rw [hdef, hlive]
    rw [hlive] at hfile
    cases hd : (c.table.cell fqn).definitions with
    | nil => rfl
    | cons s rest =>
      have hne : s.file ≠ settingsFile := hfile s (by rw [hd]; rfl)
      simp [Table.others, hne]
  · obtain ⟨f, hf⟩ := Option.isSome_iff_exists.1 hsx
    obtain ⟨g, hg⟩ := Option.isSome_iff_exists.1 hsy
    exact htallies.1.distinct (hcollection hx hf) (hcollection hy hg)
  · obtain ⟨s, hA, hpath, hprint, hout⟩ :=
      (h.tallies hnew fun hk => hdig hk).1.origin (hcollection hx hf)
    exact ⟨s, hpath, hA ▸ hprint, hout⟩

/-- No file can be resolved. -/
def unresolving : Conditions :=
  { befalls := fun pass _ => if pass = .resolve then .failed ["unreadable"] else .done () }

/-- Two files that define the same class. -/
def rivals : Controller MemoryStore :=
  let defining (path : String) : FileSketch :=
    { path, language := "go", separator := "."
      symbols := [{ name := "C", kind := .classType, line := 1, column := 1 }] }
  ofSketches [defining "a.go", defining "b.go"]

theorem runs_rivals : (["a.go", "b.go", "C"].map SymbolId.ofFqn).Nodup ∧
    ∃ x, rivals.run unresolving [.seen "b.go"] false = .ok x ∧
      ∃ y, x.2.run unresolving [.seen "a.go"] false = .ok y ∧
        (∀ f ∈ y.2.sketches.values, ∀ s ∈ f.assembleSymbols,
          s.fqn ∈ ["a.go", "b.go", "C"] ∧ s.moduleName = none) ∧
        (y.2.table.definition? "C").map (·.file) = some "a.go" := by
  decide +kernel

/-- The class is that of the file which was collected last, and so it is when the table is made again
from the sketches. -/
theorem records_tell_table_rivals : ∃ c, Reaches Set.univ Digested (fun _ _ => True) rivals c ∧
    (c.table.containsFile "a.go" = true ↔ (c.sketches.get? "a.go").isSome = true) ∧
    (∃ t, c.rebuilt = .ok t ∧ (t.definition? "C").map (·.file) = some "a.go") ∧
    ∀ p x f, c.records.get? p = some x → x.sketches = some f → ∃ s : SourceFile, s.path = p ∧
      Digest.ofString s.content = x.fingerprint ∧ (c.registry.collect s).outcome = .done f := by
  obtain ⟨hnodup, ⟨report, c₁⟩, hrun, ⟨report', c⟩, hrun', hnames, hlast⟩ := runs_rivals
  have hreach : Reaches Set.univ Digested (fun _ _ => True) rivals c :=
    .run (.run .start (within_univ ..) (.seen ["b.go"]) hrun) (within_univ ..) (.seen ["a.go"]) hrun'
  obtain ⟨hfiles, hrebuilt, -, horigin⟩ := records_tell_table ⟨rfl, rfl, rfl⟩ hreach
  obtain ⟨t, ht, hsame⟩ := hrebuilt _ (injOn_ofFqn hnodup) fun p f _ hf s hs => by
    obtain ⟨hfqn, hnone⟩ := hnames f (mem_values.2 ⟨p, hf⟩) s hs
    exact ⟨hfqn, fun ns hns => by rw [hnone] at hns; cases hns⟩
  refine ⟨c, hreach, hfiles _ (by decide), ⟨t, ht, ?_⟩, horigin id⟩
  rw [hsame "C" fun s hs => ?_, hlast]
  rw [hs, Option.map_some, Option.some.injEq] at hlast
  rw [hlast]
  decide

end

/-! ## A name that the settings own -/

/-- A class whose name is the path of the settings, which have an edge of their own: the file listens
to an event. -/
def claimed : Controller MemoryStore :=
  { ofSketches [
      { path := "z.go", language := "go", separator := ".", moduleName := some "symgraph"
        symbols := [{ name := "toml", kind := .classType, line := 1, column := 1 }] }] with
    settings := { enrichment := { events := { listeners := .ofList [("e", ["z.go"])] } } } }

theorem run_claimed : ∃ x, claimed.run {} [.seen "z.go"] false = .ok x ∧
    (x.2.table.definition? settingsFile).map (·.file) = some settingsFile ∧
    ∃ t, x.2.rebuilt = .ok t ∧ (t.definition? settingsFile).map (·.file) = some "z.go" := by
  decide +kernel

/-- The settings take over the name of a class, but the sketches do not make their node. -/
theorem rebuilt_differs_claimed : ∃ c : Controller MemoryStore,
    Reaches Set.univ Digested (fun _ _ => True) claimed c ∧
      ¬∃ t, c.rebuilt = .ok t ∧ ∀ fqn, t.definition? fqn = c.table.definition? fqn := by
  obtain ⟨⟨report, c⟩, hrun, hsettings, t, ht, hclass⟩ := run_claimed
  refine ⟨c, .run .start (within_univ ..) (.seen ["z.go"]) hrun, ?_⟩
  rintro ⟨t', ht', hall⟩
  cases ht.symm.trans ht'
  rw [hall, hsettings] at hclass
  exact absurd hclass (by decide)

end Controller

end CodeAtlas
