import Mathlib
import CodeAtlas.Proofs.Project.Catalogue
import CodeAtlas.Proofs.Project.Histories

/-!
# Restoring a project

A project is restored from whatever a store kept, which may come from a history that was interrupted
anywhere. The table takes the symbols of the records, then placeholders, and at last the edges of
one owner after the other: all of them if the owner can be trusted and every end is known, else none.

Main results:

* `Controller.foldlM_restoreRecord_ok`, `Controller.foldlM_restoreRecord_error`: records are taken
  over as their symbols are committed.
* `Controller.restoreOwner_ok`, `Controller.foldlM_restoreOwner`: taking over edges never fails, and
  the marks that owners get.
* `Controller.restore_cases`: what a project knows when it comes to the edges.
* `Controller.restore_all_or_nothing`: when restoring fails, and which edges are there otherwise.
-/

namespace CodeAtlas

open SortedMap SymbolLookup

variable {σ : Type}

/-! ## Tables without edges -/

namespace Table

variable {t t' : Table} {file : String} {files : List (String × List Symbol)}

/-- A table in order that has no edges yet. -/
structure Bare (t : Table) : Prop where
  orderly : Orderly Set.univ t
  intact : Intact t
  edges : ∀ owner, t.edgesOf owner = []

theorem bare_empty : Bare .empty :=
  ⟨orderly_empty, intact_after [], fun _ => rfl⟩

theorem Bare.commitFile (h : t.Bare) {symbols : List Symbol} (hfile : file ≠ "")
    {summary : CommitSummary} (hok : t.commitFile file symbols = (.ok summary, t')) : t'.Bare := by
  have hup := commitFile_update h.orderly h.intact.counted hfile
    (fun _ _ => ⟨trivial, fun _ _ => trivial⟩) hok
  have hintact := h.intact.commitFile file symbols
  rw [hok] at hintact
  refine ⟨hup.orderly, hintact, fun owner => ?_⟩
  by_cases ho : owner = file
  · subst ho
    refine List.eq_nil_iff_forall_not_mem.2 fun e he => ?_
    have hold := (hup.own e he).1
    rw [h.edges] at hold
    cases hold
  · rw [hup.edges owner ho, h.edges]
    rfl

/-- What every file commits has a symbol that is named after its file. -/
theorem Bare.commitAll (h : t.Bare) (hfiles : ∀ f ∈ files, ∃ s ∈ f.2, s.fqn = s.file)
    (hok : t.commitAll files = .ok t') : t'.Bare := by
  induction files generalizing t with
  | nil =>
    cases hok
    exact h
  | cons f rest ih =>
    obtain ⟨summary, t₁, hcommit, hrest⟩ := commitAll_cons_eq_ok.1 hok
    obtain ⟨s, hs, hname⟩ := hfiles f (List.mem_cons_self ..)
    obtain ⟨hne, hfile, -⟩ := commitFile_admits hcommit hs
    refine ih (h.commitFile ?_ hcommit) (fun g hg => hfiles g (List.mem_cons_of_mem _ hg)) hrest
    rw [← hfile, ← hname]
    exact hne

theorem Bare.ensurePlaceholder (h : t.Bare) (template : Symbol) :
    (t.ensurePlaceholder template).2.Bare := by
  have ht := ensurePlaceholder_taught t template
  exact ⟨ht.orderly (fun _ _ => trivial) h.orderly, h.intact.ensurePlaceholder template,
    fun owner => (ht.edges.edgesOf owner).trans (h.edges owner)⟩

/-- Accepted symbols have a name and stand in their file. -/
theorem commitAll_admits (hok : t.commitAll files = .ok t') :
    ∀ f ∈ files, ∀ s ∈ f.2, s.fqn ≠ "" ∧ s.file = f.1 := by
  induction files generalizing t with
  | nil => exact fun f hf => by cases hf
  | cons g rest ih =>
    obtain ⟨summary, t₁, hcommit, hrest⟩ := commitAll_cons_eq_ok.1 hok
    intro f hf s hs
    rcases List.mem_cons.1 hf with rfl | hf
    · obtain ⟨hne, hfile, -⟩ := commitFile_admits hcommit hs
      exact ⟨hne, hfile⟩
    · exact ih hrest f hf s hs

/-- A row of commits is refused at the first file that is. -/
theorem commitAll_eq_error {e : AtlasError} (h : t.commitAll files = .error e) :
    ∃ before file symbols after t₁,
      files = before ++ (file, symbols) :: after ∧ t.commitAll before = .ok t₁ ∧
        (t₁.commitFile file symbols).1 = .error e := by
  induction files generalizing t with
  | nil => cases h
  | cons f rest ih =>
    rcases hf : t.commitFile f.1 f.2 with ⟨e' | summary, t₁⟩
    · have he : e' = e := by
        unfold commitAll at h
        rw [List.foldlM_cons, hf] at h
        exact Except.error.inj h
      refine ⟨[], f.1, f.2, rest, t, rfl, rfl, ?_⟩
      rw [hf, he]
    · have hrest : t₁.commitAll rest = .error e := by
        unfold commitAll at h
        rw [List.foldlM_cons, hf] at h
        exact h
      obtain ⟨before, file, symbols, after, t₂, rfl, hbefore, herror⟩ := ih hrest
      exact ⟨f :: before, file, symbols, after, t₂, rfl,
        commitAll_cons_eq_ok.2 ⟨summary, t₁, hf, hbefore⟩, herror⟩

end Table

/-! ## What a store kept -/

namespace StoredState

variable (stored : StoredState)

/-- The records in the order in which their files were collected. -/
def catalogue : List FileRecord := stored.records.mergeSort Controller.collectedBefore

/-- The record of a path: the one that was collected last. -/
def record? (path : String) : Option FileRecord :=
  (stored.catalogue.filter fun x => x.path == path).getLast?

theorem mem_catalogue_of_record? {stored : StoredState} {p : String} {x : FileRecord}
    (h : stored.record? p = some x) : x ∈ stored.catalogue ∧ x.path = p := by
  obtain ⟨hmem, hpath⟩ := List.mem_filter.1 (List.mem_of_getLast? h)
  exact ⟨hmem, beq_iff_eq.1 hpath⟩

/-- The edges of an owner, in order and without repetitions. -/
def ownedBy (owner : String) : List Edge :=
  Table.dropRepeats (Edge.sort (stored.edges.filter fun e => e.owner == owner))

/-- Whether the rows of an owner are up to date: it is the settings, or its record has sketches and
was resolved or failed. -/
def Vouches (owner : String) : Prop :=
  owner = settingsFile ∨ ∃ x, stored.record? owner = some x ∧ x.sketches.isSome = true ∧
    (x.state = .resolved ∨ x.state = .failed)

/-- A table refuses the symbols of a record or the node of the settings, when the records before it
and, for the settings, the placeholders have been taken over. -/
inductive Refused (e : AtlasError) : Prop
  | record {before after : List (String × List Symbol)} {file : String} {symbols : List Symbol}
      {t : Table}
      (split : stored.catalogue.filterMap FileRecord.commit? = before ++ (file, symbols) :: after)
      (built : Table.empty.commitAll before = .ok t)
      (refused : (t.commitFile file symbols).1 = .error e)
  | settings {t : Table} (owns : ∃ x ∈ stored.edges, x.owner = settingsFile)
      (built : Table.empty.commitAll (stored.catalogue.filterMap FileRecord.commit?) = .ok t)
      (refused : (((stored.placeholders.filter Symbol.isExternal).foldl
        (fun t s => (t.ensurePlaceholder s).2) t).commitFile settingsFile [settingsSymbol]).1 =
          .error e)

/-- What a table has of the edges that were kept. No edge has an unknown end; an owner has all its
edges or none, and it has them if it can be trusted and all their ends are known. -/
structure Restored (t : Table) : Prop where
  ends : ∀ owner, ∀ e ∈ t.edgesOf owner,
    (findId? t e.source).isSome = true ∧ (findId? t e.target).isSome = true
  owners : ∀ owner, t.edgesOf owner = [] ∨
    t.edgesOf owner = stored.ownedBy owner ∧ stored.Vouches owner
  taken : ∀ owner, stored.Vouches owner → (∀ e ∈ stored.edges, e.owner = owner →
    (findId? t e.source).isSome = true ∧ (findId? t e.target).isSome = true) →
      t.edgesOf owner = stored.ownedBy owner

end StoredState

/-- The record of a file that has been collected at least once. -/
def FileRecord.IsCollected (x : FileRecord) : Prop := x.sketches.isSome = true ∧ x.state ≠ .unknown

namespace Controller

variable {c c' : Controller σ} {owner : String} {edges : List Edge}

/-! ## Records -/

theorem getLast?_filter_cons (x : FileRecord) (l : List FileRecord) (p : String)
    (old : Option FileRecord) :
    ((l.filter fun y => y.path == p).getLast?).or (if p = x.path then some x else old) =
      (((x :: l).filter fun y => y.path == p).getLast?).or old := by
  by_cases hp : x.path = p
  · rw [if_pos hp.symm, List.filter_cons_of_pos (by simpa using hp), List.getLast?_cons]
    cases (l.filter fun y => y.path == p).getLast? <;> rfl
  · rw [if_neg (Ne.symm hp), List.filter_cons_of_neg (by simpa using hp)]

/-- Records are taken over if their symbols are accepted; the last one of a path counts. -/
theorem foldlM_restoreRecord_ok {l : List FileRecord} {t : Table}
    (h : c.table.commitAll (l.filterMap FileRecord.commit?) = .ok t) :
    ∃ c', l.foldlM restoreRecord c = .ok c' ∧ c'.table = t ∧ ∀ p, c'.records.get? p =
      ((l.filter fun x => x.path == p).getLast?).or (c.records.get? p) := by
  induction l generalizing c with
  | nil =>
    cases h
    exact ⟨c, rfl, rfl, fun p => rfl⟩
  | cons x rest ih =>
    have hget : ∀ p, (c.records.insert x.path x).get? p =
        if p = x.path then some x else c.records.get? p := fun p => get?_insert_eq ..
    cases hx : x.sketches with
    | none =>
      rw [List.filterMap_cons_none (by simp [FileRecord.commit?, hx])] at h
      obtain ⟨c', hok, htable, hrecords⟩ := ih (c := { c with
        seq := max c.seq x.seq, records := c.records.insert x.path x }) h
      refine ⟨c', foldlM_cons_eq_ok.2 ⟨_, by simp only [restoreRecord, hx], hok⟩, htable,
        fun p => ?_⟩
      rw [hrecords, hget, getLast?_filter_cons]
    | some f =>
      rw [List.filterMap_cons_some (b := (x.path, f.assembleSymbols))
        (by simp [FileRecord.commit?, hx])] at h
      obtain ⟨summary, t₁, hcommit, hrest⟩ := Table.commitAll_cons_eq_ok.1 h
      obtain ⟨c', hok, htable, hrecords⟩ := ih (c := { c with
        table := t₁, seq := max c.seq x.seq, records := c.records.insert x.path x }) hrest
      refine ⟨c', foldlM_cons_eq_ok.2 ⟨_, by simp only [restoreRecord, hx, hcommit], hok⟩, htable,
        fun p => ?_⟩
      rw [hrecords, hget, getLast?_filter_cons]

theorem foldlM_restoreRecord_error {l : List FileRecord} {e : AtlasError}
    (h : c.table.commitAll (l.filterMap FileRecord.commit?) = .error e) :
    ∃ halt, l.foldlM restoreRecord c = .error halt ∧ halt.error = e := by
  induction l generalizing c with
  | nil => cases h
  | cons x rest ih =>
    rw [List.foldlM_cons]
    cases hx : x.sketches with
    | none =>
      rw [List.filterMap_cons_none (by simp [FileRecord.commit?, hx])] at h
      simp only [restoreRecord, hx]
      exact ih h
    | some f =>
      rw [List.filterMap_cons_some (b := (x.path, f.assembleSymbols))
        (by simp [FileRecord.commit?, hx])] at h
      unfold Table.commitAll at h
      rw [List.foldlM_cons] at h
      simp only [restoreRecord, hx]
      rcases hc : c.table.commitFile x.path f.assembleSymbols with ⟨e' | summary, t₁⟩ <;>
        rw [hc] at h
      · exact ⟨_, rfl, Except.error.inj h⟩
      · exact ih h

/-! ## Owners -/

/-- Grouping keeps the order of the edges of an owner, and no owner is without edges. -/
theorem get?_byOwner (edges : List Edge) (owner : String) :
    (byOwner edges).get? owner = if (edges.filter fun e => e.owner == owner) = [] then none
      else some (edges.filter fun e => e.owner == owner) := by
  have hrun : ∀ (l : List Edge) (m : SortedMap String (List Edge)),
      (l.foldl (fun m e => m.insert e.owner (m.getD e.owner [] ++ [e])) m).get? owner =
        if (l.filter fun e => e.owner == owner) = [] then m.get? owner
        else some (m.getD owner [] ++ l.filter fun e => e.owner == owner) := by
    intro l
    induction l with
    | nil => exact fun m => rfl
    | cons e rest ih =>
      intro m
      rw [List.foldl_cons, ih, get?_insert_eq, getD_insert]
      by_cases ho : e.owner = owner
      · subst ho
        rw [if_pos rfl, if_pos rfl, List.filter_cons_of_pos (by simp), if_neg (List.cons_ne_nil _ _)]
        split
        · next hnil => rw [hnil]
        · rw [List.append_assoc, List.singleton_append]
      · rw [if_neg (Ne.symm ho), if_neg (Ne.symm ho), List.filter_cons_of_neg (by simpa using ho)]
  rw [byOwner, hrun]
  rfl

theorem owner_of_mem_byOwner {edges : List Edge} :
    ∀ x ∈ (byOwner edges).entries, ∀ e ∈ x.2, e.owner = x.1 := by
  intro x hx e he
  have hget := mem_entries_iff.1 hx
  rw [get?_byOwner] at hget
  split at hget
  · cases hget
  · rw [← Option.some.inj hget] at he
    exact beq_iff_eq.1 (List.mem_filter.1 he).2

/-- Whether the records and the settings vouch for the edges of an owner. -/
def Vouches (c : Controller σ) (owner : String) : Prop :=
  owner = settingsFile ∨ ∃ x, c.records.get? owner = some x ∧ x.isAcknowledged = true

theorem isIntact_congr {t t' : Table} (h : Table.SameSymbols t t') : isIntact t' = isIntact t := by
  funext e
  unfold isIntact
  rw [h.findId?, h.findId?]

theorem contains_ids_of_isIntact {t : Table} {e : Edge} (h : isIntact t e = true) :
    t.ids.contains e.target = true := by
  obtain ⟨x, hx⟩ := Option.isSome_iff_exists.1 (Bool.and_eq_true_iff.1 h).2
  obtain ⟨fqn, hfqn, -⟩ := Option.bind_eq_some_iff.1 hx
  exact contains_of_get? hfqn

/-- The next run has to see to an owner: to the edges of the settings, to the rows of a file that is
gone, or to a file that waits for its resolution. -/
inductive Awaits (c : Controller σ) (owner : String) : Prop
  | settings (eq : owner = settingsFile) (dirty : c.settingsDirty = true)
  | gone (ne : owner ≠ settingsFile) (record : c.records.get? owner = some (.tombstone owner))
  | pending (ne : owner ≠ settingsFile) {x : FileRecord} (record : c.records.get? owner = some x)
      (pending : x.isPending = true)

/-- The last collection of a file failed. -/
def Failed (c : Controller σ) (owner : String) : Prop :=
  owner ≠ settingsFile ∧ ∃ x, c.records.get? owner = some x ∧ x.state = .failed

/-- What taking over edges makes of the record of a path. -/
inductive Restates (p : String) : Option FileRecord → Option FileRecord → Prop
  | same (x : Option FileRecord) : Restates p x x
  | buried : Restates p none (some (.tombstone p))
  | outdated {x : FileRecord} (resolved : x.state = .resolved) :
      Restates p (some x) (some { x with state := .stale })

/-- What becomes of the marks when the edges of an owner are taken over or left out. -/
structure Marks (owner : String) (edges : List Edge) (c c' : Controller σ) : Prop where
  record : Restates owner (c.records.get? owner) (c'.records.get? owner)
  dirty : c.settingsDirty = true → c'.settingsDirty = true
  left : (owner ≠ settingsFile → ∀ x, c.records.get? owner = some x → x.IsCollected) →
    ¬(c.Vouches owner ∧ edges.all (isIntact c.table) = true) → c'.Awaits owner ∨ c.Failed owner

theorem Awaits.of_kept (h : c.Awaits owner) (hrecord : c'.records.get? owner = c.records.get? owner)
    (hdirty : c.settingsDirty = true → c'.settingsDirty = true) : c'.Awaits owner := by
  cases h with
  | settings heq h => exact .settings heq (hdirty h)
  | gone hne h => exact .gone hne (hrecord.trans h)
  | pending hne h hp => exact .pending hne (hrecord.trans h) hp

theorem Failed.of_kept (h : c'.Failed owner)
    (hrecord : c'.records.get? owner = c.records.get? owner) : c.Failed owner := by
  obtain ⟨hne, x, hx, hfailed⟩ := h
  exact ⟨hne, x, hrecord ▸ hx, hfailed⟩

/-- What becomes of a project when the edges of an owner are taken over or left out. -/
structure TakesOver (owner : String) (edges : List Edge) (c c' : Controller σ) : Prop where
  intact : c'.table.Intact
  same : c.table.SameSymbols c'.table
  records : ∀ p, p ≠ owner → c'.records.get? p = c.records.get? p
  others : ∀ o, o ≠ owner → c'.table.edgesOf o = c.table.edgesOf o
  taken : c.Vouches owner → edges.all (isIntact c.table) = true →
    c'.table.edgesOf owner = Table.dropRepeats (Edge.sort edges)
  left : ¬(c.Vouches owner ∧ edges.all (isIntact c.table) = true) →
    c'.table.edgesOf owner = c.table.edgesOf owner

/-- Edges with known ends are accepted. -/
theorem takeEdges_ok (h : c.table.Intact) (howner : ∀ e ∈ edges, e.owner = owner)
    (hv : c.Vouches owner) (hends : edges.all (isIntact c.table) = true) :
    ∃ c', c.takeEdges owner edges = .ok c' ∧ TakesOver owner edges c c' ∧
      Marks owner edges c c' := by
  have hadm : c.table.Admissible owner edges := fun e he =>
    ⟨howner e he, contains_ids_of_isIntact (List.all_eq_true.1 hends e he)⟩
  obtain ⟨t', hok, -⟩ := Table.replaceEdges_of_admissible hadm
  obtain ⟨-, hr⟩ := Table.replaceEdges_rewires hok
  refine ⟨{ c with table := t' }, by simp only [takeEdges, hok],
    ⟨h.replaceEdges hok, hr.same, fun _ _ => rfl, fun o ho => (hr.edgesOf o).trans (if_neg ho),
      fun _ _ => (hr.edgesOf owner).trans (if_pos rfl), fun hleft => absurd ⟨hv, hends⟩ hleft⟩,
    .same _, id, fun _ hleft => absurd ⟨hv, hends⟩ hleft⟩

/-- Edges that are left out change at most the record of their owner. -/
theorem TakesOver.leave (h : c.table.Intact)
    (htable : c'.table = c.table) (hrecords : ∀ p, p ≠ owner → c'.records.get? p = c.records.get? p)
    (hleft : ¬(c.Vouches owner ∧ edges.all (isIntact c.table) = true)) :
    TakesOver owner edges c c' where
  intact := htable ▸ h
  same := htable ▸ .refl _
  records := hrecords
  others o _ := by rw [htable]
  taken hv hends := absurd ⟨hv, hends⟩ hleft
  left _ := by rw [htable]

/-- Taking over the edges of an owner never fails, and an owner whose edges are left out gets a
mark, unless it failed. -/
theorem restoreOwner_ok (h : c.table.Intact) (howner : ∀ e ∈ edges, e.owner = owner) :
    ∃ c', c.restoreOwner (owner, edges) = .ok c' ∧ TakesOver owner edges c c' ∧
      Marks owner edges c c' := by
  have hinsert : ∀ (x : FileRecord) (p : String), p ≠ owner →
      (c.records.insert owner x).get? p = c.records.get? p := fun x p hp =>
    (get?_insert_eq ..).trans (if_neg hp)
  unfold restoreOwner
  dsimp only
  split
  · next hs =>
    obtain rfl : owner = settingsFile := beq_iff_eq.1 hs
    split
    · next hends => exact takeEdges_ok h howner (.inl rfl) hends
    · next hends =>
      exact ⟨_, rfl, .leave h rfl (fun _ _ => rfl) fun hboth => hends hboth.2, .same _,
        fun _ => rfl, fun _ _ => .inl (.settings rfl rfl)⟩
  · next hs =>
    have hne : owner ≠ settingsFile := by simpa using hs
    split
    · next hnone =>
      refine ⟨_, rfl, .leave h rfl (hinsert _) fun hboth => ?_, ?_, id,
        fun _ _ => .inl (.gone hne (get?_insert_self ..))⟩
      · obtain ⟨x, hx, -⟩ := hboth.1.resolve_left hne
        rw [hnone] at hx
        cases hx
      · rw [hnone, get?_insert_self]
        exact .buried
    · next x hx =>
      split
      · next hboth =>
        obtain ⟨hack, hends⟩ := Bool.and_eq_true_iff.1 hboth
        exact takeEdges_ok h howner (.inr ⟨x, hx, hack⟩) hends
      · next hnot =>
        have hleft : ¬(c.Vouches owner ∧ edges.all (isIntact c.table) = true) := by
          rintro ⟨hv, hends⟩
          obtain ⟨y, hy, hack⟩ := hv.resolve_left hne
          obtain rfl : x = y := Option.some.inj (hx.symm.trans hy)
          exact hnot (Bool.and_eq_true_iff.2 ⟨hack, hends⟩)
        split
        · next hresolved =>
          have hnew : (c.records.insert owner { x with state := .stale }).get? owner =
              some { x with state := .stale } := get?_insert_self ..
          refine ⟨_, rfl, .leave h rfl (hinsert _) hleft, ?_, id,
            fun hcol _ => .inl (.pending hne hnew ?_)⟩
          · rw [hx, hnew]
            exact .outdated (beq_iff_eq.1 hresolved)
          · simpa [FileRecord.isPending] using (hcol hne x hx).1
        · next hstate =>
          refine ⟨_, rfl, .leave h rfl (fun _ _ => rfl) hleft, .same _, id, fun hcol _ => ?_⟩
          obtain ⟨hsk, hknown⟩ := hcol hne x hx
          by_cases hfailed : x.state = .failed
          · exact .inr ⟨hne, x, hx, hfailed⟩
          · refine .inl (.pending hne hx ?_)
            unfold FileRecord.isPending
            cases hst : x.state <;> simp_all

/-- Every owner gets all its edges, or keeps what it has and gets a mark. -/
theorem foldlM_restoreOwner {l : List (String × List Edge)} (h : c.table.Intact)
    (hl : (l.map (·.1)).Nodup) (howner : ∀ x ∈ l, ∀ e ∈ x.2, e.owner = x.1) :
    ∃ c', l.foldlM restoreOwner c = .ok c' ∧ c'.table.Intact ∧ c.table.SameSymbols c'.table ∧
      (c.settingsDirty = true → c'.settingsDirty = true) ∧
      (∀ o, o ∉ l.map (·.1) → c'.records.get? o = c.records.get? o ∧
        c'.table.edgesOf o = c.table.edgesOf o) ∧
      ∀ x ∈ l, Restates x.1 (c.records.get? x.1) (c'.records.get? x.1) ∧
        (c.Vouches x.1 → x.2.all (isIntact c.table) = true →
          c'.table.edgesOf x.1 = Table.dropRepeats (Edge.sort x.2)) ∧
        (¬(c.Vouches x.1 ∧ x.2.all (isIntact c.table) = true) →
          c'.table.edgesOf x.1 = c.table.edgesOf x.1) ∧
        ((x.1 ≠ settingsFile → ∀ y, c.records.get? x.1 = some y → y.IsCollected) →
          ¬(c.Vouches x.1 ∧ x.2.all (isIntact c.table) = true) →
            c'.Awaits x.1 ∨ c.Failed x.1) := by
  induction l generalizing c with
  | nil => exact ⟨c, rfl, h, .refl _, id, fun _ _ => ⟨rfl, rfl⟩, fun x hx => by cases hx⟩
  | cons y rest ih =>
    obtain ⟨hy, hrest⟩ := List.nodup_cons.1 hl
    obtain ⟨c₁, hok₁, hstep, hmarks⟩ := restoreOwner_ok h (howner y (List.mem_cons_self ..))
    obtain ⟨c', hok, hintact, hsame, hdirty, hothers, howned⟩ := ih hstep.intact hrest
      fun x hx => howner x (List.mem_cons_of_mem _ hx)
    refine ⟨c', foldlM_cons_eq_ok.2 ⟨c₁, hok₁, hok⟩, hintact, hstep.same.trans hsame,
      hdirty ∘ hmarks.dirty, fun o ho => ?_, fun x hx => ?_⟩
    · obtain ⟨hoy, ho⟩ := not_or.1 (mt List.mem_cons.2 ho)
      rw [(hothers o ho).1, (hothers o ho).2, hstep.others o hoy]
      exact ⟨hstep.records o hoy, rfl⟩
    · rcases List.mem_cons.1 hx with rfl | hx
      · obtain ⟨hrecord, hedges⟩ := hothers x.1 hy
        rw [hedges, hrecord]
        exact ⟨hmarks.record, hstep.taken, hstep.left, fun hcol hnot =>
          (hmarks.left hcol hnot).imp_left fun ha => ha.of_kept hrecord hdirty⟩
      · -- the step before has changed neither the record nor the ends of another owner
        have hne : x.1 ≠ y.1 := fun heq => hy (List.mem_map.2 ⟨x, hx, heq⟩)
        have hrecord := hstep.records x.1 hne
        have hv : c₁.Vouches x.1 ↔ c.Vouches x.1 := by
          unfold Vouches
          rw [hrecord]
        have hx := howned x hx
        rw [hv, isIntact_congr hstep.same, hstep.others x.1 hne, hrecord] at hx
        obtain ⟨hrestates, htaken, hleft, hmark⟩ := hx
        exact ⟨hrestates, htaken, hleft, fun hcol hnot =>
          (hmark hcol hnot).imp_right fun hf => hf.of_kept hrecord⟩

/-! ## The whole project -/

theorem vouches_iff {stored : StoredState} {owner : String}
    (h : ∀ p, c.records.get? p = stored.record? p) : c.Vouches owner ↔ stored.Vouches owner := by
  unfold Vouches StoredState.Vouches
  simp only [h, FileRecord.isAcknowledged, Bool.and_eq_true, Bool.or_eq_true, beq_iff_eq]

theorem foldl_restorePlaceholder (l : List Symbol) (c : Controller σ) :
    (l.foldl restorePlaceholder c).table = (l.filter Symbol.isExternal).foldl
        (fun t s => (t.ensurePlaceholder s).2) c.table ∧
      (l.foldl restorePlaceholder c).records = c.records := by
  induction l generalizing c with
  | nil => exact ⟨rfl, rfl⟩
  | cons s rest ih =>
    obtain ⟨htable, hrecords⟩ := ih (c.restorePlaceholder s)
    rw [List.foldl_cons, htable, hrecords]
    unfold restorePlaceholder
    by_cases hext : s.isExternal = true
    · rw [if_pos hext, List.filter_cons_of_pos hext]
      exact ⟨rfl, rfl⟩
    · rw [if_neg hext, List.filter_cons_of_neg hext]
      exact ⟨rfl, rfl⟩

theorem bare_foldl_ensurePlaceholder {t : Table} (h : t.Bare) (l : List Symbol) :
    (l.foldl (fun t s => (t.ensurePlaceholder s).2) t).Bare := by
  induction l generalizing t with
  | nil => exact h
  | cons s rest ih => exact ih (h.ensurePlaceholder s)

/-- In a table without edges, an owner has all the edges that were kept for it, or none. -/
theorem foldlM_restoreOwner_byOwner (h : c.table.Bare) (edges : List Edge) :
    ∃ c', (byOwner edges).entries.foldlM restoreOwner c = .ok c' ∧ c'.table.Intact ∧
      c.table.SameSymbols c'.table ∧
      (∀ p, Restates p (c.records.get? p) (c'.records.get? p)) ∧ ∀ owner,
        (c.Vouches owner → (edges.filter fun e => e.owner == owner).all (isIntact c.table) = true →
          c'.table.edgesOf owner =
            Table.dropRepeats (Edge.sort (edges.filter fun e => e.owner == owner))) ∧
        (¬(c.Vouches owner ∧
            (edges.filter fun e => e.owner == owner).all (isIntact c.table) = true) →
          c'.table.edgesOf owner = []) ∧
        ((edges.filter fun e => e.owner == owner) ≠ [] →
          (owner ≠ settingsFile → ∀ x, c.records.get? owner = some x → x.IsCollected) →
          ¬(c.Vouches owner ∧
            (edges.filter fun e => e.owner == owner).all (isIntact c.table) = true) →
          c'.Awaits owner ∨ c.Failed owner) := by
  obtain ⟨c', hok, hintact, hsame, -, hothers, howned⟩ :=
    foldlM_restoreOwner h.intact (byOwner edges).keys_nodup owner_of_mem_byOwner
  refine ⟨c', hok, hintact, hsame, fun p => ?_, fun owner => ?_⟩
  · by_cases hp : p ∈ (byOwner edges).keys
    · obtain ⟨x, hx, rfl⟩ := List.mem_map.1 hp
      exact (howned x hx).1
    · rw [(hothers p hp).1]
      exact .same _
  by_cases hnil : (edges.filter fun e => e.owner == owner) = []
  · -- an owner without edges has no group
    have hnot : owner ∉ (byOwner edges).keys := by
      rw [mem_keys, contains, get?_byOwner, if_pos hnil]
      simp
    have hempty : c'.table.edgesOf owner = [] := (hothers owner hnot).2.trans (h.edges owner)
    refine ⟨fun _ _ => ?_, fun _ => hempty, fun hne => absurd hnil hne⟩
    rw [hempty, hnil, Edge.sort, List.mergeSort_nil]
    rfl
  · have hmem : (owner, edges.filter fun e => e.owner == owner) ∈ (byOwner edges).entries :=
      mem_entries_iff.2 ((get?_byOwner _ _).trans (if_neg hnil))
    obtain ⟨-, htaken, hleft, hmark⟩ := howned _ hmem
    rw [h.edges] at hleft
    exact ⟨htaken, hleft, fun _ => hmark⟩

/-- All owners have their edges restored, and the table is consistent. -/
theorem restoreOwners_ok {stored : StoredState} (h : c.table.Bare)
    (hrecords : ∀ p, c.records.get? p = stored.record? p) :
    ∃ c', (byOwner stored.edges).entries.foldlM restoreOwner c = .ok c' ∧
      c'.table.inconsistency? = none ∧ stored.Restored c'.table := by
  obtain ⟨c', hok, hintact, hsame, -, howned⟩ := foldlM_restoreOwner_byOwner h stored.edges
  have hnone : c'.table.inconsistency? = none := Table.inconsistency?_eq_none_iff.2
    ⟨fun _ _ he => hintact.targets he, fun _ _ hg => (hintact.anchored.ids hg).1⟩
  have hends : ∀ {owner}, (stored.edges.filter fun e => e.owner == owner).all
      (isIntact c.table) = true ↔ ∀ e ∈ stored.edges, e.owner = owner →
        (findId? c'.table e.source).isSome = true ∧ (findId? c'.table e.target).isSome = true := by
    intro owner
    rw [← isIntact_congr hsame]
    simp only [List.all_eq_true, List.mem_filter, beq_iff_eq, and_imp, isIntact, Bool.and_eq_true]
  simp only [vouches_iff hrecords, hends] at howned
  have htaken := fun owner => or_iff_not_imp_right.2 (howned owner).2.1
  refine ⟨c', hok, hnone, ⟨fun owner e he => ?_, fun owner => ?_, fun owner => (howned owner).1⟩⟩
  · rcases htaken owner with hnil | ⟨hvouches, hboth⟩
    · rw [hnil] at he
      cases he
    · rw [(howned owner).1 hvouches hboth] at he
      obtain ⟨hmem, ho⟩ := List.mem_filter.1 (Table.mem_sort.1 (Table.mem_of_mem_dropRepeats he))
      exact hboth e hmem (beq_iff_eq.1 ho)
  · exact (htaken owner).imp_right fun ⟨hvouches, hboth⟩ =>
      ⟨(howned owner).1 hvouches hboth, hvouches⟩

theorem restoreSettings_ok (h : c.table.Bare) (hok : c.restoreSettings (byOwner edges) = .ok c') :
    c'.table.Bare ∧ c'.records = c.records ∧
      ((∃ e ∈ edges, e.owner = settingsFile) → c'.table.containsFile settingsFile = true) := by
  unfold restoreSettings at hok
  split at hok
  · split at hok
    · next summary t ht =>
      cases hok
      exact ⟨h.commitFile (by decide) ht, rfl, fun _ => Table.containsFile_of_commitFile ht⟩
    · cases hok
  · next hnone =>
    cases hok
    refine ⟨h, rfl, fun howns => absurd ?_ hnone⟩
    obtain ⟨e, he, ho⟩ := howns
    rw [contains, get?_byOwner, if_neg, Option.isSome_some]
    exact List.ne_nil_of_mem (List.mem_filter.2 ⟨he, beq_iff_eq.2 ho⟩)

theorem restoreSettings_error {edges : List Edge} {halt : Halt σ}
    (h : c.restoreSettings (byOwner edges) = .error halt) : (∃ e ∈ edges, e.owner = settingsFile) ∧
      (c.table.commitFile settingsFile [settingsSymbol]).1 = .error halt.error := by
  unfold restoreSettings at h
  split at h
  · next howns =>
    rw [contains, get?_byOwner] at howns
    split at howns
    · cases howns
    · next hne =>
      obtain ⟨e, he⟩ := List.exists_mem_of_ne_nil _ hne
      obtain ⟨hmem, ho⟩ := List.mem_filter.1 he
      refine ⟨⟨e, hmem, beq_iff_eq.1 ho⟩, ?_⟩
      split at h
      · cases h
      · next heq =>
        cases h
        rw [heq]
  · cases h

/-- A project that has taken over all records and placeholders and comes to the edges. -/
structure Readied (stored : StoredState) (c : Controller σ) : Prop where
  table : c.table.Bare
  records : ∀ p, c.records.get? p = stored.record? p
  sketches : ∀ {p x f}, stored.record? p = some x → x.sketches = some f → f.path = p ∧ p ≠ ""
  settings : (∃ e ∈ stored.edges, e.owner = settingsFile) →
    c.table.containsFile settingsFile = true

/-- A new project is refused what a store kept, or readied, and then takes over edges. -/
theorem restore_cases (hnew : c.IsNew) (stored : StoredState) :
    (∃ halt, c.restore stored = .error halt ∧ stored.Refused halt.error) ∨
      ∃ c₁ c₂, c₁.Readied stored ∧
        (byOwner stored.edges).entries.foldlM restoreOwner c₁ = .ok c₂ ∧
        c.restore stored = .ok { c₂ with table := c₂.table.takeDiagnostics.2 } := by
  have hfiles : ∀ f ∈ stored.catalogue.filterMap FileRecord.commit?,
      ∃ s ∈ f.2, s.fqn = s.file := by
    intro f hf
    obtain ⟨x, -, hx⟩ := List.mem_filterMap.1 hf
    obtain ⟨sketch, -, rfl⟩ := Option.map_eq_some_iff.1 hx
    exact ⟨sketch.fileSymbol, List.mem_cons_self .., rfl⟩
  cases hall : Table.empty.commitAll (stored.catalogue.filterMap FileRecord.commit?) with
  | error e =>
    obtain ⟨halt, hhalt, rfl⟩ := foldlM_restoreRecord_error (c := c) (hnew.table ▸ hall)
    obtain ⟨before, file, symbols, after, t, hsplit, hbuilt, hrefused⟩ :=
      Table.commitAll_eq_error hall
    refine .inl ⟨halt, ?_, .record hsplit hbuilt hrefused⟩
    unfold restore
    rw [show stored.records.mergeSort collectedBefore = stored.catalogue from rfl, hhalt]
    rfl
  | ok t =>
    obtain ⟨c₁, hok₁, htable₁, hrecords₁⟩ := foldlM_restoreRecord_ok (c := c) (hnew.table ▸ hall)
    obtain ⟨htable₂, hrecords₂⟩ := foldl_restorePlaceholder stored.placeholders c₁
    rw [htable₁] at htable₂
    have hbare : (stored.placeholders.foldl restorePlaceholder c₁).table.Bare := by
      rw [htable₂]
      exact bare_foldl_ensurePlaceholder (Table.bare_empty.commitAll hfiles hall) _
    cases hset : (stored.placeholders.foldl restorePlaceholder c₁).restoreSettings
        (byOwner stored.edges) with
    | error halt =>
      obtain ⟨howns, hrefused⟩ := restoreSettings_error hset
      rw [htable₂] at hrefused
      refine .inl ⟨halt, ?_, .settings howns hall hrefused⟩
      unfold restore
      rw [show stored.records.mergeSort collectedBefore = stored.catalogue from rfl, hok₁]
      change (restoreSettings _ _ >>= _) = _
      rw [hset]
      rfl
    | ok c₂ =>
      obtain ⟨hbare₂, hrecords₃, hsettings⟩ := restoreSettings_ok hbare hset
      have hready : c₂.Readied stored := by
        refine ⟨hbare₂, fun p => ?_, fun {p x f} hx hf => ?_, hsettings⟩
        · rw [hrecords₃, hrecords₂, hrecords₁, hnew.records]
          exact Option.or_none ..
        · obtain ⟨hmem, rfl⟩ := StoredState.mem_catalogue_of_record? hx
          have hcommit : (x.path, f.assembleSymbols) ∈
              stored.catalogue.filterMap FileRecord.commit? :=
            List.mem_filterMap.2 ⟨x, hmem, by simp [FileRecord.commit?, hf]⟩
          obtain ⟨hne, hfile⟩ := Table.commitAll_admits hall _ hcommit f.fileSymbol
            (List.mem_cons_self ..)
          exact ⟨hfile, fun hempty => hne (hfile.trans hempty)⟩
      obtain ⟨c', hok, hnone, -⟩ := restoreOwners_ok hbare₂ hready.records
      refine .inr ⟨c₂, c', hready, hok,
        bind_eq_ok.2 ⟨c₁, hok₁, bind_eq_ok.2 ⟨c₂, hset, bind_eq_ok.2 ⟨c', hok, ?_⟩⟩⟩⟩
      rw [hnone]
      rfl

/-- Restoring a project is all or nothing for every owner, and leaves no edge without ends, whatever
the store kept. It stops only if a table refuses the symbols of a record or the node of the
settings. -/
theorem restore_all_or_nothing (hnew : c.IsNew) (stored : StoredState) :
    (∃ halt, c.restore stored = .error halt ∧ stored.Refused halt.error) ∨
      ∃ c', c.restore stored = .ok c' ∧ stored.Restored c'.table := by
  refine (restore_cases hnew stored).imp_right fun ⟨c₁, c₂, hready, howners, hok⟩ => ?_
  obtain ⟨c₃, hok₃, -, hrestored⟩ := restoreOwners_ok hready.table hready.records
  cases howners.symm.trans hok₃
  exact ⟨_, hok, hrestored.ends, hrestored.owners, hrestored.taken⟩

/-- A store with the rows of a resolved file, and with those of a file that has no record. -/
def interrupted : StoredState :=
  let edge (path : String) : Edge :=
    .ofScore .extendsType (.ofFqn path) (.ofFqn path) Confidence.exact path 1
  { records := [
      { path := "a.go", language := "go", fingerprint := "", state := .resolved
        sketches := some (.extending "a.go" "a.go") }]
    edges := [edge "a.go", edge "gone.go"] }

theorem restore_interrupted : ∃ c, (ofSketches []).restore interrupted = .ok c ∧
    (c.table.edgesOf "a.go").length = 1 ∧ (c.table.edgesOf "gone.go").length = 0 := by
  decide +kernel

/-- The file without a record gets no edge, the other one gets its own. -/
theorem restore_all_or_nothing_interrupted : ∃ c,
    (ofSketches []).restore interrupted = .ok c ∧ interrupted.Restored c.table ∧
      (c.table.edgesOf "a.go").length = 1 ∧ (c.table.edgesOf "gone.go").length = 0 := by
  obtain ⟨c, hok, hcounts⟩ := restore_interrupted
  rcases restore_all_or_nothing (isNew_ofSketches []) interrupted with
    ⟨halt, herror, -⟩ | ⟨c', hok', hrestored⟩
  · cases hok.symm.trans herror
  · cases hok.symm.trans hok'
    exact ⟨c, hok, hrestored, hcounts⟩

end Controller

end CodeAtlas
