import Mathlib
import CodeAtlas.Proofs.Resolve.Findings
import CodeAtlas.Proofs.Table.Commits

/-!
# The order in which files arrive

Files are committed to an empty table one after the other. Then the symbols are frozen, and the
files are resolved against them and get their edges, again one after the other.

Main results:

* `commitSketches_holds`: the symbols of the committed files, said without an order.
* `resolveAll_arrives`: the symbols, edges and counts of the resolved files, said without an order.
* `arrival_order_irrelevant`: neither the order of the commits nor that of the resolutions shows in
  the symbols, the edges and the counts of unresolved edges.
-/

namespace CodeAtlas

open SortedMap

variable {f : FileSketch} {files : List FileSketch}

/-! ## The symbols of files -/

namespace FileSketch

/-- The definition of a name in a file. -/
def definition? (f : FileSketch) (fqn : String) : Option Symbol :=
  (Table.Ledger.definitionsOf f.assembleSymbols).get? fqn

theorem mem_of_definition? {fqn : String} {s : Symbol} (h : f.definition? fqn = some s) :
    s ∈ f.assembleSymbols ∧ s.fqn = fqn := by
  obtain ⟨x, hx, heq⟩ := List.mem_map.1 (mem_of_get?_ofList h)
  obtain ⟨hfqn, rfl⟩ := Prod.mk.inj heq
  exact ⟨hx, hfqn⟩

theorem moduleName_of_mem {s : Symbol} (h : s ∈ f.assembleSymbols) :
    s.moduleName = f.moduleName := by
  rcases List.mem_cons.1 h with rfl | h
  · rfl
  · obtain ⟨x, -, rfl⟩ := List.mem_map.1 h
    rfl

/-- The files define no name together. -/
def Apart (f f' : FileSketch) : Prop :=
  ∀ s ∈ f.assembleSymbols, ∀ s' ∈ f'.assembleSymbols, s.fqn ≠ s'.fqn

theorem Apart.symm {f f' : FileSketch} (h : f.Apart f') : f'.Apart f :=
  fun s hs s' hs' heq => h s' hs' s hs heq.symm

theorem Apart.definition?_eq_none {f f' : FileSketch} (h : f.Apart f') {fqn : String} {s : Symbol}
    (hs : f.definition? fqn = some s) : f'.definition? fqn = none := by
  cases hs' : f'.definition? fqn with
  | none => rfl
  | some s' =>
    obtain ⟨hmem, hfqn⟩ := mem_of_definition? hs
    obtain ⟨hmem', hfqn'⟩ := mem_of_definition? hs'
    exact absurd (hfqn.trans hfqn'.symm) (h s hmem s' hmem')

end FileSketch

/-- Files of different names that an empty table accepts and that define no name together. -/
structure Independent (files : List FileSketch) : Prop where
  paths : (files.map (·.path)).Nodup
  placed : ∀ f ∈ files, f.path ≠ ""
  accepted : ∀ f ∈ files, ∃ summary t,
    Table.empty.commitFile f.path f.assembleSymbols = (.ok summary, t)
  apart : files.Pairwise FileSketch.Apart

theorem Independent.perm {files files' : List FileSketch} (h : Independent files)
    (hp : files'.Perm files) : Independent files' where
  paths := (hp.map _).nodup_iff.2 h.paths
  placed f hf := h.placed f (hp.mem_iff.1 hf)
  accepted f hf := h.accepted f (hp.mem_iff.1 hf)
  apart := (hp.pairwise_iff fun {_ _} => FileSketch.Apart.symm).2 h.apart

theorem Independent.of_append
    (h : Independent (files ++ [f])) : Independent files ∧ f.path ∉ files.map (·.path) ∧
      ∀ f' ∈ files, f'.Apart f := by
  have hpaths := h.paths
  rw [List.map_append, List.nodup_append] at hpaths
  obtain ⟨hfiles, -, hcross⟩ := List.pairwise_append.1 h.apart
  refine ⟨⟨hpaths.1, fun f' hf' => h.placed f' (List.mem_append_left _ hf'),
    fun f' hf' => h.accepted f' (List.mem_append_left _ hf'), hfiles⟩, fun hmem => ?_,
    fun f' hf' => hcross f' hf' f (List.mem_singleton_self f)⟩
  exact hpaths.2.2 _ hmem _ (List.mem_singleton_self _) rfl

theorem Independent.acceptable (h : Independent files) (hf : f ∈ files) :
    Table.Acceptable f.path f.assembleSymbols := by
  obtain ⟨summary, t, hok⟩ := h.accepted f hf
  exact fun s hs => Table.commitFile_admits hok hs

/-- The symbol of a name in a set of files: the definition of one of them, or the namespace that one
of them declares. -/
def Stands (files : List FileSketch) (fqn : String) (s : Symbol) : Prop :=
  (∃ f ∈ files, f.definition? fqn = some s) ∨
    (∀ f ∈ files, f.definition? fqn = none) ∧ (∃ f ∈ files, f.moduleName = some fqn) ∧
      s = Table.moduleSymbol fqn

section Stands

variable {files files' : List FileSketch} {f : FileSketch} {fqn : String} {s : Symbol}

theorem stands_perm (hp : files'.Perm files) : Stands files' fqn s ↔ Stands files fqn s := by
  simp only [Stands, hp.mem_iff]

theorem Stands.internal (h : Stands files fqn s)
    (hfiles : ∀ f ∈ files, Table.Acceptable f.path f.assembleSymbols) : s.isExternal = false := by
  rcases h with ⟨f, hf, hs⟩ | ⟨-, -, rfl⟩
  · exact (hfiles f hf s (FileSketch.mem_of_definition? hs).1).2.2.1
  · rfl

/-- A further file brings its definitions, and its namespace if nothing stands under that name. -/
theorem stands_append {current : Option Symbol}
    (hcurrent : ∀ s, current = some s ↔ Stands files fqn s) (hapart : ∀ f' ∈ files, f'.Apart f) :
    ((f.definition? fqn).or current).or
        (if f.moduleName = some fqn then some (Table.moduleSymbol fqn) else none) = some s ↔
      Stands (files ++ [f]) fqn s := by
  simp only [Stands, List.mem_append, List.mem_singleton, or_and_right, exists_or, exists_eq_left,
    or_imp, forall_and, forall_eq] at hcurrent ⊢
  cases hd : f.definition? fqn with
  | some d =>
    have hnone : ∀ f' ∈ files, f'.definition? fqn = none := fun f' hf' =>
      (hapart f' hf').symm.definition?_eq_none hd
    simp only [Option.some_or, Option.some.injEq, reduceCtorEq, and_false, false_and, or_false]
    exact ⟨.inr, fun h => h.resolve_left fun ⟨f', hf', hs⟩ => by simp [hnone f' hf'] at hs⟩
  | none =>
    simp only [Option.none_or, reduceCtorEq, or_false, and_true]
    cases current with
    | some x =>
      rw [Option.some_or]
      constructor
      · intro h
        exact ((hcurrent s).1 h).imp_right fun ⟨hn, hm⟩ => ⟨hn, .inl hm⟩
      · rintro (h | ⟨hn, hm | ⟨-, rfl⟩⟩)
        · exact (hcurrent s).2 (.inl h)
        · exact (hcurrent s).2 (.inr ⟨hn, hm⟩)
        · rcases (hcurrent x).1 rfl with ⟨f', hf', hx⟩ | ⟨-, -, rfl⟩
          · simp [hn f' hf'] at hx
          · rfl
    | none =>
      have hnone : ∀ f' ∈ files, f'.definition? fqn = none := fun f' hf' =>
        Option.eq_none_iff_forall_not_mem.2 fun x hx =>
          nomatch (hcurrent x).2 (.inl ⟨f', hf', hx⟩)
      have hmodule : ¬ ∃ f' ∈ files, f'.moduleName = some fqn := fun h =>
        nomatch (hcurrent _).2 (.inr ⟨hnone, h, rfl⟩)
      rw [Option.none_or]
      constructor
      · intro h
        split at h
        · next hf => exact .inr ⟨hnone, .inr ⟨hf, (Option.some.inj h).symm⟩⟩
        · cases h
      · rintro (⟨f', hf', hs⟩ | ⟨-, ⟨hm, -⟩ | ⟨hf, rfl⟩⟩)
        · simp [hnone f' hf'] at hs
        · exact absurd hm hmodule
        · exact if_pos hf

end Stands

/-! ## Committing files -/

/-- Commit files to an empty table. -/
def commitSketches (files : List FileSketch) : Except AtlasError Table :=
  Table.empty.commitAll (files.map fun f => (f.path, f.assembleSymbols))

/-- The table has the symbols of the files, and no edges. -/
structure Table.Holds (files : List FileSketch) (t : Table) : Prop where
  symbols : ∀ fqn s, t.symbols.get? fqn = some s ↔ Stands files fqn s
  edges : t.edges = ∅
  files : ∀ p, t.files.contains p = true → p ∈ files.map (·.path)

theorem Table.Holds.empty : Holds [] Table.empty where
  symbols fqn s := by simp [Stands, Table.empty]
  edges := rfl
  files p hp := by simp [Table.empty] at hp

theorem Table.Holds.commit {t t' : Table}
    {summary : CommitSummary} (h : Holds files t) (hnew : f.path ∉ files.map (·.path))
    (hapart : ∀ f' ∈ files, f'.Apart f)
    (hok : t.commitFile f.path f.assembleSymbols = (.ok summary, t')) :
    Holds (files ++ [f]) t' := by
  have hfile : t.files.get? f.path = none :=
    contains_eq_false_iff.1 (Bool.eq_false_iff.2 fun hc => hnew (h.files _ hc))
  obtain ⟨hedges, hfiles, hsym⟩ := commitFile_fresh hfile
    (fun s hs => FileSketch.moduleName_of_mem hs) (List.cons_ne_nil _ _) hok
  refine ⟨fun fqn s => ?_, hedges.edges.trans h.edges, fun p hp => ?_⟩
  · rw [hsym]
    exact stands_append (fun s => h.symbols fqn s) hapart
  · rw [List.map_append, List.mem_append]
    by_cases hpf : p = f.path
    · exact .inr (hpf ▸ List.mem_singleton_self _)
    · rw [contains, hfiles p hpf] at hp
      exact .inl (h.files p hp)

/-- After accepted commits the table has the symbols of the files. -/
theorem commitSketches_holds {t : Table} (h : Independent files)
    (hok : commitSketches files = .ok t) : t.Holds files := by
  -- the last file of the row is the latest one
  induction files using List.reverseRecOn generalizing t with
  | nil =>
    cases hok
    exact .empty
  | append_singleton files f ih =>
    unfold commitSketches at hok
    rw [List.map_append] at hok
    obtain ⟨t₁, summary, hfiles, hf⟩ := Table.commitAll_append_eq_ok.1 hok
    obtain ⟨hfirst, hnew, hapart⟩ := h.of_append
    exact (ih hfirst hfiles).commit hnew hapart hf

/-! ## What a file needs -/

namespace View

/-- A finding of the file needs a placeholder for the name. -/
def Needs (v : View) (f : FileSketch) (fqn : String) : Prop :=
  ∃ found ∈ v.findings f, found.placeholder = some (.placeholder fqn (shortName fqn))

/-- The edges of a file. -/
def edges (v : View) (f : FileSketch) : List Edge := Edge.sort ((v.findings f).map (·.edge))

/-- How many edges of a file do not lead to a frozen symbol. -/
def missing (v : View) (f : FileSketch) : Nat :=
  ((v.edges f).filter fun e => (SymbolLookup.findId? v.snapshot e.target).isNone).length

end View

/-- The symbols of `m`, and placeholders under the vacant names that are needed. -/
def Fills (needs : String → Prop) (m m' : SortedMap String Symbol) : Prop :=
  ∀ g s, m'.get? g = some s ↔ m.get? g = some s ∨
    m.get? g = none ∧ needs g ∧ s = .placeholder g (shortName g)

namespace Fills

variable {needs needs' : String → Prop} {m m' m'' : SortedMap String Symbol} {g : String}

theorem of_none (hn : ∀ g, ¬ needs g) : Fills needs m m := fun g _ =>
  ⟨.inl, fun h => h.resolve_right fun ⟨_, hg, _⟩ => hn g hg⟩

theorem congr (h : Fills needs m m') (hn : ∀ g, needs g ↔ needs' g) : Fills needs' m m' := by
  rwa [← funext fun g => propext (hn g)]

theorem kept (h : Fills needs m m') {s : Symbol} (hs : m.get? g = some s) : m'.get? g = some s :=
  (h g s).2 (.inl hs)

theorem get?_eq_none (h : Fills needs m m') : m'.get? g = none ↔ m.get? g = none ∧ ¬ needs g := by
  simp only [Option.eq_none_iff_forall_not_mem, Option.mem_def, h g, not_or, not_and]
  constructor
  · intro hg
    exact ⟨fun s => (hg s).1, fun hn => (hg _).2 (fun s => (hg s).1) hn rfl⟩
  · rintro ⟨hg, hn⟩ s
    exact ⟨hg s, fun _ hneeds => absurd hneeds hn⟩

theorem trans (h : Fills needs m m') (h' : Fills needs' m' m'') :
    Fills (fun g => needs g ∨ needs' g) m m'' := by
  intro g s
  rw [h' g s, h g s, h.get?_eq_none]
  by_cases hn : needs g <;> simp [hn]

end Fills

namespace Table

/-- A table learns the placeholder of a finding. -/
theorem teach_fills {s : Snapshot} {owner : String} {x : Finding} (hx : x.Leads s owner)
    (t : Table) : Fills (fun g => x.placeholder = some (.placeholder g (shortName g))) t.symbols
      (x.teach t).symbols := by
  rcases hx.target with ⟨hnone, -⟩ | ⟨fqn, hsome, -⟩
  · have hsame : (x.teach t).symbols = t.symbols := by
      unfold Finding.teach
      rw [hnone]
      split <;> rfl
    rw [hsame]
    exact .of_none fun g => by simp [hnone]
  · have hget : ∀ g, (x.teach t).symbols.get? g = (t.symbols.get? g).or
        (if fqn = g then some (.placeholder fqn (shortName fqn)) else none) := by
      intro g
      unfold Finding.teach
      rw [hsome]
      split
      · obtain ⟨⟨htouches, hcell⟩, -⟩ := Table.ensurePlaceholder_spec (t.record _) _
        exact htouches.get?_of_acquire hcell g
      · obtain ⟨⟨htouches, hcell⟩, -⟩ := Table.ensurePlaceholder_spec t _
        exact htouches.get?_of_acquire hcell g
    have hfills : Fills (fqn = ·) t.symbols (x.teach t).symbols := by
      intro g s
      rw [hget]
      cases t.symbols.get? g with
      | some y => simp
      | none =>
        by_cases hg : fqn = g
        · subst hg
          simp [eq_comm]
        · simp [hg]
    refine hfills.congr fun g => ?_
    rw [hsome, Option.some.injEq]
    exact ⟨fun h => by rw [h], fun h => congrArg Symbol.fqn h⟩

theorem foldl_teach_fills {s : Snapshot} {owner : String} {found : List Finding}
    (hfound : ∀ x ∈ found, x.Leads s owner) (t : Table) :
    Fills (fun g => ∃ x ∈ found, x.placeholder = some (.placeholder g (shortName g))) t.symbols
      (found.foldl Finding.teach t).symbols := by
  induction found generalizing t with
  | nil => exact .of_none (by simp)
  | cons x rest ih =>
    have h := (teach_fills (hfound x (List.mem_cons_self ..)) t).trans
      (ih (fun y hy => hfound y (List.mem_cons_of_mem _ hy)) (x.teach t))
    exact h.congr fun g => by simp

end Table

/-! ## Resolving files -/

/-- Resolve a file, store its edges and note how many of them are unresolved. -/
def resolveInto (v : View) (a : SortedMap String Nat × Table) (f : FileSketch) :
    Except AtlasError (SortedMap String Nat × Table) := do
  let (resolution, t) := a.2.resolveFile v f
  let t ← t.replaceEdges f.path resolution.edges
  return (a.1.insert f.path resolution.unresolved, t)

/-- Resolve files one after the other. -/
def resolveAll (v : View) (files : List FileSketch) (t : Table) :
    Except AtlasError (SortedMap String Nat × Table) :=
  files.foldlM (resolveInto v) (∅, t)

/-- What the table has and what was counted once the files are resolved. -/
structure Arrived (v : View) (files : List FileSketch) (counts : SortedMap String Nat) (t : Table) :
    Prop where
  symbols : Fills (fun g => ∃ f ∈ files, v.Needs f g) v.snapshot.symbols t.symbols
  edges : ∀ o l, t.edges.get? o = some l ↔
    l ≠ [] ∧ ∃ f ∈ files, f.path = o ∧ l = Table.dropRepeats (Edge.sort (v.edges f))
  counts : ∀ o n, counts.get? o = some n ↔ ∃ f ∈ files, f.path = o ∧ n = v.missing f

/-- The order of the files does not show. -/
theorem Arrived.eq {v : View} {files files' : List FileSketch}
    {counts counts' : SortedMap String Nat} {t t' : Table} (h : Arrived v files counts t)
    (h' : Arrived v files' counts' t') (hp : files'.Perm files) :
    counts' = counts ∧ t'.symbols = t.symbols ∧ t'.edges = t.edges := by
  refine ⟨SortedMap.ext fun o => Option.ext fun n => ?_,
    SortedMap.ext fun g => Option.ext fun s => ?_, SortedMap.ext fun o => Option.ext fun l => ?_⟩
  · simp only [h.counts, h'.counts, hp.mem_iff]
  · rw [h.symbols g s, h'.symbols g s]
    simp only [hp.mem_iff]
  · simp only [h.edges, h'.edges, hp.mem_iff]

section

variable {names : Set String} {v : View} {t : Table} {needs : String → Prop} {x : Finding}
  {owner : String} (hs : t.Sound names) (ht : Fills needs v.snapshot.symbols t.symbols)
  (hinternal : ∀ g y, v.snapshot.symbols.get? g = some y → y.isExternal = false)

include hs ht in
/-- The table has a symbol under the name that the edge leads to. -/
theorem Finding.Leads.exists_name (hx : x.Leads v.snapshot owner)
    (hneeds : ∀ g, x.placeholder = some (.placeholder g (shortName g)) → needs g) :
    ∃ g, t.symbols.contains g = true ∧ x.edge.target = .ofFqn g := by
  rcases hx.target with ⟨-, g, y, hy, -, htarget⟩ | ⟨g, hp, htarget⟩
  · have hy := ht.kept hy
    exact ⟨g, contains_of_get? hy, htarget.trans (hs.symbol hy).2⟩
  · refine ⟨g, ?_, htarget⟩
    by_contra hc
    have hnone := contains_eq_false_iff.1 (Bool.eq_false_iff.2 hc)
    exact (ht.get?_eq_none.1 hnone).2 (hneeds g hp)

include hs ht hinternal in
/-- An edge is unresolved if no frozen symbol has the identifier of its target. -/
theorem Finding.Leads.isUnresolved (hx : x.Leads v.snapshot owner)
    (hneeds : ∀ g, x.placeholder = some (.placeholder g (shortName g)) → needs g) :
    t.isUnresolved x.edge = (SymbolLookup.findId? v.snapshot x.edge.target).isNone := by
  obtain ⟨g, hc, htarget⟩ := hx.exists_name hs ht hneeds
  obtain ⟨y, hy⟩ := contains_iff.1 hc
  have hfind : SymbolLookup.findId? t x.edge.target = some y :=
    hs.findId?_eq_some.2 ⟨(hs.symbol hy).1.symm ▸ hy, (hs.symbol hy).2.trans htarget.symm⟩
  have hunresolved : t.isUnresolved x.edge = y.isExternal := by
    unfold Table.isUnresolved
    rw [hfind]
  rw [hunresolved]
  rcases (ht g y).1 hy with hfrozen | ⟨hvacant, -, rfl⟩
  · -- the frozen symbol of the name has this identifier
    rw [hinternal g y hfrozen]
    symm
    rw [Option.isNone_eq_false_iff]
    refine List.find?_isSome.2 ⟨y, mem_values.2 ⟨g, hfrozen⟩, ?_⟩
    rw [htarget, (hs.symbol hy).2, beq_self_eq_true]
  · -- no other name has it
    symm
    refine (Option.isNone_iff_eq_none.2 (List.find?_eq_none.2 fun z hz hid => ?_)).trans rfl
    obtain ⟨g', hg'⟩ := mem_values.1 hz
    have hz' := ht.kept hg'
    have heq : g' = g := hs.eq_of_id (hs.known hc) (contains_of_get? hz')
      ((hs.symbol hz').2.symm.trans ((beq_iff_eq.1 hid).trans htarget))
    rw [heq, hvacant] at hg'
    cases hg'

variable {files : List FileSketch} {f : FileSketch} {counts : SortedMap String Nat}

include hs ht in
/-- Once the table has the placeholders that a file needs, it accepts the edges of the file. -/
theorem View.edges_admissible (hneeds : ∀ g, v.Needs f g → needs g) :
    t.Admissible f.path (v.edges f) := by
  intro e he
  obtain ⟨x, hx, rfl⟩ := List.mem_map.1 (Table.mem_sort.1 he)
  have hleads := v.findings_leads hx
  obtain ⟨g, hc, htarget⟩ := hleads.exists_name hs ht fun g hp => hneeds g ⟨x, hx, hp⟩
  refine ⟨hleads.owner, contains_iff.2 ⟨g, ?_⟩⟩
  rw [htarget, hs.ids_ofFqn (hs.known hc), if_pos hc]

include hs ht hinternal in
/-- The count of unresolved edges depends on the frozen symbols only. -/
theorem View.length_unresolved (hneeds : ∀ g, v.Needs f g → needs g) :
    ((v.edges f).filter t.isUnresolved).length = v.missing f := by
  refine congrArg List.length (List.filter_congr fun e he => ?_)
  obtain ⟨x, hx, rfl⟩ := List.mem_map.1 (Table.mem_sort.1 he)
  exact (v.findings_leads hx).isUnresolved hs ht hinternal fun g hp => hneeds g ⟨x, hx, hp⟩

/-- What is known of the file at a path, after a file of a new path was added. -/
theorem exists_path_append (hnew : f.path ∉ files.map (·.path)) (o : String)
    (P : FileSketch → Prop) : (∃ f' ∈ files ++ [f], f'.path = o ∧ P f') ↔
      if o = f.path then P f else ∃ f' ∈ files, f'.path = o ∧ P f' := by
  split
  · next ho =>
    constructor
    · rintro ⟨f', hf', heq, hP⟩
      rcases List.mem_append.1 hf' with hf' | hf'
      · exact absurd (List.mem_map.2 ⟨f', hf', heq.trans ho⟩) hnew
      · exact List.mem_singleton.1 hf' ▸ hP
    · exact fun hP => ⟨f, List.mem_append_right _ (List.mem_singleton_self f), ho.symm, hP⟩
  · next ho => simp [or_and_right, exists_or, Ne.symm ho]

include hs hinternal in
/-- A further file of a new path brings its placeholders, edges and count, whatever came before. -/
theorem Arrived.step (h : Arrived v files counts t)
    (hneeds : ∀ g, v.Needs f g → g ∈ names) (hnew : f.path ∉ files.map (·.path)) :
    ∃ counts' t', resolveInto v (counts, t) f = .ok (counts', t') ∧
      Arrived v (files ++ [f]) counts' t' ∧ t'.Sound names := by
  set t₁ := (v.findings f).foldl Finding.teach t
  have hteach : Fills (v.Needs f) t.symbols t₁.symbols :=
    Table.foldl_teach_fills (fun x hx => v.findings_leads hx) t
  have htaught := Table.foldl_teach_taught (v.findings f) t
  have hs₁ : t₁.Sound names := by
    refine (htaught.orderly (fun g hc => ?_) hs.toOrderly).sound hs.distinct
    obtain ⟨y, hy⟩ := contains_iff.1 hc
    rcases (hteach g y).1 hy with hy | ⟨-, hn, -⟩
    · exact hs.known (contains_of_get? hy)
    · exact hneeds g hn
  have hfills : Fills (fun g => ∃ f' ∈ files ++ [f], v.Needs f' g) v.snapshot.symbols t₁.symbols :=
    (h.symbols.trans hteach).congr fun g => by simp [or_and_right, exists_or]
  have hneeded : ∀ g, v.Needs f g → ∃ f' ∈ files ++ [f], v.Needs f' g := fun g hn =>
    ⟨f, List.mem_append_right _ (List.mem_singleton_self f), hn⟩
  obtain ⟨t', hok, hedges⟩ :=
    Table.replaceEdges_of_admissible (View.edges_admissible hs₁ hfills hneeded)
  have hsame := (Table.replaceEdges_rewires hok).2.same
  refine ⟨counts.insert f.path (v.missing f), t', ?_, ⟨?_, fun o l => ?_, fun o n => ?_⟩,
    (hs₁.toOrderly.of_same hsame).sound hs.distinct⟩
  · change (t₁.replaceEdges f.path (v.edges f) >>= fun t => pure (counts.insert f.path
      ((v.edges f).filter t₁.isUnresolved).length, t)) = _
    rw [hok, View.length_unresolved hs₁ hfills hinternal hneeded]
    rfl
  · rw [hsame.symbols]
    exact hfills
  · rw [hedges, Table.get?_setEdges, htaught.edges.edges, exists_path_append hnew]
    by_cases ho : o = f.path
    · rw [if_pos ho, if_pos ho]
      split
      · next hnil => simp [hnil]
      · next hne => exact ⟨fun hl => by cases hl; exact ⟨hne, rfl⟩, fun hl => by rw [hl.2]⟩
    · rw [if_neg ho, if_neg ho, h.edges]
  · rw [get?_insert_eq, exists_path_append hnew]
    by_cases ho : o = f.path
    · rw [if_pos ho, if_pos ho, Option.some.injEq, eq_comm]
    · rw [if_neg ho, if_neg ho, h.counts]

theorem Arrived.start (hsymbols : t.symbols = v.snapshot.symbols) (hedges : t.edges = ∅) :
    Arrived v [] ∅ t where
  symbols := hsymbols ▸ .of_none (by simp)
  edges o l := by simp [hedges]
  counts o n := by simp

include hs hinternal in
/-- Files of different paths are resolved one after the other, and the table and the counts come out
as said without an order. -/
theorem resolveAll_arrives (hsymbols : t.symbols = v.snapshot.symbols) (hedges : t.edges = ∅)
    (hneeds : ∀ f ∈ files, ∀ g, v.Needs f g → g ∈ names) (hpaths : (files.map (·.path)).Nodup) :
    ∃ counts t', resolveAll v files t = .ok (counts, t') ∧ Arrived v files counts t' := by
  suffices hrun : ∃ counts t', resolveAll v files t = .ok (counts, t') ∧
      Arrived v files counts t' ∧ t'.Sound names by
    obtain ⟨counts, t', hok, harrived, -⟩ := hrun
    exact ⟨counts, t', hok, harrived⟩
  induction files using List.reverseRecOn with
  | nil => exact ⟨∅, t, rfl, .start hsymbols hedges, hs⟩
  | append_singleton files f ih =>
    rw [List.map_append, List.nodup_append] at hpaths
    obtain ⟨counts, t₁, hok, harrived, hs₁⟩ :=
      ih (fun f' hf' => hneeds f' (List.mem_append_left _ hf')) hpaths.1
    obtain ⟨counts', t', hstep, harrived', hs'⟩ := harrived.step hs₁ hinternal
      (hneeds f (List.mem_append_right _ (List.mem_singleton_self f)))
      fun hmem => hpaths.2.2 _ hmem _ (List.mem_singleton_self _) rfl
    refine ⟨counts', t', ?_, harrived', hs'⟩
    unfold resolveAll at hok ⊢
    rw [List.foldlM_append, hok]
    change resolveInto v (counts, t₁) f >>= pure = _
    rw [hstep]
    rfl

end

/-! ## Committing, then resolving -/

/-- What the resolver sees of files once they are committed. -/
def View.ofSketches (files : List FileSketch) (t : Table) : View :=
  ⟨t.snapshot, .ofList (files.map fun f => (f.path, f))⟩

/-- The names that come up while files are committed and resolved: their definitions, their
namespaces and the placeholders that they need. -/
def usedNames (files : List FileSketch) : Set String :=
  {g | ∃ f ∈ files, (∃ s ∈ f.assembleSymbols, s.fqn = g) ∨ f.moduleName = some g ∨
    ∃ t, commitSketches files = .ok t ∧ (View.ofSketches files t).Needs f g}

section

variable {files committed : List FileSketch} {t t' : Table}

theorem usesNames_usedNames (hf : f ∈ files) :
    Table.UsesNames (usedNames files) f.assembleSymbols := fun s hs =>
  ⟨⟨f, hf, .inl ⟨s, hs, rfl⟩⟩, fun _ hns =>
    ⟨f, hf, .inr (.inl ((FileSketch.moduleName_of_mem hs).symm.trans hns))⟩⟩

/-- In every order the files are accepted, and the table is sound. -/
theorem commitSketches_accepts (h : Independent files)
    (hid : Set.InjOn SymbolId.ofFqn (usedNames files)) (hp : committed.Perm files) :
    ∃ t, commitSketches committed = .ok t ∧ t.Sound (usedNames files) := by
  obtain ⟨t, hok, hs, -⟩ := Table.commitAll_accepts
    (committed.map fun f => (f.path, f.assembleSymbols))
    (Table.orderly_empty.sound hid) Table.counted_empty fun x hx => by
      obtain ⟨f, hf, rfl⟩ := List.mem_map.1 hx
      have hf := hp.mem_iff.1 hf
      exact ⟨h.placed f hf, h.acceptable hf, usesNames_usedNames hf⟩
  exact ⟨t, hok, hs⟩

/-- Tables that hold the same files in different orders freeze to the same symbols. -/
theorem Table.Holds.symbols_eq (h : t.Holds files) (h' : t'.Holds committed)
    (hp : committed.Perm files) : t'.symbols = t.symbols :=
  SortedMap.ext fun g => Option.ext fun s => by rw [h.symbols, h'.symbols, stands_perm hp]

theorem View.ofSketches_perm (hpaths : (files.map (·.path)).Nodup) (hp : committed.Perm files)
    (hsymbols : t'.symbols = t.symbols) :
    View.ofSketches committed t' = View.ofSketches files t := by
  have hkeys : ∀ l : List FileSketch, (l.map fun f => (f.path, f)).map (·.1) = l.map (·.path) :=
    fun l => List.map_map
  have hsketches : SortedMap.ofList (committed.map fun f => (f.path, f)) =
      SortedMap.ofList (files.map fun f => (f.path, f)) := by
    refine SortedMap.ext fun p => Option.ext fun f => ?_
    rw [get?_ofList_eq_some (by rw [hkeys]; exact (hp.map _).nodup_iff.2 hpaths),
      get?_ofList_eq_some (by rw [hkeys]; exact hpaths), (hp.map _).mem_iff]
  unfold View.ofSketches Table.snapshot
  rw [hsymbols, hsketches]

end

/-! ## Two files that share a name -/

namespace TwoFiles

/-- A file without definitions. -/
def lib : FileSketch := { path := "lib", language := "sketch", separator := "." }

/-- A file that declares the name of the other one as its namespace, and refers to it and to a name
that nobody defines. -/
def app : FileSketch :=
  { path := "app", language := "sketch", separator := ".", moduleName := some "lib"
    references := [{ kind := .extendsType, target := .name "lib", line := 1, column := 1 },
      { kind := .extendsType, target := .name "ext", line := 2, column := 1 }] }

theorem injOn_names : Set.InjOn SymbolId.ofFqn {g | g ∈ ["lib", "app", "ext"]} := by
  have hnodup : (["lib", "app", "ext"].map SymbolId.ofFqn).Nodup := by decide +kernel
  exact fun a ha b hb => List.inj_on_of_nodup_map hnodup ha hb

/-- A reference needs a placeholder under the name that it gives at most. -/
theorem eq_of_needs {v : View} {g : String} (h : v.Needs app g) : g = "lib" ∨ g = "ext" := by
  obtain ⟨found, hfound, hp⟩ := h
  have hnamed : ∀ (o : Origin) (c : Scope) (name : String), c.placeholderName name = name →
      (v.named o c .types name).placeholder = some (.placeholder g (shortName g)) → g = name := by
    intro o c name hname hp
    unfold View.named at hp
    split at hp
    · cases hp
    · exact (congrArg Symbol.fqn (Option.some.inj hp)).symm.trans hname
  have hmem : found ∈ app.references.map (v.referenceEdge app (View.scopeOf app)) := hfound
  rcases List.mem_cons.1 hmem with rfl | hmem
  · exact .inl (hnamed _ _ "lib" rfl hp)
  · rw [List.mem_singleton.1 hmem] at hp
    exact .inr (hnamed _ _ "ext" rfl hp)

theorem usedNames_subset : usedNames [lib, app] ⊆ {g | g ∈ ["lib", "app", "ext"]} := by
  rintro g ⟨f, hf, h⟩
  rcases List.mem_pair.1 hf with rfl | rfl
  · rcases h with ⟨s, hs, rfl⟩ | h | ⟨t, -, found, hfound, -⟩
    · rw [List.mem_singleton.1 hs]
      exact List.mem_cons_self ..
    · cases h
    · cases hfound
  · rcases h with ⟨s, hs, rfl⟩ | h | ⟨t, -, hneeds⟩
    · rw [List.mem_singleton.1 hs]
      exact List.mem_cons_of_mem _ (List.mem_cons_self ..)
    · cases h
      exact List.mem_cons_self ..
    · rcases eq_of_needs hneeds with rfl | rfl <;> simp

theorem independent : Independent [lib, app] := by
  have hacc : ∀ f : FileSketch, f ∈ [lib, app] → Table.Acceptable f.path f.assembleSymbols ∧
      Table.UsesNames {g | g ∈ ["lib", "app", "ext"]} f.assembleSymbols := by
    intro f hf
    rcases List.mem_pair.1 hf with rfl | rfl <;> constructor <;> intro s hs <;>
      obtain rfl := List.mem_singleton.1 hs
    · exact ⟨by decide, rfl, rfl, rfl⟩
    · exact ⟨by decide, nofun⟩
    · exact ⟨by decide, rfl, rfl, rfl⟩
    · exact ⟨by decide, fun ns hns => by cases hns; decide⟩
  refine ⟨by decide, fun f hf => ?_, fun f hf => ?_, List.pairwise_pair.2 fun s hs s' hs' => ?_⟩
  · rcases List.mem_pair.1 hf with rfl | rfl <;> decide
  · obtain ⟨hs, hn⟩ := hacc f hf
    exact Table.commitFile_accepts (Table.orderly_empty.sound injOn_names) hs hn
  · rw [List.mem_singleton.1 hs, List.mem_singleton.1 hs']
    decide

end TwoFiles

/-! ## The order does not show -/

/-- Global visibility does not depend on the order of arrival: however the files are committed and
however they are resolved afterwards, all of them are accepted, and the symbols, the edges and the
count of unresolved edges of every file are the same. -/
theorem arrival_order_irrelevant (files : List FileSketch) (h : Independent files)
    (hid : Set.InjOn SymbolId.ofFqn (usedNames files)) :
    ∃ symbols edges counts, ∀ committed resolved : List FileSketch, committed.Perm files →
      resolved.Perm files → ∃ t, commitSketches committed = .ok t ∧
        ∃ t', resolveAll (View.ofSketches committed t) resolved t = .ok (counts, t') ∧
          t'.allSymbols = symbols ∧ t'.allEdges = edges := by
  obtain ⟨t₀, hok₀, hs₀⟩ := commitSketches_accepts h hid (.refl files)
  have hholds₀ := commitSketches_holds h hok₀
  set v := View.ofSketches files t₀
  have hinternal : ∀ g y, v.snapshot.symbols.get? g = some y → y.isExternal = false :=
    fun g y hy => ((hholds₀.symbols g y).1 hy).internal fun f hf => h.acceptable hf
  have hneeds : ∀ f ∈ files, ∀ g, v.Needs f g → g ∈ usedNames files := fun f hf g hg =>
    ⟨f, hf, .inr (.inr ⟨t₀, hok₀, hg⟩)⟩
  obtain ⟨counts, t₁, -, harrived⟩ :=
    resolveAll_arrives hs₀ hinternal rfl hholds₀.edges hneeds h.paths
  refine ⟨t₁.allSymbols, t₁.allEdges, counts, fun committed resolved hc hr => ?_⟩
  -- the commits of another order end in the same symbols, and so the resolver sees the same
  obtain ⟨t, hok, hs⟩ := commitSketches_accepts h hid hc
  have hholds := commitSketches_holds (h.perm hc) hok
  have hsymbols := hholds₀.symbols_eq hholds hc
  obtain ⟨counts', t', hresolve, harrived'⟩ := resolveAll_arrives hs hinternal hsymbols
    hholds.edges (fun f hf => hneeds f (hr.mem_iff.1 hf)) ((hr.map _).nodup_iff.2 h.paths)
  obtain ⟨rfl, hsym, hedges⟩ := harrived.eq harrived' hr
  refine ⟨t, hok, t', ?_, congrArg SortedMap.values hsym, ?_⟩
  · rw [View.ofSketches_perm h.paths hc hsymbols]
    exact hresolve
  · unfold Table.allEdges
    rw [hedges]

theorem arrival_order_irrelevant_pair : Independent [TwoFiles.lib, TwoFiles.app] ∧
    Set.InjOn SymbolId.ofFqn (usedNames [TwoFiles.lib, TwoFiles.app]) ∧
    ∃ symbols edges counts, ∀ committed resolved : List FileSketch,
      committed.Perm [TwoFiles.lib, TwoFiles.app] → resolved.Perm [TwoFiles.lib, TwoFiles.app] →
        ∃ t, commitSketches committed = .ok t ∧
          ∃ t', resolveAll (View.ofSketches committed t) resolved t = .ok (counts, t') ∧
            t'.allSymbols = symbols ∧ t'.allEdges = edges :=
  have hid := TwoFiles.injOn_names.mono TwoFiles.usedNames_subset
  ⟨TwoFiles.independent, hid, arrival_order_irrelevant _ TwoFiles.independent hid⟩

end CodeAtlas
