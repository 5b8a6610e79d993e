import Mathlib
import CodeAtlas.Proofs.Project.Marking
import CodeAtlas.Proofs.Table.Placeholders
import CodeAtlas.Proofs.Table.Updates

/-!
# What a run carries over

`Controller.Orderly` is what holds of every project: the table is orderly, edges belong to files with
a record, and sketches stand under their path; it is `Controller.Coherent` if moreover no two names
share an identifier. `Run.Carries` compares two moments of a run: a file
either keeps its record, its edges and its symbols, or it is no longer resolved; and a symbol is
still known, or its identifier is noted as gone.

Every operation of a run before the store is reached is one of a few kinds, each with one lemma
here: `carries_of_records`, `carries_of_update`, `carries_of_rewires`, `carries_of_taught`.
-/

namespace CodeAtlas

open SortedMap

variable {σ : Type} {names : Set String} {fresh : String → Prop}

/-! ## Orderly projects -/

/-- A record that can stand under a path. -/
structure FileRecord.Ok (path : String) (x : FileRecord) : Prop where
  path_eq : x.path = path
  sketches : ∀ {f}, x.sketches = some f → f.path = path ∧ path ≠ ""
  resolved : x.state = .resolved → path ≠ settingsFile → x.sketches.isSome = true

theorem FileRecord.Ok.outdated {path : String} {x : FileRecord} (h : x.Ok path) :
    x.outdated.Ok path := by
  refine ⟨by simp [h.path_eq], fun hf => h.sketches (by simpa using hf), fun hr => ?_⟩
  rcases x.outdated_state with hs | hs <;> rw [hs] at hr <;> cases hr

/-- A resolved file has a path. -/
theorem FileRecord.Ok.ne_empty {path : String} {x : FileRecord} (h : x.Ok path)
    (hr : x.state = .resolved) (hp : path ≠ settingsFile) : path ≠ "" := by
  obtain ⟨f, hf⟩ := Option.isSome_iff_exists.1 (h.resolved hr hp)
  exact (h.sketches hf).2

/-- What holds of every project. -/
structure Controller.Orderly (names : Set String) (c : Controller σ) : Prop where
  table : c.table.Orderly names
  counted : c.table.Counted
  owned : ∀ {o e}, e ∈ c.table.edgesOf o → e.owner = o
  /-- Who owns an edge has a record. -/
  recorded : ∀ {o}, o ≠ settingsFile → c.table.edgesOf o ≠ [] → c.records.contains o = true
  record : ∀ {p x}, c.records.get? p = some x → x.Ok p

/-- A project over names without clashes of identifiers. -/
structure Controller.Coherent (names : Set String) (c : Controller σ) : Prop
    extends Controller.Orderly names c where
  distinct : Set.InjOn SymbolId.ofFqn names

namespace Controller

variable {c : Controller σ}

instance : CoeOut (c.Coherent names) (c.Orderly names) := ⟨Coherent.toOrderly⟩

theorem Orderly.coherent (h : c.Orderly names) (hd : Set.InjOn SymbolId.ofFqn names) :
    c.Coherent names :=
  ⟨h, hd⟩

theorem Coherent.sound (h : c.Coherent names) : c.table.Sound names := h.table.sound h.distinct

end Controller

namespace Run

/-! ## Two moments of a run -/

/-- A file has the same record and edges as before, and no new symbols. -/
structure Keeps (r r' : Run σ) (p : String) : Prop where
  record : r'.records.get? p = r.records.get? p
  edges : r'.table.edgesOf p = r.table.edgesOf p
  entry : r'.table.files.get? p = r.table.files.get? p
  symbols : p ≠ "" → ∀ s ∈ r'.table.symbolsInFile p, s ∈ r.table.symbolsInFile p

/-- The edges of the settings are to be computed anew. -/
def AsksSettings (r : Run σ) : Prop :=
  r.settingsAffected = true ∨ r.affected.contains settingsFile = true

/-- What a part of a run does to its project; `due` are the paths that may get a record. -/
structure Carries (due : String → Prop) (r r' : Run σ) : Prop where
  setup : r.SameSetup r'.toController
  keeps : ∀ p, p ≠ settingsFile →
    r.Keeps r' p ∨ ∀ x, r'.records.get? p = some x → x.state ≠ .resolved
  known : ∀ {fqn}, r.table.symbols.contains fqn = true →
    r'.table.symbols.contains fqn = true ∨ r'.droppedIds.contains (.ofFqn fqn) = true
  dropped : ∀ id, r.droppedIds.contains id = true → r'.droppedIds.contains id = true
  created : ∀ p, p ≠ settingsFile → r'.records.contains p = true →
    r.records.contains p = true ∨ due p
  asks : r.AsksSettings → r'.AsksSettings
  settings : r'.AsksSettings ∨ r'.table.edgesOf settingsFile = r.table.edgesOf settingsFile
  entry : ∀ {e}, r.table.files.get? settingsFile = some e →
    r'.table.files.get? settingsFile = some e ∨ due settingsFile

variable {due : String → Prop} {r r' r'' : Run σ}

theorem Keeps.refl (r : Run σ) (p : String) : r.Keeps r p := ⟨rfl, rfl, rfl, fun _ _ => id⟩

theorem Keeps.trans {p : String} (h : r.Keeps r' p) (h' : r'.Keeps r'' p) : r.Keeps r'' p :=
  ⟨h'.record.trans h.record, h'.edges.trans h.edges, h'.entry.trans h.entry,
    fun hp s hs => h.symbols hp s (h'.symbols hp s hs)⟩

theorem Carries.refl (r : Run σ) : Carries due r r :=
  ⟨.refl _, fun p _ => .inl (.refl r p), .inl, fun _ => id, fun _ _ => .inl, id, .inr rfl, .inl⟩

theorem Carries.trans (h : Carries due r r') (h' : Carries due r' r'') : Carries due r r'' := by
  refine ⟨h.setup.trans h'.setup, fun p hp => ?_, fun hk => ?_,
    fun id hid => h'.dropped id (h.dropped id hid), fun p hp hc => ?_, fun ha => h'.asks (h.asks ha),
    ?_, fun he => (h.entry he).elim h'.entry .inr⟩
  · rcases h'.keeps p hp with hkeep | hopen
    · rcases h.keeps p hp with hkeep' | hopen'
      · exact .inl (hkeep'.trans hkeep)
      · exact .inr fun x hx => hopen' x (hkeep.record ▸ hx)
    · exact .inr hopen
  · rcases h.known hk with hk | hd
    · exact h'.known hk
    · exact .inr (h'.dropped _ hd)
  · rcases h'.created p hp hc with hc | hd
    · exact h.created p hp hc
    · exact .inr hd
  · rcases h'.settings with ha | heq
    · exact .inl ha
    · exact h.settings.imp h'.asks heq.trans

/-! ## Kinds of operations -/

/-- An operation on records. -/
theorem carries_of_records (h : r.Orderly names) (hsetup : r.SameSetup r'.toController)
    (hgraph : r.table.SameGraph r'.table) (hdrop : r'.droppedIds = r.droppedIds)
    (hrec : ∀ p, r'.records.get? p = r.records.get? p ∨
      ∀ x, r'.records.get? p = some x → x.Ok p ∧ (p ≠ settingsFile → x.state ≠ .resolved))
    (hmono : ∀ p, p ≠ settingsFile → r.records.contains p = true → r'.records.contains p = true)
    (hnew : ∀ p, p ≠ settingsFile → r'.records.contains p = true →
      r.records.contains p = true ∨ due p) (hasks : r.AsksSettings → r'.AsksSettings) :
    r'.Orderly names ∧ Carries due r r' := by
  have hedges : ∀ o, r'.table.edgesOf o = r.table.edgesOf o := hgraph.edges.edgesOf
  refine ⟨⟨h.table.of_same hgraph.symbols, h.counted.of_same hgraph.edges,
    fun he => h.owned (hedges _ ▸ he), fun ho he => hmono _ ho (h.recorded ho (hedges _ ▸ he)),
    fun {p x} hx => ?_⟩, hsetup, fun p hp => ?_, fun hk => ?_, fun id hid => hdrop ▸ hid, hnew, hasks,
    .inr (hedges _), fun he => .inl (hgraph.symbols.files ▸ he)⟩
  · rcases hrec p with hp | hp
    · exact h.record (hp ▸ hx)
    · exact (hp x hx).1
  · rcases hrec p with heq | hopen
    · refine .inl ⟨heq, hedges p, by rw [hgraph.symbols.files], fun _ s hs => ?_⟩
      rwa [hgraph.symbols.symbolsInFile] at hs
    · exact .inr fun x hx => (hopen x hx).2 hp
  · exact .inl (by rwa [hgraph.symbols.symbols])

theorem Marked.asksSettings {paths : List String} (hm : Marked paths r r') (h : r.AsksSettings) :
    r'.AsksSettings :=
  h.imp (fun ha => hm.settingsAffected.2 (.inl ha)) fun ha => (hm.affected _).2 (.inl ha)

theorem marked_carries (h : r.Orderly names) {paths : List String} (hm : Marked paths r r') :
    r'.Orderly names ∧ Carries due r r' := by
  refine carries_of_records h hm.setup (hm.table ▸ .refl _) hm.droppedIds (fun p => ?_)
    (fun p _ hc => contains_records_of_marked hm p ▸ hc)
    (fun p _ hc => .inl (contains_records_of_marked hm p ▸ hc)) hm.asksSettings
  rw [hm.records]
  split
  · refine .inr fun x hx => ?_
    obtain ⟨y, hy, rfl⟩ := Option.map_eq_some_iff.1 hx
    refine ⟨(h.record hy).outdated, fun _ => ?_⟩
    rcases y.outdated_state with hs | hs <;> rw [hs] <;> simp
  · exact .inl rfl

end Run

/-- The edges after an update were there before. -/
theorem Table.Update.mem_edgesOf {file : String} {removed : IdSet} {stale : StringSet}
    {t t' : Table} (h : Table.Update names file fresh removed stale t t') {o : String} {e : Edge}
    (he : e ∈ t'.edgesOf o) : e ∈ t.edgesOf o := by
  by_cases ho : o = file
  · subst ho
    exact (h.own e he).1
  · rw [h.edges o ho] at he
    exact (List.mem_filter.1 he).1

/-- Another file keeps its edges by an update that does not list it as stale. -/
theorem Table.Update.edgesOf_eq {file p : String} {removed : IdSet} {stale : StringSet}
    {t t' : Table} (h : Table.Update names file fresh removed stale t t') (hp : p ≠ file)
    (hs : p ∉ stale.toList) : t'.edgesOf p = t.edgesOf p := by
  rw [h.edges p hp, List.filter_eq_self]
  intro e he
  by_contra hcon
  exact hs (StringSet.mem_toList.2 (h.lost p hp ⟨e, he, by simpa using hcon⟩))

/-- Another file gets no symbols by an update that does not list it as stale. -/
theorem Table.Update.symbolsInFile {file p : String} {removed : IdSet} {stale : StringSet}
    {t t' : Table} (h : Table.Update names file fresh removed stale t t') (hp : p ≠ file)
    (hne : p ≠ "") (hs : stale.contains p = false) :
    ∀ s ∈ t'.symbolsInFile p, s ∈ t.symbolsInFile p := by
  intro s hmem
  unfold Table.symbolsInFile at hmem ⊢
  have hentry : t'.files.getD p {} = t.files.getD p {} := by rw [getD, getD, h.files p hp]
  rw [List.mem_mergeSort, List.mem_filter, hentry] at hmem
  obtain ⟨hmem, hfile⟩ := hmem
  rw [List.mem_mergeSort, List.mem_filter]
  refine ⟨?_, hfile⟩
  obtain ⟨fqn, hfqn, hget⟩ := List.mem_filterMap.1 hmem
  have hsp : s.file = p := by simpa using hfile
  rcases h.foreign hget (hsp ▸ hp) (hsp ▸ hne) with hold | hstale
  · exact List.mem_filterMap.2 ⟨fqn, hfqn, hold⟩
  · rw [hsp, hs] at hstale
    cases hstale

namespace Run

variable {due : String → Prop} {r r' : Run σ} {file : String} {fresh : String → Prop}
  {removed : IdSet} {stale : StringSet}

theorem orderly_of_update (h : r.Orderly names)
    (hup : Table.Update names file fresh removed stale r.table r'.table)
    (hrecord : ∀ {p x}, r'.records.get? p = some x → x.Ok p)
    (hmono : ∀ p, p ≠ file → p ≠ settingsFile → r.records.contains p = true →
      r'.records.contains p = true)
    (hown : file ≠ settingsFile → r'.table.edgesOf file ≠ [] → r'.records.contains file = true) :
    r'.Orderly names := by
  refine ⟨hup.orderly, hup.counted, fun he => h.owned (hup.mem_edgesOf he), fun {o} ho he => ?_, hrecord⟩
  by_cases hof : o = file
  · subst hof
    exact hown ho he
  · obtain ⟨e, he⟩ := List.exists_mem_of_ne_nil _ he
    exact hmono o hof ho (h.recorded ho (List.ne_nil_of_mem (hup.mem_edgesOf he)))

/-- A commit or a removal of `file` that queues the files which it makes stale. -/
theorem carries_of_update (h : r.Orderly names)
    (hup : Table.Update names file fresh removed stale r.table r'.table)
    (hsetup : r.SameSetup r'.toController) (hrec : ∀ p, p ≠ file → r'.records.get? p =
      if p ∈ stale.toList ∧ p ≠ settingsFile then (r.records.get? p).map FileRecord.outdated
      else r.records.get? p)
    (hfile : ∀ x, r'.records.get? file = some x → x.Ok file ∧ x.state ≠ .resolved ∧ due file)
    (hown : r'.table.edgesOf file ≠ [] → r'.records.contains file = true)
    (hdrop : ∀ id, r.droppedIds.contains id = true ∨ removed.contains id = true →
      r'.droppedIds.contains id = true)
    (hasks : r.AsksSettings ∨ file = settingsFile ∨ settingsFile ∈ stale.toList →
      r'.AsksSettings)
    (hset : file = settingsFile → due settingsFile) : r'.Orderly names ∧ Carries due r r' := by
  have hcontains : ∀ p, p ≠ file → r'.records.contains p = r.records.contains p := by
    intro p hp
    unfold SortedMap.contains
    rw [hrec p hp]
    split <;> simp
  have hrecord : ∀ {p x}, r'.records.get? p = some x → x.Ok p := by
    intro p x hx
    by_cases hp : p = file
    · subst hp
      exact (hfile x hx).1
    · rw [hrec p hp] at hx
      split at hx
      · obtain ⟨y, hy, rfl⟩ := Option.map_eq_some_iff.1 hx
        exact (h.record hy).outdated
      · exact h.record hx
  refine ⟨orderly_of_update h hup hrecord (fun p hp _ hc => hcontains p hp ▸ hc) fun _ => hown,
    hsetup, fun p hp => ?_, fun {fqn} hk => ?_, fun id hid => hdrop id (.inl hid), fun p hp hc => ?_,
    fun ha => hasks (.inl ha), ?_, fun he => ?_⟩
  · by_cases hpf : p = file
    · subst hpf
      exact .inr fun x hx => (hfile x hx).2.1
    · by_cases hstale : p ∈ stale.toList
      · right
        intro x hx
        rw [hrec p hpf, if_pos ⟨hstale, hp⟩] at hx
        obtain ⟨y, -, rfl⟩ := Option.map_eq_some_iff.1 hx
        rcases y.outdated_state with hs | hs <;> rw [hs] <;> simp
      · have hno : stale.contains p = false := by
          simpa [StringSet.mem_toList] using hstale
        exact .inl ⟨(hrec p hpf).trans (if_neg fun hh => hstale hh.1), hup.edgesOf_eq hpf hstale,
          hup.files p hpf, fun hne => hup.symbolsInFile hpf hne hno⟩
  · obtain ⟨s, hs⟩ := contains_iff.1 hk
    by_cases hr : removed.contains (.ofFqn fqn) = true
    · exact .inr (hdrop _ (.inr hr))
    · obtain ⟨s', hs', -⟩ := hup.survives hs (by simpa using hr)
      exact .inl (contains_of_get? hs')
  · by_cases hpf : p = file
    · subst hpf
      obtain ⟨x, hx⟩ := contains_iff.1 hc
      exact .inr (hfile x hx).2.2
    · exact .inl (hcontains p hpf ▸ hc)
  · by_cases hs : file = settingsFile ∨ settingsFile ∈ stale.toList
    · exact .inl (hasks (.inr hs))
    · exact .inr (hup.edgesOf_eq (fun he => hs (.inl he.symm)) fun hm => hs (.inr hm))
  · by_cases hs : file = settingsFile
    · exact .inr (hset hs)
    · exact .inl ((hup.files _ (Ne.symm hs)).trans he)

/-- An operation on the edges of one file that is not resolved, or of the settings. -/
theorem carries_of_rewires (h : r.Orderly names) {path : String} {edges : List Edge}
    (hw : Table.Rewires path edges r.table r'.table) (hsetup : r.SameSetup r'.toController)
    (hdrop : r'.droppedIds = r.droppedIds) (howned : ∀ e ∈ edges, e.owner = path)
    (hrecorded : path ≠ settingsFile → edges ≠ [] → r.records.contains path = true)
    (hrec : ∀ p, p ≠ path → r'.records.get? p = r.records.get? p)
    (hpath : ∀ x, r'.records.get? path = some x →
      x.Ok path ∧ (path ≠ settingsFile → x.state ≠ .resolved))
    (hcontains : ∀ p, r'.records.contains p = r.records.contains p)
    (hasks : r.AsksSettings ∨ path = settingsFile → r'.AsksSettings) :
    r'.Orderly names ∧ Carries due r r' := by
  refine ⟨⟨h.table.of_same hw.same, hw.counted h.counted, fun {o e} he => ?_, fun {o} ho he => ?_,
    fun {p x} hx => ?_⟩, hsetup, fun p hp => ?_, fun hk => .inl (by rwa [hw.same.symbols]),
    fun id hid => hdrop ▸ hid, fun p _ hc => .inl (hcontains p ▸ hc), fun ha => hasks (.inl ha), ?_,
    fun he => .inl (hw.same.files ▸ he)⟩
  · rw [hw.edgesOf] at he
    split at he
    · next heq =>
      rw [heq]
      exact howned e he
    · exact h.owned he
  · rw [hw.edgesOf] at he
    rw [hcontains]
    split at he
    · next heq =>
      rw [heq] at ho ⊢
      exact hrecorded ho he
    · exact h.recorded ho he
  · by_cases hpp : p = path
    · subst hpp
      exact (hpath x hx).1
    · exact h.record (hrec p hpp ▸ hx)
  · by_cases hpp : p = path
    · subst hpp
      exact .inr fun x hx => (hpath x hx).2 hp
    · refine .inl ⟨hrec p hpp, (hw.edgesOf p).trans (if_neg hpp), by rw [hw.same.files],
        fun _ s hs => ?_⟩
      rwa [hw.same.symbolsInFile] at hs
  · by_cases hs : path = settingsFile
    · exact .inl (hasks (.inr hs))
    · exact .inr ((hw.edgesOf _).trans (if_neg (Ne.symm hs)))

end Run

/-- A file gets no symbols by an operation that adds only symbols without a file. -/
theorem Table.symbolsInFile_of_bare {t t' : Table} (hfiles : t'.files = t.files)
    (hnew : ∀ {fqn s}, t'.symbols.get? fqn = some s → t.symbols.get? fqn = some s ∨ s.file = "")
    {p : String} (hp : p ≠ "") : ∀ s ∈ t'.symbolsInFile p, s ∈ t.symbolsInFile p := by
  intro s hmem
  unfold Table.symbolsInFile at hmem ⊢
  rw [List.mem_mergeSort, List.mem_filter, hfiles] at hmem
  obtain ⟨hmem, hfile⟩ := hmem
  obtain ⟨fqn, hfqn, hget⟩ := List.mem_filterMap.1 hmem
  rw [List.mem_mergeSort, List.mem_filter]
  refine ⟨List.mem_filterMap.2 ⟨fqn, hfqn, (hnew hget).resolve_right fun hbare => hp ?_⟩, hfile⟩
  rw [← hbare]
  exact (by simpa using hfile : s.file = p).symm

namespace Run

variable {due : String → Prop} {r r' : Run σ}

/-- The table learns placeholders. -/
theorem carries_of_taught (h : r.Orderly names) (ht : r.table.Taught r'.table)
    (hnames : ∀ fqn, r'.table.symbols.contains fqn = true → fqn ∈ names)
    (hsetup : r.SameSetup r'.toController) (hdrop : r'.droppedIds = r.droppedIds)
    (hrec : r'.records = r.records) (hasks : r.AsksSettings → r'.AsksSettings) :
    r'.Orderly names ∧ Carries due r r' := by
  have hedges := ht.edges.edgesOf
  refine ⟨⟨ht.orderly hnames h.table, h.counted.of_same ht.edges,
    fun he => h.owned (hedges _ ▸ he), fun ho he => hrec ▸ h.recorded ho (hedges _ ▸ he),
    fun hx => h.record (hrec ▸ hx)⟩, hsetup, fun p _ => .inl ⟨by rw [hrec], hedges p,
      by rw [ht.files], fun hp => ?_⟩, fun hk => .inl (ht.contains hk), fun id hid => hdrop ▸ hid,
    fun p _ hc => .inl (hrec ▸ hc), hasks, .inr (hedges _), fun he => .inl (ht.files ▸ he)⟩
  exact Table.symbolsInFile_of_bare ht.files (fun hs => (ht.new hs).imp_right fun hn => hn.2.2) hp

end Run

end CodeAtlas
