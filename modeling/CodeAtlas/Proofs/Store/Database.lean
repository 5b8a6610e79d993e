import Mathlib
import CodeAtlas.Store.Database
import CodeAtlas.Proofs.Sorting
import CodeAtlas.Proofs.Store.Memory

/-!
# A database holds what a store in memory holds

A database keeps rows of plain columns in order of arrival, and a store in memory keeps the values,
nodes by identifier and edges by owner. Both take the same batches. After any of them the rows read
back as the values: nodes may change their files, appear twice in a batch or be dropped and written
again, and the order of the edges of an owner survives what happens to other owners.

Main results:

* `Database.Refines`: what relates the two stores. Each single change of rows keeps it
  (`Refines.retract`, `Refines.dropNode`, `Refines.putNode`, `Refines.putEdge`), so a batch does
  (`Refines.apply`), and any number of them (`Refines.foldl`).
* `Database.Refines.load`: what is read from related stores.
* `Database.load_eq_memory`: the two stores agree after any batches.
-/

namespace CodeAtlas

open SortedMap

theorem mapM_map_eq_pure {μ : Type → Type} [Monad μ] [LawfulMonad μ] {ρ α β : Type} {read : ρ → μ β}
    {f : α → ρ} {g : α → β} {l : List α} (h : ∀ a ∈ l, read (f a) = pure (g a)) :
    (l.map f).mapM read = pure (l.map g) := by
  induction l with
  | nil => rfl
  | cons a rest ih =>
    rw [List.map_cons, List.mapM_cons, h a (List.mem_cons_self ..),
      ih fun x hx => h x (List.mem_cons_of_mem _ hx)]
    simp

/-! ## Scores -/

section Scores

open Float.Model

theorem unpacked_compare_swap (a b : UnpackedFloat) :
    b.compare a = (a.compare b).map Ordering.swap := by
  cases a with
  | notANumber => cases b <;> rfl
  | infinity s =>
    cases b with
    | notANumber => cases s <;> rfl
    | infinity s' => cases s <;> cases s' <;> rfl
    | zero s' => cases s <;> rfl
    | finite s' m' e' h' => cases s <;> rfl
  | zero s =>
    cases b with
    | notANumber => rfl
    | infinity s' => cases s' <;> rfl
    | zero s' => rfl
    | finite s' m' e' h' => cases s' <;> rfl
  | finite s m e h =>
    cases b with
    | notANumber => cases s <;> rfl
    | infinity s' => cases s <;> cases s' <;> rfl
    | zero s' => cases s <;> rfl
    | finite s' m' e' h' =>
      have he : compare e' e = (compare e e').swap := Std.OrientedCmp.eq_swap
      have hm : compare m' m = (compare m m').swap := Std.OrientedCmp.eq_swap
      cases s <;> cases s' <;> simp [UnpackedFloat.compare, he, hm, Ordering.swap_then]

theorem unpacked_compare_self {a : UnpackedFloat} (h : a ≠ .notANumber) :
    a.compare a = some .eq := by
  cases a with
  | notANumber => exact absurd rfl h
  | infinity s => cases s <;> rfl
  | zero s => rfl
  | finite s m e h => cases s <;> simp [UnpackedFloat.compare]

variable {x y : Float}

theorem float_le_iff :
    x ≤ y ↔ ∃ o, x.toModel.unpack.compare y.toModel.unpack = some o ∧ o.isLE = true := by
  change Float.le x y = true ↔ _
  unfold Float.le
  simp [LE.le, Float.Model.le, UnpackedFloat.le, Option.any_eq_true]

theorem float_lt_iff : x < y ↔ x.toModel.unpack.compare y.toModel.unpack = some .lt := by
  change Float.lt x y = true ↔ _
  unfold Float.lt
  simp [LT.lt, Float.Model.lt, UnpackedFloat.lt]

theorem float_beq_iff : (x == y) = true ↔ x.toModel.unpack.compare y.toModel.unpack = some .eq := by
  change (x.toModel.unpack.compare y.toModel.unpack == some .eq) = true ↔ _
  exact beq_iff_eq

theorem float_not_lt_of_le (h : x ≤ y) : ¬y < x := by
  obtain ⟨o, ho, hle⟩ := float_le_iff.1 h
  rw [float_lt_iff, unpacked_compare_swap, ho]
  cases o with
  | lt | eq => nofun
  | gt => cases hle

theorem float_beq_symm (h : (x == y) = true) : (y == x) = true := by
  rw [float_beq_iff] at h ⊢
  rw [unpacked_compare_swap, h]
  rfl

theorem float_beq_self (h : y ≤ x) : (x == x) = true := by
  obtain ⟨o, ho, -⟩ := float_le_iff.1 h
  refine float_beq_iff.2 (unpacked_compare_self fun hx => ?_)
  rw [hx] at ho
  cases hy : y.toModel.unpack <;> rw [hy] at ho <;> cases ho

theorem clamp_of_mem (h0 : 0 ≤ x) (h1 : x ≤ 1) : Edge.clamp x = x := by
  rw [Edge.clamp, if_neg (float_not_lt_of_le h0), if_neg (float_not_lt_of_le h1)]

theorem clamp_storedNumber (h0 : 0 ≤ x) (h1 : x ≤ 1) :
    Edge.clamp (Database.storedNumber x) = Database.storedNumber x := by
  unfold Database.storedNumber
  split
  · decide
  · exact clamp_of_mem h0 h1

/-- A column gives back an equal number, though not always the same zero. -/
theorem storedNumber_beq (h0 : 0 ≤ x) : (Database.storedNumber x == x) = true := by
  unfold Database.storedNumber
  split
  · next h => exact float_beq_symm h
  · exact float_beq_self h0

end Scores

/-! ## Rows -/

theorem SymbolKind.ofName?_name (k : SymbolKind) : ofName? k.name = some k := by
  cases k <;> decide

theorem EdgeType.ofName?_name (t : EdgeType) : ofName? t.name = some t := by
  cases t <;> decide

/-- The written form of metadata stands for the same metadata. -/
def Metadata.Lossless (m : Metadata) : Prop := Metadata.parse? m.render = some m

/-- An edge that a row can hold: its score lies between `0` and `1`. -/
structure Edge.Storable (e : Edge) : Prop where
  nonneg : 0 ≤ e.confidence
  le_one : e.confidence ≤ 1
  metadata : e.metadata.Lossless

/-- A batch whose nodes and edges rows can hold. -/
structure Batch.Storable (b : Batch) : Prop where
  nodes : ∀ s ∈ b.nodes, s.metadata.Lossless
  edges : ∀ e ∈ b.edges, e.Storable

theorem NodeRow.toSymbol_ofSymbol {s : Symbol} (h : s.metadata.Lossless) :
    (NodeRow.ofSymbol s).toSymbol = .ok s := by
  have hparse : Metadata.parse? s.metadata.render = some s.metadata := h
  simp only [NodeRow.toSymbol, NodeRow.ofSymbol, SymbolKind.ofName?_name, hparse, RowError.orElse]
  rfl

/-- A store takes a list of batches, one after the other. -/
inductive Sink.Takes {σ : Type} [Sink σ] : List Batch → σ → σ → Prop
  | nil (s : σ) : Takes [] s s
  | cons {b : Batch} {rest : List Batch} {s s' s'' : σ} (h : write b s = (.ok (), s'))
      (hrest : Takes rest s' s'') : Takes (b :: rest) s s''

namespace Database

/-- The row that is kept of an edge. -/
def edgeRow (e : Edge) : EdgeRow :=
  { EdgeRow.ofEdge e with confidence := storedNumber e.confidence }

/-- An edge with its score as a column keeps it. -/
def storedEdge (e : Edge) : Edge := { e with confidence := storedNumber e.confidence }

theorem toEdge_edgeRow {e : Edge} (h : e.Storable) : (edgeRow e).toEdge = .ok (storedEdge e) := by
  have hparse : Metadata.parse? e.metadata.render = some e.metadata := h.metadata
  simp only [EdgeRow.toEdge, edgeRow, EdgeRow.ofEdge, EdgeType.ofName?_name, hparse,
    RowError.orElse, Edge.ofScore, clamp_storedNumber h.nonneg h.le_one]
  rfl

/-! ## Single changes -/

/-- A database holds the rows of a store in memory: those of its nodes in any order, and those of
the edges of each owner in order of arrival. -/
structure Refines (d : Database) (m : MemoryStore) : Prop where
  hasTables : d.hasTables = true
  files : d.files = ∅
  rejections : m.rejections = 0
  nodes : d.nodes.Perm (m.nodes.values.map NodeRow.ofSymbol)
  node : ∀ {id s}, m.nodes.get? id = some s → s.id = id ∧ s.metadata.Lossless
  edges : ∀ o, d.edges.filter (fun r => r.owner = o) = (m.edgesOf o).map edgeRow
  edge : ∀ {o e}, e ∈ m.edgesOf o → e.owner = o ∧ e.Storable

theorem values_eraseNode {m : SortedMap SymbolId Symbol}
    (h : ∀ {id s}, m.get? id = some s → s.id = id) (id : SymbolId) :
    (m.erase id).values = m.values.filter fun s => s.id.hex != id.hex := by
  rw [SortedMap.values, SortedMap.values, List.filter_map]
  refine congrArg (List.map _) (List.filter_congr fun e he => ?_)
  have hid : e.2.id = e.1 := h (mem_entries_iff.1 he)
  have heq : compare id e.1 = .eq ↔ e.2.id.hex = id.hex := by
    rw [Std.compare_eq_iff_eq, hid]
    exact ⟨fun h => h ▸ rfl, fun h => congrArg SymbolId.mk h.symm⟩
  rw [Bool.eq_iff_iff]
  simp [heq]

namespace Refines

variable {d : Database} {m : MemoryStore}

theorem start : Refines (createTables {}) {} where
  hasTables := rfl
  files := rfl
  rejections := rfl
  nodes := .refl _
  node h := by cases h
  edges _ := rfl
  edge h := by cases h

section

variable (h : Refines d m)

include h

theorem retract (file : String) : Refines (d.retract file) (m.retract file) := by
  have hedges : ∀ o, (m.retract file).edgesOf o = if o = file then [] else m.edgesOf o := by
    intro o
    simpa using (MemoryStore.foldl_retract [file] m).1 o
  refine ⟨h.hasTables, h.files, h.rejections, ?_, fun {id s} hs => ?_, fun o => ?_, fun {o e} he => ?_⟩
  · show (d.nodes.filter _).Perm _
    rw [MemoryStore.retract, values_filter]
    refine (h.nodes.filter _).trans (List.Perm.of_eq ?_)
    rw [List.filter_map]
    rfl
  · rw [MemoryStore.retract, get?_filter] at hs
    exact h.node (Option.filter_eq_some_iff.1 hs).1
  · show (d.edges.filter _).filter _ = _
    rw [hedges, List.filter_filter]
    split
    · next ho =>
      rw [List.map_nil, List.filter_eq_nil_iff]
      intro r _
      simp [ho]
    · next ho =>
      rw [← h.edges o]
      refine List.filter_congr fun r _ => ?_
      by_cases hr : r.owner = o <;> simp [hr, ho]
  · rw [hedges] at he
    split at he
    · cases he
    · exact h.edge he

theorem dropNode (id : SymbolId) : Refines (d.dropNode id) (m.dropNode id) := by
  refine ⟨h.hasTables, h.files, h.rejections, ?_, fun {i s} hs => ?_, h.edges, h.edge⟩
  · show (d.nodes.filter _).Perm _
    rw [MemoryStore.dropNode, values_eraseNode fun hs => (h.node hs).1]
    refine (h.nodes.filter _).trans (List.Perm.of_eq ?_)
    rw [List.filter_map]
    rfl
  · rw [MemoryStore.dropNode, get?_erase_eq] at hs
    split at hs
    · cases hs
    · exact h.node hs

theorem putNode {s : Symbol} (hs : s.metadata.Lossless) : Refines (d.putNode s) (m.putNode s) := by
  refine ⟨h.hasTables, h.files, h.rejections, ?_, fun {i x} hx => ?_, h.edges, h.edge⟩
  · have hdrop := (h.dropNode s.id).nodes
    have hput := (values_insert_perm m.nodes s.id s).map NodeRow.ofSymbol
    rw [List.map_append] at hput
    exact (hdrop.append_right _).trans hput.symm
  · rw [MemoryStore.putNode, get?_insert_eq] at hx
    split at hx
    · next hi =>
      cases hx
      exact ⟨hi.symm, hs⟩
    · exact h.node hx

theorem putEdge {e : Edge} (he : e.Storable) : Refines (d.putEdge e) (m.putEdge e) := by
  have hedges : ∀ o, (m.putEdge e).edgesOf o = m.edgesOf o ++ if e.owner = o then [e] else [] := by
    intro o
    rw [show m.putEdge e = [e].foldl MemoryStore.putEdge m from rfl,
      (MemoryStore.foldl_putEdge [e] m).2 o]
    by_cases ho : e.owner = o <;> simp [ho]
  refine ⟨h.hasTables, h.files, h.rejections, h.nodes, h.node, fun o => ?_, fun {o x} hx => ?_⟩
  · show (d.edges ++ [edgeRow e]).filter _ = _
    rw [hedges, List.filter_append, h.edges, List.map_append]
    have howner : (edgeRow e).owner = e.owner := rfl
    by_cases ho : e.owner = o <;> simp [ho, howner]
  · rw [hedges, List.mem_append] at hx
    rcases hx with hx | hx
    · exact h.edge hx
    · split at hx
      · next ho =>
        rw [List.mem_singleton] at hx
        subst hx
        exact ⟨ho, he⟩
      · cases hx

/-! ## Batches -/

omit h in
theorem foldl {α : Type} {P : α → Prop} {f : Database → α → Database}
    {g : MemoryStore → α → MemoryStore}
    (hstep : ∀ {d m a}, P a → Refines d m → Refines (f d a) (g m a)) (l : List α)
    (hl : ∀ a ∈ l, P a) (h : Refines d m) : Refines (l.foldl f d) (l.foldl g m) := by
  induction l generalizing d m with
  | nil => exact h
  | cons a rest ih =>
    exact ih (fun x hx => hl x (List.mem_cons_of_mem _ hx)) (hstep (hl a (List.mem_cons_self ..)) h)

theorem apply {b : Batch} (hb : b.Storable) : Refines (d.apply b) (m.apply b) := by
  have hretract := h.foldl (f := Database.retract) (g := MemoryStore.retract) (P := fun _ => True)
    (fun _ h => h.retract _) b.retract fun _ _ => trivial
  have hdrop := hretract.foldl (f := Database.dropNode) (g := MemoryStore.dropNode)
    (P := fun _ => True) (fun _ h => h.dropNode _) b.dropNodes fun _ _ => trivial
  have hnodes := hdrop.foldl (f := Database.putNode) (g := MemoryStore.putNode)
    (fun hs h => h.putNode hs) b.nodes hb.nodes
  exact hnodes.foldl (f := Database.putEdge) (g := MemoryStore.putEdge)
    (fun he h => h.putEdge he) b.edges hb.edges

/-- Both stores take a storable batch. -/
theorem write {b : Batch} (hb : b.Storable) :
    ∃ d' m', Sink.write b d = (.ok (), d') ∧ Sink.write b m = (.ok (), m') ∧ Refines d' m' := by
  refine ⟨d.apply b, { m.apply b with batches := m.batches + 1 }, ?_, ?_, ?_⟩
  · simp only [Sink.write, h.hasTables, if_true]
  · simp only [Sink.write, h.rejections]
  · obtain ⟨hasTables, files, rejections, nodes, node, edges, edge⟩ := h.apply hb
    exact ⟨hasTables, files, rejections, nodes, node, edges, edge⟩

theorem takes {batches : List Batch} (hb : ∀ b ∈ batches, b.Storable) :
    ∃ d' m', Sink.Takes batches d d' ∧ Sink.Takes batches m m' ∧ Refines d' m' := by
  induction batches generalizing d m with
  | nil => exact ⟨d, m, .nil d, .nil m, h⟩
  | cons b rest ih =>
    obtain ⟨d₁, m₁, hd, hm, h₁⟩ := h.write (hb b (List.mem_cons_self ..))
    obtain ⟨d', m', hd', hm', h'⟩ := ih h₁ fun x hx => hb x (List.mem_cons_of_mem _ hx)
    exact ⟨d', m', .cons hd hd', .cons hm hm', h'⟩

/-! ## Reading -/

theorem lossless_of_mem {s : Symbol} (hs : s ∈ m.nodes.values) : s.metadata.Lossless := by
  obtain ⟨id, hid⟩ := mem_values.1 hs
  exact (h.node hid).2

theorem storable_of_mem {e : Edge} (he : e ∈ m.allEdges) : e.Storable := by
  rw [MemoryStore.allEdges, values_eq_map_getD m.edges [], List.mem_flatten] at he
  obtain ⟨group, hgroup, he⟩ := he
  obtain ⟨o, -, rfl⟩ := List.mem_map.1 hgroup
  exact (h.edge he).2

/-- The rows of the nodes, in order of their identifiers, stand for the nodes. -/
theorem read_nodes : (d.nodes.mergeSort fun a b => compare a.id b.id != .gt).mapM NodeRow.toSymbol =
      .ok m.nodes.values := by
  have hsorted : (m.nodes.values.map NodeRow.ofSymbol).Pairwise fun a b =>
      compare a.id b.id = .lt := by
    rw [List.pairwise_map, SortedMap.values, List.pairwise_map]
    refine m.nodes.sorted.imp_of_mem fun {e e'} he he' hlt => ?_
    have hid : e.2.id = e.1 := (h.node (mem_entries_iff.1 he)).1
    have hid' : e'.2.id = e'.1 := (h.node (mem_entries_iff.1 he')).1
    rw [← hid, ← hid', SymbolId.compare_def] at hlt
    exact hlt
  have hsort : d.nodes.mergeSort (keyAtMost NodeRow.id) = m.nodes.values.map NodeRow.ofSymbol :=
    mergeSort_key_eq_of_perm hsorted h.nodes
  change (d.nodes.mergeSort (keyAtMost NodeRow.id)).mapM NodeRow.toSymbol = _
  rw [hsort, mapM_map_eq_pure fun s hs => NodeRow.toSymbol_ofSymbol (h.lossless_of_mem hs),
    List.map_id']
  rfl

/-- The rows of the edges, in order of their owners, stand for the edges. -/
theorem read_edges :
    (d.edges.mergeSort fun a b => compare a.owner b.owner != .gt).mapM EdgeRow.toEdge =
      .ok (m.allEdges.map storedEdge) := by
  have hsort : d.edges.mergeSort (keyAtMost EdgeRow.owner) = m.allEdges.map edgeRow :=
    mergeSort_key_eq_flatten (fun o e he => (h.edge he).1) h.edges
  change (d.edges.mergeSort (keyAtMost EdgeRow.owner)).mapM EdgeRow.toEdge = _
  rw [hsort, mapM_map_eq_pure fun e he => toEdge_edgeRow (h.storable_of_mem he)]
  rfl

omit h in
theorem exists_mapM_ok {ρ α : Type} {read : ρ → Except RowError α} {rows : List ρ}
    (h : ∀ r ∈ rows, ∃ a, read r = .ok a) : ∃ l, rows.mapM read = .ok l := by
  induction rows with
  | nil => exact ⟨[], rfl⟩
  | cons r rest ih =>
    obtain ⟨a, ha⟩ := h r (List.mem_cons_self ..)
    obtain ⟨l, hl⟩ := ih fun x hx => h x (List.mem_cons_of_mem _ hx)
    exact ⟨a :: l, by rw [List.mapM_cons, ha, hl]; rfl⟩

theorem load : ∃ st, d.load = .ok st ∧ st.edges = m.allEdges.map storedEdge := by
  have hask : ∀ {α : Type} (table : String) (answer : α), d.ask table answer = .ok answer :=
    fun table answer => by rw [ask, if_pos h.hasTables]
  obtain ⟨placeholders, hplaceholders⟩ : ∃ l, ((d.nodes.filter fun r =>
      r.kind == SymbolKind.external.name).mergeSort fun a b => compare a.fqn b.fqn != .gt).mapM
        NodeRow.toSymbol = .ok l := by
    refine exists_mapM_ok fun r hr => ?_
    have hmem := (List.mem_filter.1 (List.mem_mergeSort.1 hr)).1
    obtain ⟨s, hs, rfl⟩ := List.mem_map.1 (h.nodes.mem_iff.1 hmem)
    exact ⟨s, NodeRow.toSymbol_ofSymbol (h.lossless_of_mem hs)⟩
  refine ⟨{ placeholders, edges := m.allEdges.map storedEdge }, ?_, rfl⟩
  unfold Database.load nodeRows edgeRows readRows
  rw [h.files, hask, hask, hask]
  simp only [bind, Except.bind, hplaceholders, h.read_edges, Except.mapError]
  rfl

end

end Refines

/-- Any batches of storable nodes and edges, taken from the empty stores by a database with its
tables and by a store in memory: both take them all. The database then reads back the edges by
owner and arrival, with equal scores, and its rows of nodes stand for the nodes by identifier. -/
theorem load_eq_memory (batches : List Batch) (hb : ∀ b ∈ batches, b.Storable) :
    ∃ (d : Database) (m : MemoryStore) (st : StoredState),
      Sink.Takes batches (createTables {}) d ∧ Sink.Takes batches {} m ∧
      d.load = .ok st ∧ st.edges = m.allEdges.map storedEdge ∧
      (∀ e ∈ m.allEdges, ((storedEdge e).confidence == e.confidence) = true) ∧
      (d.nodes.mergeSort fun a b => compare a.id b.id != .gt).mapM NodeRow.toSymbol =
        .ok m.nodes.values := by
  obtain ⟨d, m, hd, hm, h⟩ := Refines.start.takes hb
  obtain ⟨st, hload, hedges⟩ := h.load
  refine ⟨d, m, st, hd, hm, hload, hedges, fun e he => ?_, h.read_nodes⟩
  exact storedNumber_beq (h.storable_of_mem he).nonneg

def movingNode (file : String) : Symbol := { Symbol.ofName "a" "a" .classType with file }

def movingEdge (owner : String) : Edge :=
  { type := .calls, source := .ofFqn "a", target := .ofFqn "a", confidence := 0.5, owner, line := 1
    metadata := (∅ : SortedMap String Json).insert "dynamic" (.bool true) }

/-- A node that moves to another file twice, and edges of two files. -/
def movingBatches : List Batch :=
  [{ nodes := [movingNode "f"], edges := [movingEdge "g", movingEdge "f"] },
    { retract := ["f"], nodes := [movingNode "g", movingNode "h"], edges := [movingEdge "g"] }]

theorem lossless_dynamic :
    Metadata.Lossless ((∅ : SortedMap String Json).insert "dynamic" (.bool true)) := by
  unfold Metadata.Lossless
  cbv

theorem movingNode_lossless (file : String) : (movingNode file).metadata.Lossless := by
  change Metadata.parse? (Metadata.render ∅) = some ∅
  cbv

theorem movingEdge_storable (owner : String) : (movingEdge owner).Storable where
  nonneg := show (0 : Float) ≤ 0.5 by decide
  le_one := show (0.5 : Float) ≤ 1 by decide
  metadata := lossless_dynamic

theorem movingBatches_storable : ∀ b ∈ movingBatches, b.Storable := by
  simp only [movingBatches, List.mem_cons, List.not_mem_nil, or_false]
  rintro b (rfl | rfl)
  · exact ⟨by simp [movingNode_lossless], by simp [movingEdge_storable]⟩
  · exact ⟨by simp [movingNode_lossless], by simp [movingEdge_storable]⟩

theorem load_eq_memory_moving : ∃ (d : Database) (m : MemoryStore) (st : StoredState),
      Sink.Takes movingBatches (createTables {}) d ∧ Sink.Takes movingBatches {} m ∧
      d.load = .ok st ∧ st.edges = m.allEdges.map storedEdge ∧
      (∀ e ∈ m.allEdges, ((storedEdge e).confidence == e.confidence) = true) ∧
      (d.nodes.mergeSort fun a b => compare a.id b.id != .gt).mapM NodeRow.toSymbol =
        .ok m.nodes.values :=
  load_eq_memory movingBatches movingBatches_storable

end Database

end CodeAtlas
