import Mathlib
import CodeAtlas.Project.Flush
import CodeAtlas.Store.Memory
import CodeAtlas.Store.Unreliable
import CodeAtlas.Proofs.SortedMap

/-!
# What a store holds after a batch

Main results:

* `MemoryStore.edgesOf_apply`, `MemoryStore.get?_edges_apply`, `MemoryStore.get?_nodes_apply`: the
  rows after a batch.
* `MemoryStore.writeFrom_eq`, `MemoryStore.writeRetrying_once_or_never`: what comes of offering a
  batch again.
* `Mirror`: stores that hold the rows of the batches that they take.
* `Table.batches_eq`: the batches of a run are groups of files, in order and each with its rows.
* `Table.batches_append`: nothing is written behind the rows of the last file.
-/

namespace CodeAtlas

open SortedMap

variable {s s' : MemoryStore}

namespace MemoryStore

/-- The edges that are held for an owner. -/
def edgesOf (s : MemoryStore) (owner : String) : List Edge := s.edges.getD owner []

/-! ## Batches -/

theorem foldl_retract (l : List String) (s : MemoryStore) :
    (∀ o, (l.foldl retract s).edgesOf o = if o ∈ l then [] else s.edgesOf o) ∧
      ∀ id, (l.foldl retract s).nodes.get? id = (s.nodes.get? id).filter fun n => n.file ∉ l := by
  induction l generalizing s with
  | nil => exact ⟨by simp, fun id => by cases h : s.nodes.get? id <;> simp [h, Option.filter]⟩
  | cons p rest ih =>
    obtain ⟨hedges, hnodes⟩ := ih (s.retract p)
    constructor
    · intro o
      have : (s.retract p).edgesOf o = if o = p then [] else s.edgesOf o := by
        simp only [edgesOf, retract, getD_erase]
      rw [List.foldl_cons, hedges, this]
      by_cases ho : o = p <;> simp [ho]
    · intro id
      rw [List.foldl_cons, hnodes, retract, get?_filter]
      cases s.nodes.get? id with
      | none => rfl
      | some n => by_cases hp : n.file = p <;> simp [Option.filter, hp]

theorem foldl_dropNode (l : List SymbolId) (s : MemoryStore) :
    (l.foldl dropNode s).edges = s.edges ∧
      ∀ id, (l.foldl dropNode s).nodes.get? id = if id ∈ l then none else s.nodes.get? id := by
  induction l generalizing s with
  | nil => exact ⟨rfl, by simp⟩
  | cons x rest ih =>
    obtain ⟨hedges, hnodes⟩ := ih (s.dropNode x)
    refine ⟨hedges, fun id => ?_⟩
    rw [List.foldl_cons, hnodes, dropNode, get?_erase_eq]
    by_cases hx : id = x <;> simp [hx]

theorem foldl_putNode (l : List Symbol) (s : MemoryStore) :
    (l.foldl putNode s).edges = s.edges ∧ ∀ id, (l.foldl putNode s).nodes.get? id =
      (l.reverse.find? fun n => n.id == id).or (s.nodes.get? id) := by
  induction l generalizing s with
  | nil => exact ⟨rfl, by simp⟩
  | cons n rest ih =>
    obtain ⟨hedges, hnodes⟩ := ih (s.putNode n)
    refine ⟨hedges, fun id => ?_⟩
    rw [List.foldl_cons, hnodes, putNode, get?_insert_eq, List.reverse_cons, List.find?_append,
      Option.or_assoc]
    congr 1
    by_cases hn : n.id = id
    · simp [hn]
    · simp [hn, Ne.symm hn]

theorem foldl_putEdge (l : List Edge) (s : MemoryStore) :
    (l.foldl putEdge s).nodes = s.nodes ∧ ∀ o, (l.foldl putEdge s).edgesOf o =
      s.edgesOf o ++ l.filter fun e => e.owner == o := by
  induction l generalizing s with
  | nil => exact ⟨rfl, by simp⟩
  | cons e rest ih =>
    obtain ⟨hnodes, hedges⟩ := ih (s.putEdge e)
    refine ⟨hnodes, fun o => ?_⟩
    have : (s.putEdge e).edgesOf o = if o = e.owner then s.edgesOf o ++ [e] else s.edgesOf o := by
      simp only [edgesOf, putEdge, getD_insert]
      split
      · next ho => rw [ho]
      · rfl
    rw [List.foldl_cons, hedges, this]
    by_cases ho : o = e.owner
    · simp [ho]
    · simp [ho, Ne.symm ho]

/-- The edges of an owner after a batch. -/
theorem edgesOf_apply (s : MemoryStore) (b : Batch) (o : String) : (s.apply b).edgesOf o =
      (if o ∈ b.retract then [] else s.edgesOf o) ++ b.edges.filter fun e => e.owner == o := by
  unfold apply
  have hput := (foldl_putNode b.nodes (b.dropNodes.foldl dropNode (b.retract.foldl retract s))).1
  have hdrop := (foldl_dropNode b.dropNodes (b.retract.foldl retract s)).1
  rw [(foldl_putEdge b.edges _).2]
  congr 1
  rw [edgesOf, hput, hdrop]
  exact (foldl_retract b.retract s).1 o

theorem get?_edges_foldl_retract (l : List String) (s : MemoryStore) (o : String) :
    (l.foldl retract s).edges.get? o = if o ∈ l then none else s.edges.get? o := by
  induction l generalizing s with
  | nil => simp
  | cons p rest ih =>
    rw [List.foldl_cons, ih, retract, get?_erase_eq]
    by_cases ho : o = p <;> simp [ho]

theorem get?_edges_foldl_putEdge (l : List Edge) (s : MemoryStore) (o : String) :
    (l.foldl putEdge s).edges.get? o =
      if l.filter (fun e => e.owner == o) = [] then s.edges.get? o
      else some ((l.foldl putEdge s).edgesOf o) := by
  induction l generalizing s with
  | nil => rfl
  | cons e rest ih =>
    rw [List.foldl_cons, ih]
    by_cases ho : e.owner = o
    · rw [List.filter_cons_of_pos (by simpa using ho), if_neg (List.cons_ne_nil _ _)]
      split
      · next hnil =>
        -- the last edge of the owner
        rw [(foldl_putEdge rest _).2, hnil, List.append_nil, edgesOf, putEdge, ho,
          get?_insert_self, getD_insert, if_pos rfl]
      · rfl
    · rw [List.filter_cons_of_neg (by simpa using ho), putEdge, get?_insert_eq,
        if_neg (Ne.symm ho)]

/-- An owner whose edges a batch retracts has an entry only if the batch writes an edge of it. -/
theorem get?_edges_apply (s : MemoryStore) (b : Batch) (o : String) : (s.apply b).edges.get? o =
      if b.edges.filter (fun e => e.owner == o) = [] then
        if o ∈ b.retract then none else s.edges.get? o
      else some ((s.apply b).edgesOf o) := by
  unfold apply
  have hput := (foldl_putNode b.nodes (b.dropNodes.foldl dropNode (b.retract.foldl retract s))).1
  have hdrop := (foldl_dropNode b.dropNodes (b.retract.foldl retract s)).1
  rw [get?_edges_foldl_putEdge, hput, hdrop, get?_edges_foldl_retract]

/-- The node with an identifier after a batch: the last one written, else the one of before unless
it is dropped or belongs to a retracted file. -/
theorem get?_nodes_apply (s : MemoryStore) (b : Batch) (id : SymbolId) :
    (s.apply b).nodes.get? id = (b.nodes.reverse.find? fun n => n.id == id).or
      (if id ∈ b.dropNodes then none
        else (s.nodes.get? id).filter fun n => n.file ∉ b.retract) := by
  unfold apply
  rw [(foldl_putEdge b.edges _).1, (foldl_putNode b.nodes _).2, (foldl_dropNode b.dropNodes _).2,
    (foldl_retract b.retract s).2]

/-- What every single change of rows keeps is kept by a batch. -/
theorem apply_induct {I : MemoryStore → Prop} (hretract : ∀ s p, I s → I (s.retract p))
    (hdrop : ∀ s id, I s → I (s.dropNode id)) (hnode : ∀ s n, I s → I (s.putNode n))
    (hedge : ∀ s e, I s → I (s.putEdge e)) {s : MemoryStore} (h : I s) (b : Batch) :
    I (s.apply b) := by
  have hfold : ∀ {α : Type} (f : MemoryStore → α → MemoryStore) (_ : ∀ s a, I s → I (f s a))
      (l : List α) {s : MemoryStore}, I s → I (l.foldl f s) := fun f hf l _ h =>
    List.foldlRecOn (motive := I) l f h fun s h a _ => hf s a h
  exact hfold putEdge hedge _ (hfold putNode hnode _ (hfold dropNode hdrop _
    (hfold retract hretract _ h)))

/-- A batch changes nothing but rows. -/
theorem apply_eq (s : MemoryStore) (b : Batch) :
    s.apply b = { s with nodes := (s.apply b).nodes, edges := (s.apply b).edges } := by
  have hrows := apply_induct
    (I := fun s' => s' = { s with nodes := s'.nodes, edges := s'.edges })
  exact hrows (fun s' p h => by rw [h]; rfl) (fun s' id h => by rw [h]; rfl)
    (fun s' n h => by rw [h]; rfl) (fun s' e h => by rw [h]; rfl) rfl b

/-- Stores with the same rows. -/
structure SameRows (s s' : MemoryStore) : Prop where
  nodes : s'.nodes = s.nodes
  edges : s'.edges = s.edges

@[refl] theorem SameRows.refl (s : MemoryStore) : SameRows s s := ⟨rfl, rfl⟩

theorem SameRows.trans {s s' s'' : MemoryStore} (h : SameRows s s') (h' : SameRows s' s'') :
    SameRows s s'' :=
  ⟨h'.nodes.trans h.nodes, h'.edges.trans h.edges⟩

theorem SameRows.edgesOf (h : SameRows s s') (o : String) : s'.edgesOf o = s.edgesOf o := by
  simp only [MemoryStore.edgesOf, h.edges]

theorem SameRows.foldl {α : Type} {f : MemoryStore → α → MemoryStore}
    (hf : ∀ {s s'} a, SameRows s s' → SameRows (f s a) (f s' a)) (l : List α) (h : SameRows s s') :
    SameRows (l.foldl f s) (l.foldl f s') := by
  induction l generalizing s s' with
  | nil => exact h
  | cons a rest ih => exact ih (hf a h)

/-- The rows after a batch depend on the rows before it only. -/
theorem SameRows.apply (h : SameRows s s') (b : Batch) : SameRows (s.apply b) (s'.apply b) := by
  have hretract : SameRows (b.retract.foldl retract s) (b.retract.foldl retract s') :=
    .foldl (fun a h => ⟨by simp only [retract, h.nodes], by simp only [retract, h.edges]⟩) _ h
  have hdrop := SameRows.foldl (f := dropNode)
    (fun a h => ⟨by simp only [dropNode, h.nodes], h.edges⟩) b.dropNodes hretract
  have hput := SameRows.foldl (f := putNode)
    (fun a h => ⟨by simp only [putNode, h.nodes], h.edges⟩) b.nodes hdrop
  exact SameRows.foldl (f := putEdge)
    (fun a h => ⟨h.nodes, by simp only [putEdge, h.edges]⟩) b.edges hput

end MemoryStore

/-! ## Offers -/

namespace Sink

variable {σ : Type} [Sink σ] {b : Batch} {s s' : σ} {e : SinkError} {retries attempt : Nat}

theorem writeFrom_of_taken (h : write b s = (.ok (), s')) :
    writeFrom b retries attempt s = (.ok attempt, s') := by
  unfold writeFrom
  rw [h]

theorem writeFrom_of_refused (h : write b s = (.error e, s')) : writeFrom b retries attempt s =
      if attempt ≤ retries then writeFrom b retries (attempt + 1) s'
      else (.error (.sinkWriteFailure b.retract.length attempt e), s') := by
  rw [writeFrom, h]

end Sink

namespace MemoryStore

theorem write_taken (h : s.rejections = 0) (b : Batch) :
    Sink.write b s = (.ok (), { s.apply b with batches := s.batches + 1 }) := by
  simp only [Sink.write, h]

/-- What comes of offering a batch: each rejection costs one attempt, and a batch that is taken is
applied once. -/
theorem writeFrom_eq (b : Batch) {retries attempt : Nat} (hattempt : attempt ≤ retries + 1)
    (s : MemoryStore) : Sink.writeFrom b retries attempt s =
      if attempt + s.rejections ≤ retries + 1 then
        (.ok (attempt + s.rejections), { s.apply b with batches := s.batches + 1, rejections := 0 })
      else
        (.error (.sinkWriteFailure b.retract.length (retries + 1) (.rejected "injected failure")),
          { s with rejections := s.rejections - (retries + 2 - attempt) }) := by
  induction hn : s.rejections generalizing attempt s with
  | zero =>
    have hkept : (s.apply b).rejections = 0 := by rw [apply_eq, hn]
    rw [if_pos (by omega), Sink.writeFrom_of_taken (write_taken hn b)]
    simp only [hkept, Nat.add_zero]
  | succ n ih =>
    have hrefused : Sink.write b s =
        (.error (.rejected "injected failure"), { s with rejections := n }) := by
      simp only [Sink.write, hn]
    rw [Sink.writeFrom_of_refused hrefused]
    by_cases hle : attempt ≤ retries
    · have hsame : SameRows s { s with rejections := n } := ⟨rfl, rfl⟩
      have hrows := hsame.apply b
      have hused : n - (retries + 2 - (attempt + 1)) = n + 1 - (retries + 2 - attempt) := by omega
      rw [if_pos hle, ih (by omega) _ rfl, apply_eq _ b, hrows.nodes, hrows.edges, apply_eq s b]
      simp only [hused, Nat.add_assoc, Nat.add_comm 1]
    · obtain rfl : attempt = retries + 1 := by omega
      have hused : n + 1 - (retries + 2 - (retries + 1)) = n := by omega
      rw [if_neg hle, if_neg (by omega), hused]

theorem writeRetrying_eq (b : Batch) (retries : Nat) (s : MemoryStore) :
    Sink.writeRetrying b retries s =
      if s.rejections ≤ retries then
        (.ok (s.rejections + 1), { s.apply b with batches := s.batches + 1, rejections := 0 })
      else
        (.error (.sinkWriteFailure b.retract.length (retries + 1) (.rejected "injected failure")),
          { s with rejections := s.rejections - (retries + 1) }) := by
  rw [Sink.writeRetrying, writeFrom_eq b (by omega) s]
  simp only [Nat.add_comm 1, Nat.add_le_add_iff_right, Nat.reduceSubDiff]

/-- A batch that is offered again: if there are no more rejections than repeats, it is taken once,
and the rejections are used up. Else it is given up after the last repeat; the rows stay as they
are, and every attempt has used up one rejection. -/
theorem writeRetrying_once_or_never (s : MemoryStore) (b : Batch) (retries : Nat) :
    (s.rejections ≤ retries → Sink.writeRetrying b retries s =
      (.ok (s.rejections + 1), { s.apply b with batches := s.batches + 1, rejections := 0 })) ∧
    (retries < s.rejections → Sink.writeRetrying b retries s =
      (.error (.sinkWriteFailure b.retract.length (retries + 1) (.rejected "injected failure")),
        { s with rejections := s.rejections - (retries + 1) })) := by
  rw [writeRetrying_eq]
  exact ⟨fun h => if_pos h, fun h => if_neg (Nat.not_le.2 h)⟩

/-- Offering a batch saves no file. -/
theorem writeRetrying_savedFiles (b : Batch) (retries : Nat) (s : MemoryStore) :
    (Sink.writeRetrying b retries s).2.savedFiles = s.savedFiles := by
  rw [writeRetrying_eq, apply_eq]
  split <;> rfl

/-- A batch that is taken shows that there are no rejections left. -/
theorem rejections_of_writeRetrying {b : Batch} {retries n : Nat}
    (h : Sink.writeRetrying b retries s = (.ok n, s')) : s'.rejections = 0 := by
  rw [writeRetrying_eq] at h
  split at h <;> cases h
  rfl

/-- A store without rejections takes a batch at once, and has none afterwards. -/
theorem writeRetrying_ok (h : s.rejections = 0) (b : Batch) (retries : Nat) :
    ∃ s', Sink.writeRetrying b retries s = (.ok 1, s') ∧ s'.rejections = 0 :=
  ⟨_, Sink.writeFrom_of_taken (write_taken h b), by rw [apply_eq]; exact h⟩

end MemoryStore

/-! ## Stores that hold what they take -/

/-- A store that holds rows: a batch that it takes is applied to them, and nothing else changes
them. -/
class Mirror (σ : Type) [Sink σ] where
  HasRows : σ → MemoryStore → Prop
  rows_of_taken : ∀ {b : Batch} {s s' : σ} {m : MemoryStore}, Sink.write b s = (.ok (), s') →
    HasRows s m → HasRows s' (m.apply b)
  rows_of_refused : ∀ {b : Batch} {s s' : σ} {e : SinkError} {m : MemoryStore},
    Sink.write b s = (.error e, s') → HasRows s m → HasRows s' m
  rows_save : ∀ (records : List FileRecord) (removed : List String) {s : σ} {m : MemoryStore},
    HasRows s m → HasRows (Sink.save records removed s).2 m

export Mirror (HasRows)

instance : Mirror MemoryStore where
  HasRows s m := m.SameRows s
  rows_of_taken {b s s' m} h hm := by
    change (match s.rejections with | n + 1 => _ | 0 => _) = _ at h
    split at h
    · cases h
    · cases h
      exact ⟨(hm.apply b).nodes, (hm.apply b).edges⟩
  rows_of_refused {b s s' e m} h hm := by
    change (match s.rejections with | n + 1 => _ | 0 => _) = _ at h
    split at h
    · cases h
      exact ⟨hm.nodes, hm.edges⟩
    · cases h
  rows_save records removed s m hm := ⟨hm.nodes, hm.edges⟩

theorem MemoryStore.hasRows_iff {s m : MemoryStore} : HasRows s m ↔ m.SameRows s := .rfl

instance {σ : Type} [Sink σ] [Mirror σ] : Mirror (Unreliable σ) where
  HasRows s m := HasRows s.store m
  rows_of_taken {b s s' m} h hm := by
    change (match s.rejections with | n + 1 => _ | 0 => _) = _ at h
    split at h
    · cases h
    · obtain ⟨hr, rfl⟩ := Prod.mk.inj h
      exact Mirror.rows_of_taken (Prod.ext hr rfl) hm
  rows_of_refused {b s s' e m} h hm := by
    change (match s.rejections with | n + 1 => _ | 0 => _) = _ at h
    split at h
    · cases h
      exact hm
    · obtain ⟨hr, rfl⟩ := Prod.mk.inj h
      exact Mirror.rows_of_refused (Prod.ext hr rfl) hm
  rows_save records removed s m hm := Mirror.rows_save records removed hm

section Retrying

variable {σ : Type} [Sink σ] [Mirror σ]

theorem Mirror.rows_writeFrom {b : Batch} {retries attempt : Nat} {s s' : σ} {m : MemoryStore}
    {result : Except AtlasError Nat} (h : Sink.writeFrom b retries attempt s = (result, s'))
    (hm : HasRows s m) : HasRows s' (if result.isOk then m.apply b else m) := by
  fun_induction Sink.writeFrom b retries attempt s with
  | case1 attempt s s₁ hw =>
    cases h
    exact rows_of_taken hw hm
  | case2 attempt s e s₁ hw hle ih => exact ih h (rows_of_refused hw hm)
  | case3 attempt s e s₁ hw hle =>
    cases h
    exact rows_of_refused hw hm

/-- A batch that is offered again until it is taken or given up. -/
theorem Mirror.rows_writeRetrying {b : Batch} {retries : Nat} {s s' : σ} {m : MemoryStore}
    {result : Except AtlasError Nat} (h : Sink.writeRetrying b retries s = (result, s'))
    (hm : HasRows s m) : HasRows s' (if result.isOk then m.apply b else m) :=
  rows_writeFrom h hm

end Retrying

/-! ## Groups of files -/

/-- What goes to the store together: removed and finished files, and nodes that are gone. -/
structure Group where
  removed : List String := []
  files : List String := []
  drops : List SymbolId := []

namespace Group

/-- The batch of a group. -/
def batch (t : Table) (g : Group) : Batch where
  retract := g.removed ++ g.files
  dropNodes := g.drops
  nodes := g.files.flatMap fun p => (t.fileRows p).1
  edges := g.files.flatMap fun p => (t.fileRows p).2

/-- Groups that have taken in some files; the last one is still being filled. -/
structure Packs (t : Table) (removed files : List String) (gs : List Group) (g : Group)
    (p : Packing) : Prop where
  full : p.full = gs.map (batch t)
  current : p.current = g.batch t
  removed_eq : gs.flatMap (·.removed) ++ g.removed = removed
  files_eq : gs.flatMap (·.files) ++ g.files = files
  drops : gs.flatMap (·.drops) = [] ∧ g.drops = []

section Packing

variable {t : Table} {removed files : List String} {gs : List Group} {g : Group} {p : Packing}

/-- A group with one more file. -/
def addFile (g : Group) (path : String) : Group := { g with files := g.files ++ [path] }

theorem Packs.addFile_eq (h : Packs t removed files gs g p) (limit : Nat) (path : String) :
    Packing.addFile t limit p path =
      if limit ≤ ((g.addFile path).batch t).size then
        { full := p.full ++ [(g.addFile path).batch t] }
      else { p with current := (g.addFile path).batch t } := by
  have hbatch : { p.current with
      retract := p.current.retract ++ [path]
      nodes := p.current.nodes ++ (t.fileRows path).1
      edges := p.current.edges ++ (t.fileRows path).2 } = (g.addFile path).batch t := by
    rw [h.current]
    simp [batch, addFile]
  unfold Packing.addFile
  simp only [hbatch]

theorem Packs.addFile (h : Packs t removed files gs g p) (limit : Nat) (path : String) :
    ∃ gs' g', Packs t removed (files ++ [path]) gs' g' (Packing.addFile t limit p path) := by
  rw [h.addFile_eq]
  split
  · refine ⟨gs ++ [g.addFile path], {}, by simp [h.full], rfl, ?_, ?_, ?_, rfl⟩
    · simp [Group.addFile, ← h.removed_eq]
    · simp [Group.addFile, ← h.files_eq]
    · simp [Group.addFile, h.drops.1, h.drops.2]
  · exact ⟨gs, g.addFile path, h.full, rfl, h.removed_eq, by simp [Group.addFile, ← h.files_eq],
      h.drops⟩

theorem Packs.foldl (h : Packs t removed files gs g p) (limit : Nat) (l : List String) :
    ∃ gs' g', Packs t removed (files ++ l) gs' g' (l.foldl (Packing.addFile t limit) p) := by
  induction l generalizing files gs g p with
  | nil => exact ⟨gs, g, by simpa using h⟩
  | cons path rest ih =>
    obtain ⟨gs', g', h'⟩ := h.addFile limit path
    obtain ⟨gs'', g'', h''⟩ := ih h'
    exact ⟨gs'', g'', by simpa using h''⟩

theorem Packs.start (t : Table) (removed finished : List String) (limit : Nat) :
    ∃ gs g, Packs t removed finished gs g
      (finished.foldl (Packing.addFile t limit) { current := { retract := removed } }) := by
  have hstart : Packs t removed [] [] { removed } { current := { retract := removed } } :=
    ⟨rfl, by simp [batch], by simp, by simp, by simp⟩
  exact hstart.foldl limit finished

/-- The last batch drops nodes, and is left out if there is nothing in it. -/
theorem finish_eq (hcurrent : p.current = g.batch t) (drops : List SymbolId) :
    p.finish drops = if (batch t { g with drops }).isEmpty then p.full
      else p.full ++ [batch t { g with drops }] := by
  have hlast : { p.current with dropNodes := drops } = batch t { g with drops } := by
    rw [hcurrent]
    rfl
  unfold Packing.finish
  simp only [hlast]

end Packing

end Group

/-- The batches of a run: every removed and every finished file and every dropped node stands in
one of them, in order. -/
theorem Table.batches_eq (t : Table) (limit : Nat) (removed finished : List String)
    (drops : List SymbolId) : ∃ gs : List Group,
      t.batches limit removed finished drops = gs.map (Group.batch t) ∧
        gs.flatMap (·.removed) = removed ∧ gs.flatMap (·.files) = finished ∧
        gs.flatMap (·.drops) = drops := by
  obtain ⟨gs, g, h⟩ := Group.Packs.start t removed finished limit
  unfold Table.batches
  rw [Group.finish_eq h.current, h.full]
  split
  · next hempty =>
    simp only [Batch.isEmpty, Bool.and_eq_true, List.isEmpty_iff] at hempty
    obtain ⟨⟨⟨hretract, hdrops⟩, -⟩, -⟩ := hempty
    change drops = [] at hdrops
    obtain ⟨hrem, hgf⟩ := List.append_eq_nil_iff.1 hretract
    refine ⟨gs, rfl, ?_, ?_, ?_⟩
    · rw [← h.removed_eq, hrem, List.append_nil]
    · rw [← h.files_eq, hgf, List.append_nil]
    · rw [h.drops.1, hdrops]
  · refine ⟨gs ++ [{ g with drops }], by simp, ?_, ?_, ?_⟩
    · simp [← h.removed_eq]
    · simp [← h.files_eq]
    · simp [h.drops.1]

/-- Where the last finished file stands: in the last batch, or with nothing but dropped nodes behind
it. -/
theorem Table.batches_append (t : Table) (limit : Nat) (removed finished : List String)
    (path : String) (drops : List SymbolId) : ∃ (gs : List Group) (g : Group),
      path ∈ g.files ∧ g.files.Sublist (finished ++ [path]) ∧
        (t.batches limit removed (finished ++ [path]) drops = (gs ++ [g]).map (Group.batch t) ∧
            g.drops = drops ∨
          t.batches limit removed (finished ++ [path]) drops =
            (gs ++ [g, { drops }]).map (Group.batch t)) := by
  obtain ⟨gs, g, h⟩ := Group.Packs.start t removed finished limit
  have hmem : path ∈ (g.addFile path).files := List.mem_append_right _ (List.mem_singleton_self _)
  have hsublist : (g.addFile path).files.Sublist (finished ++ [path]) := by
    rw [← h.files_eq]
    exact (List.sublist_append_right ..).append_right [path]
  unfold Table.batches
  rw [List.foldl_append, List.foldl_cons, List.foldl_nil, h.addFile_eq]
  split
  · rw [Group.finish_eq (t := t) (g := {}) rfl, h.full]
    refine ⟨gs, g.addFile path, hmem, hsublist, ?_⟩
    split
    · next hempty =>
      refine .inl ⟨by simp, h.drops.2.trans ?_⟩
      simp only [Batch.isEmpty, Bool.and_eq_true, List.isEmpty_iff] at hempty
      exact hempty.1.1.2.symm
    · exact .inr (by simp)
  · rw [Group.finish_eq (g := g.addFile path) rfl, h.full, if_neg]
    · exact ⟨gs, { g.addFile path with drops }, hmem, hsublist, .inl ⟨by simp, rfl⟩⟩
    · simp [Batch.isEmpty, Group.batch, Group.addFile]

end CodeAtlas
