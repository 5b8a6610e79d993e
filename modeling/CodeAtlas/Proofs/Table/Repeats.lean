import Mathlib
import CodeAtlas.Proofs.Equality
import CodeAtlas.Proofs.Sorting
import CodeAtlas.Proofs.Table.Cascades

/-!
# The edges of an owner, in order and without repeats

The edges of an owner are kept in the order of their places: line, type, source and target. Edges of
one place may differ in score and metadata, so a repeat need not be the neighbour of what it
repeats. A list that replaces the edges of an owner loses its repeats among neighbours only; edges
that are appended are compared with all edges that are there.

Main results:

* `Edge.place`, `Edge.filter_place_sort`: sorting keeps the edges of each place as they are.
* `Reworks`, `reworks_apply`: the four things that an operation can do to the edges of an owner.
* `Reworks.neat`, `Reworks.distinct`: what each of them keeps.
* `edges_in_order_after`: in every reachable table the edges of an owner are in order, and no two
  neighbours are equal; if no list that replaced them had equal edges on both sides of another one
  of their place, no two are equal at all.
* `repeat_kept`: without that condition equal edges do stay.
-/

namespace CodeAtlas

open SortedMap

/-! ## Places -/

namespace Edge

/-- What the order of edges looks at. -/
structure Place where
  line : UInt32
  rank : Nat
  source : SymbolId
  target : SymbolId
  deriving DecidableEq

instance : Ord Place := ⟨compareLex (compareOn Place.line) <| compareLex (compareOn Place.rank) <|
  compareLex (compareOn Place.source) (compareOn Place.target)⟩

instance : Std.TransOrd Place := inferInstanceAs (Std.TransCmp (compareLex (compareOn Place.line) <|
  compareLex (compareOn Place.rank) <| compareLex (compareOn Place.source) (compareOn Place.target)))

instance : Std.LawfulEqOrd Place where
  eq_of_compare {a b} h := by
    change compareLex _ _ a b = .eq at h
    simp only [compareLex, compareOn, Ordering.then_eq_eq, Std.compare_eq_iff_eq] at h
    cases a
    cases b
    simp_all

/-- The place of an edge among those of its owner. -/
def place (e : Edge) : Place := ⟨e.line, e.type.rank, e.source, e.target⟩

theorem atMost_eq : atMost = keyAtMost place := rfl

theorem place_eq_of_beq {a b : Edge} (h : (a == b) = true) : a.place = b.place := by
  obtain ⟨htype, hsource, htarget, -, -, hline, -⟩ := beq_iff.1 h
  simp only [place, htype, hsource, htarget, hline]

/-- The edge that stands between two edges of a place has that place. -/
theorem place_eq_of_between {a b c : Edge} (hab : a.atMost b = true) (hbc : b.atMost c = true)
    (hac : a.place = c.place) : a.place = b.place := by
  rw [atMost_eq] at hab hbc
  refine key_eq_of_keyAtMost hab ?_
  rw [keyAtMost, hac]
  exact hbc

/-- The edges are in the order of their places. -/
def Sorted (l : List Edge) : Prop := l.Pairwise fun a b => a.atMost b = true

theorem sorted_sort (l : List Edge) : Sorted (sort l) := mergeSort_key_sorted place l

theorem filter_place_sort (l : List Edge) (k : Place) :
    (sort l).filter (fun e => e.place = k) = l.filter fun e => e.place = k :=
  filter_mergeSort_key place l k

/-- Two edges are not equal. -/
def Differ (a b : Edge) : Prop := (a == b) = false

/-- No two edges of a list are equal. -/
def Distinct (l : List Edge) : Prop := l.Pairwise Differ

/-- The edges are in order, and no two neighbours are equal. -/
structure Neat (l : List Edge) : Prop where
  sorted : Sorted l
  neighbours : l.IsChain Differ

/-- Of three edges of one place, in the order of the list, the first and the last are equal only if
the second is equal to them. -/
def Unsplit (l : List Edge) : Prop :=
  ∀ a b c, [a, b, c].Sublist l → (a == c) = true → a.place = b.place → (a == b) = true

variable {l l' added : List Edge}

/-! ## Neighbours and places -/

/-- The neighbours in a sorted list are the neighbours among the edges of each place. -/
theorem Neat.group (h : Neat l) (k : Place) : (l.filter fun e => e.place = k).IsChain Differ := by
  obtain ⟨hs, hc⟩ := h
  induction l with
  | nil => exact .nil
  | cons a rest ih =>
    obtain ⟨ha, hrest⟩ := List.pairwise_cons.1 hs
    by_cases hk : a.place = k
    · rw [List.filter_cons_of_pos (by simpa using hk)]
      cases rest with
      | nil => exact .singleton a
      | cons b rest =>
        obtain ⟨hab, hc⟩ := List.isChain_cons_cons.1 hc
        by_cases hb : b.place = k
        · have := ih hrest hc
          rw [List.filter_cons_of_pos (by simpa using hb)] at this ⊢
          exact List.isChain_cons_cons.2 ⟨hab, this⟩
        · -- behind another place the place does not come back
          have hnil : (b :: rest).filter (fun e => e.place = k) = [] := by
            refine List.filter_eq_nil_iff.2 fun c hc hck => ?_
            have hck : c.place = k := by simpa using hck
            rcases List.mem_cons.1 hc with rfl | hc
            · exact hb hck
            · have hbc := (List.pairwise_cons.1 hrest).1 c hc
              have := place_eq_of_between (ha b (List.mem_cons_self ..)) hbc (hk.trans hck.symm)
              exact hb (this.symm.trans hk)
          rw [hnil]
          exact .singleton a
    · rw [List.filter_cons_of_neg (by simpa using hk)]
      exact ih hrest hc.tail

theorem isChain_of_groups (h : ∀ k, (l.filter fun e => e.place = k).IsChain Differ) :
    l.IsChain Differ := by
  induction l with
  | nil => exact .nil
  | cons a rest ih =>
    have htail : rest.IsChain Differ := by
      refine ih fun k => ?_
      have hk := h k
      rw [List.filter_cons] at hk
      split at hk
      · exact hk.tail
      · exact hk
    cases rest with
    | nil => exact .singleton a
    | cons b rest =>
      refine List.isChain_cons_cons.2 ⟨Bool.eq_false_iff.2 fun hab => ?_, htail⟩
      have hk := h a.place
      rw [List.filter_cons_of_pos (by simp),
        List.filter_cons_of_pos (by simp [place_eq_of_beq hab])] at hk
      exact Bool.eq_false_iff.1 (List.isChain_cons_cons.1 hk).1 hab

/-- In an unsplit list, equal edges of one place are neighbours, so there are none. -/
theorem Neat.distinct (h : Neat l) (hu : Unsplit l) : Distinct l := by
  obtain ⟨hs, hc⟩ := h
  induction l with
  | nil => exact .nil
  | cons a rest ih =>
    obtain ⟨ha, hrest⟩ := List.pairwise_cons.1 hs
    have hu' : Unsplit rest := fun x y z hsub => hu x y z (hsub.cons a)
    refine List.pairwise_cons.2 ⟨fun c hmem => Bool.eq_false_iff.2 fun hac => ?_,
      ih hu' hrest hc.tail⟩
    cases rest with
    | nil => cases hmem
    | cons b rest =>
      have hab := (List.isChain_cons_cons.1 hc).1
      rcases List.mem_cons.1 hmem with rfl | hmem
      · exact Bool.eq_false_iff.1 hab hac
      · have hplace := place_eq_of_between (ha b (List.mem_cons_self ..))
          ((List.pairwise_cons.1 hrest).1 c hmem) (place_eq_of_beq hac)
        have hsub : [a, b, c].Sublist (a :: b :: rest) :=
          ((List.singleton_sublist.2 hmem).cons_cons b).cons_cons a
        exact Bool.eq_false_iff.1 hab (hu a b c hsub hac hplace)

theorem Unsplit.sublist (h : Unsplit l) (hsub : l'.Sublist l) : Unsplit l' :=
  fun a b c habc => h a b c (habc.trans hsub)

/-- Sorting moves no edge past another one of its place. -/
theorem Unsplit.sort (h : Unsplit l) : Unsplit (sort l) := by
  intro a b c hsub hac hab
  refine h a b c ?_ hac hab
  have hgroup : [a, b, c].filter (fun e => e.place = a.place) = [a, b, c] := by
    simp [← hab, ← place_eq_of_beq hac]
  have := hsub.filter fun e => e.place = a.place
  rw [hgroup, filter_place_sort] at this
  exact this.trans List.filter_sublist

/-! ## Selecting and appending -/

theorem Differ.symm {a b : Edge} (h : Differ a b) : Differ b a :=
  Bool.eq_false_iff.2 fun hba => Bool.eq_false_iff.1 h ((PartialEquivAt.edge b).symm hba)

/-- Whether an edge is selected depends on its place, so each place is kept whole or not at all. -/
theorem Neat.select (h : Neat l) (p : SymbolId → Bool) : Neat (l.filter fun e => p e.target) where
  sorted := h.sorted.sublist List.filter_sublist
  neighbours := by
    refine isChain_of_groups fun k => ?_
    have htarget : ∀ e ∈ l.filter fun e => e.place = k, e.target = k.target := fun e he => by
      have hk : e.place = k := by simpa using (List.mem_filter.1 he).2
      rw [← hk]
      rfl
    rw [List.filter_comm]
    by_cases hp : p k.target = true
    · rw [List.filter_eq_self.2 fun e he => by rw [htarget e he, hp]]
      exact h.group k
    · rw [List.filter_eq_nil_iff.2 fun e he => by rwa [htarget e he]]
      exact .nil

/-- The edges `added` differ from one another and from those of `l`. -/
structure Fresh (l added : List Edge) : Prop where
  distinct : Distinct added
  differ : ∀ a ∈ l, ∀ b ∈ added, Differ a b

theorem Neat.append (h : Neat l) (hf : Fresh l added) : Neat (Edge.sort (l ++ added)) where
  sorted := sorted_sort _
  neighbours := by
    refine isChain_of_groups fun k => ?_
    rw [filter_place_sort, List.filter_append, List.isChain_append]
    refine ⟨h.group k, (hf.distinct.sublist List.filter_sublist).isChain, fun a ha b hb => ?_⟩
    exact hf.differ a (List.mem_filter.1 (List.mem_of_getLast? ha)).1
      b (List.mem_filter.1 (List.mem_of_head? hb)).1

theorem Distinct.append (h : Distinct l) (hf : Fresh l added) :
    Distinct (Edge.sort (l ++ added)) := by
  have hall : Distinct (l ++ added) := List.pairwise_append.2 ⟨h, hf.distinct, hf.differ⟩
  exact hall.perm (List.mergeSort_perm ..).symm Differ.symm

end Edge

namespace Table

open Edge

variable {l : List Edge}

/-! ## Merging equal neighbours -/

theorem dropRepeats_sublist (l : List Edge) : (dropRepeats l).Sublist l := by
  induction l with
  | nil => exact .slnil
  | cons e rest ih =>
    rw [dropRepeats]
    split
    · next h => simp
    · next e' rest' h =>
      rw [h] at ih
      split
      · exact ((List.sublist_cons_self e' rest').trans ih).cons_cons e
      · exact ih.cons_cons e

theorem isChain_dropRepeats (l : List Edge) : (dropRepeats l).IsChain Differ := by
  induction l with
  | nil => exact .nil
  | cons e rest ih =>
    rw [dropRepeats]
    split
    · exact .singleton e
    · next e' rest' h =>
      rw [h] at ih
      split
      · next heq =>
        -- what follows the second of two equal edges differs from the first one, too
        cases rest' with
        | nil => exact .singleton e
        | cons x rest' =>
          obtain ⟨hx, hrest⟩ := List.isChain_cons_cons.1 ih
          refine List.isChain_cons_cons.2 ⟨Bool.eq_false_iff.2 fun hex => ?_, hrest⟩
          have hsymm := (PartialEquivAt.edge e).symm heq
          exact Bool.eq_false_iff.1 hx ((PartialEquivAt.edge e').trans hsymm hex)
      · next hne => exact List.isChain_cons_cons.2 ⟨by simpa [Differ] using hne, ih⟩

theorem neat_dropRepeats_sort (l : List Edge) : Neat (dropRepeats (Edge.sort l)) where
  sorted := (sorted_sort l).sublist (dropRepeats_sublist _)
  neighbours := isChain_dropRepeats _

/-! ## What an operation does to the edges of an owner -/

/-- What an operation does to the edges of an owner. -/
inductive Reworks (owner : String) (l : List Edge) : Operation → List Edge → Prop
  | keep {op : Operation} : Reworks owner l op l
  | select {op : Operation} (p : SymbolId → Bool) :
      Reworks owner l op (l.filter fun e => p e.target)
  | replace (edges : List Edge) :
      Reworks owner l (.replace owner edges) (dropRepeats (Edge.sort edges))
  | append {op : Operation} {added : List Edge} (fresh : Fresh l added) :
      Reworks owner l op (Edge.sort (l ++ added))

theorem foldl_appendEdge_fresh (owner : String) (edges : List Edge) (t : Table) :
    ∃ added, Fresh (t.edgesOf owner) added ∧
      (edges.foldl (appendEdge owner) t).edgesOf owner = t.edgesOf owner ++ added := by
  induction edges generalizing t with
  | nil => exact ⟨[], ⟨.nil, fun _ _ _ hb => absurd hb List.not_mem_nil⟩, (List.append_nil _).symm⟩
  | cons e rest ih =>
    obtain ⟨added, hfresh, hedges⟩ := ih (appendEdge owner t e)
    rw [List.foldl_cons, hedges]
    by_cases hany : (t.edgesOf owner).any (· == e) = true
    · have hsame : appendEdge owner t e = t := if_pos hany
      rw [hsame] at hfresh ⊢
      exact ⟨added, hfresh, rfl⟩
    · have hnew : (appendEdge owner t e).edgesOf owner = t.edgesOf owner ++ [e] := by
        unfold appendEdge
        rw [if_neg hany]
        exact (edgesOf_setEdges t owner owner _).trans (if_pos rfl)
      rw [hnew] at hfresh ⊢
      refine ⟨e :: added, ⟨?_, fun a ha b hb => ?_⟩, List.append_assoc ..⟩
      · exact List.pairwise_cons.2 ⟨fun b hb => hfresh.differ e (by simp) b hb, hfresh.distinct⟩
      · rcases List.mem_cons.1 hb with rfl | hb
        · exact Bool.eq_false_iff.2 fun hab => hany (List.any_eq_true.2 ⟨a, ha, hab⟩)
        · exact hfresh.differ a (List.mem_append_left _ ha) b hb

theorem appendEdges_reworks {t t' : Table} {owner : String} {edges : List Edge}
    (h : t.appendEdges owner edges = .ok t') (o : String) :
    Reworks o (t.edgesOf o) (.append owner edges) (t'.edgesOf o) := by
  unfold appendEdges at h
  cases hadm : t.admitEdges owner edges with
  | error e =>
    rw [hadm] at h
    cases h
  | ok admitted =>
    rw [hadm] at h
    change (if admitted.isEmpty = true then _ else _) = _ at h
    split at h
    · obtain rfl := Except.ok.inj h
      exact .keep
    · obtain rfl := Except.ok.inj h
      rw [edgesOf_setEdges]
      split
      · next ho =>
        subst ho
        obtain ⟨added, hfresh, hedges⟩ := foldl_appendEdge_fresh o admitted t
        rw [hedges]
        exact .append hfresh
      · next ho =>
        obtain ⟨added, hr, -⟩ := foldl_appendEdge_rewires owner admitted t
        rw [hr.edgesOf, if_neg ho]
        exact .keep

theorem reworks_of_same {t t' : Table} (h : SameEdges t t') (o : String) (op : Operation) :
    Reworks o (t.edgesOf o) op (t'.edgesOf o) := by
  rw [h.edgesOf]
  exact .keep

/-- An operation keeps the edges of an owner, selects some of them by their targets, replaces them,
or appends some. -/
theorem reworks_apply (ops : List Operation) (op : Operation) (o : String) :
    Reworks o ((after ops).edgesOf o) op (((after ops).apply op).edgesOf o) := by
  have hintact := intact_after ops
  have hproper := proper_after ops
  cases op with
  | commit file symbols =>
    change Reworks o _ _ (((after ops).commitFile file symbols).2.edgesOf o)
    cases hc : (after ops).commitFile file symbols with
    | mk answer t' =>
      cases answer with
      | error e =>
        exact reworks_of_same (commitFile_eq_error hc).edges o _
      | ok summary =>
        change Reworks o _ _ (t'.edgesOf o)
        rw [(commitFile_reports hintact hproper hc).1]
        exact .select fun id => !summary.removed.contains id
  | remove file =>
    change Reworks o _ _ (((after ops).removeFile file).2.edgesOf o)
    obtain ⟨-, hedges, -⟩ := removeFile_reports hintact hproper (homed_after ops)
      (Prod.mk.eta (p := (after ops).removeFile file)).symm
    rw [hedges]
    split
    · exact List.filter_false _ ▸ .select fun _ => false
    · exact .select fun id => !((after ops).removeFile file).1.removed.contains id
  | external fqn => exact reworks_of_same (ensurePlaceholder_taught _ _).edges o _
  | placeholder template => exact reworks_of_same (ensurePlaceholder_taught _ template).edges o _
  | replace owner edges =>
    change Reworks o _ _ (((after ops).replaceEdges owner edges).toOption.getD _ |>.edgesOf o)
    cases hr : (after ops).replaceEdges owner edges with
    | error e => exact .keep
    | ok t' =>
      change Reworks o _ _ (t'.edgesOf o)
      rw [(replaceEdges_rewires hr).2.edgesOf]
      split
      · next ho =>
        rw [ho]
        exact .replace edges
      · exact .keep
  | append owner edges =>
    change Reworks o _ _ (((after ops).appendEdges owner edges).toOption.getD _ |>.edgesOf o)
    cases hr : (after ops).appendEdges owner edges with
    | error e => exact .keep
    | ok t' => exact appendEdges_reworks hr o
  | clear owner =>
    change Reworks o _ _ (((after ops).clearEdges owner).edgesOf o)
    rw [(clearEdges_rewires _ owner).edgesOf]
    split
    · exact List.filter_false _ ▸ .select fun _ => false
    · exact .keep
  | prune => exact reworks_of_same (pruneExternals_spec fun hs => (hintact.anchored.symbol hs).1).1 o _
  | report d => exact reworks_of_same (SameGraph.record _ d).edges o _
  | takeReports => exact reworks_of_same (SameGraph.setDiagnostics _ []).edges o _

/-! ## What an operation keeps -/

variable {l' : List Edge} {owner : String} {op : Operation}

theorem Reworks.neat (hr : Reworks owner l op l') (h : Neat l) : Neat l' := by
  cases hr with
  | keep => exact h
  | select p => exact h.select p
  | replace edges => exact neat_dropRepeats_sort edges
  | append fresh => exact h.append fresh

theorem Reworks.distinct (hr : Reworks owner l op l') (h : Distinct l)
    (hu : ∀ edges, op = .replace owner edges → Unsplit edges) : Distinct l' := by
  cases hr with
  | keep => exact h
  | select p => exact h.sublist List.filter_sublist
  | replace edges =>
    exact (neat_dropRepeats_sort edges).distinct
      ((hu edges rfl).sort.sublist (dropRepeats_sublist _))
  | append fresh => exact h.append fresh

/-! ## Reachable tables -/

/-- In every reachable table the edges of an owner are in order and no two neighbours are equal. If
the lists that replaced them never had equal edges on both sides of another one of their place, no
two edges of the owner are equal at all. -/
theorem edges_in_order_after (ops : List Operation) (owner : String) :
    ((after ops).edgesOf owner).Pairwise (fun a b => a.atMost b = true) ∧
    ((after ops).edgesOf owner).IsChain (fun a b => (a == b) = false) ∧
    ((∀ edges, .replace owner edges ∈ ops → Unsplit edges) →
      ((after ops).edgesOf owner).Pairwise fun a b => (a == b) = false) := by
  have hneat : Neat ((after ops).edgesOf owner) := by
    induction ops using List.reverseRecOn with
    | nil => exact ⟨.nil, .nil⟩
    | append_singleton ops op ih =>
      rw [after_append]
      exact (reworks_apply ops op owner).neat ih
  refine ⟨hneat.sorted, hneat.neighbours, fun hu => ?_⟩
  clear hneat
  change Distinct ((after ops).edgesOf owner)
  induction ops using List.reverseRecOn with
  | nil => exact .nil
  | append_singleton ops op ih =>
    rw [after_append]
    have hbefore := ih fun edges he => hu edges (List.mem_append_left _ he)
    refine (reworks_apply ops op owner).distinct hbefore fun edges hop => hu edges ?_
    simp [hop]

/-! ## Calls on one line -/

/-- A call on line 1 of a file, through a receiver of unknown type. -/
def guessedCall (receiver : String) : Edge :=
  (Edge.ofScore .calls (.ofFqn "Shop.open") (.ofFqn "run") Confidence.propagationMiss "Shop.java"
    1).withMeta "receiver" (.string receiver)

/-- Some calls become the edges of the file. -/
def calling (calls : List Edge) : List Operation :=
  [.external "run", .replace "Shop.java" calls]

theorem guessedCall_beq (r r' : String) : (guessedCall r == guessedCall r') = (r == r') := by
  have hscore : (Edge.clamp Confidence.propagationMiss == Edge.clamp Confidence.propagationMiss) =
      true := by decide
  have hmeta : ((guessedCall r).metadata == (guessedCall r').metadata) = (r == r') := by
    change ((r == r') && true) = _
    exact Bool.and_true _
  rw [Bool.eq_iff_iff, Edge.beq_iff, hmeta]
  exact ⟨fun h => h.2.2.2.2.2.2, fun h => ⟨rfl, rfl, rfl, hscore, rfl, rfl, h⟩⟩

theorem edgesOf_calling (receivers : List String) :
    (after (calling (receivers.map guessedCall))).edgesOf "Shop.java" =
      dropRepeats (receivers.map guessedCall) := by
  set t := after [.external "run"]
  have hknown : t.ids.contains (.ofFqn "run") = true := by
    change (SortedMap.insert ∅ (SymbolId.ofFqn "run") "run").contains (.ofFqn "run") = true
    simp [contains_insert]
  have hadm : t.Admissible "Shop.java" (receivers.map guessedCall) := by
    intro e he
    obtain ⟨r, -, rfl⟩ := List.mem_map.1 he
    exact ⟨rfl, hknown⟩
  obtain ⟨t', hok, hedges⟩ := replaceEdges_of_admissible hadm
  have hafter : after (calling (receivers.map guessedCall)) = t' := by
    change (t.replaceEdges "Shop.java" (receivers.map guessedCall)).toOption.getD t = t'
    rw [hok]
    rfl
  -- the calls have one place, so they are in order
  have hsort : Edge.sort (receivers.map guessedCall) = receivers.map guessedCall := by
    refine List.mergeSort_of_pairwise (List.pairwise_map.2 (List.pairwise_of_forall fun r r' => ?_))
    have hplace : (guessedCall r).place = (guessedCall r').place := rfl
    exact keyAtMost_of_eq hplace
  rw [hafter, edgesOf, hedges, hsort]
  exact (edgesOf_setEdges t _ _ _).trans (if_pos rfl)

/-- A call that repeats an earlier one behind a call through another receiver is kept. -/
theorem repeat_kept : (after (calling (["x", "y", "x"].map guessedCall))).edgesOf "Shop.java" =
        ["x", "y", "x"].map guessedCall ∧
      ¬((after (calling (["x", "y", "x"].map guessedCall))).edgesOf "Shop.java").Pairwise
        fun a b => (a == b) = false := by
  have hedges : (after (calling (["x", "y", "x"].map guessedCall))).edgesOf "Shop.java" =
      ["x", "y", "x"].map guessedCall := by
    rw [edgesOf_calling]
    simp [dropRepeats, guessedCall_beq]
  refine ⟨hedges, ?_⟩
  rw [hedges]
  simp [guessedCall_beq]

theorem edges_in_order_after_repeated :
    (after (calling (["x", "x", "y"].map guessedCall))).edgesOf "Shop.java" =
        ["x", "y"].map guessedCall ∧
      ((after (calling (["x", "x", "y"].map guessedCall))).edgesOf "Shop.java").Pairwise
        fun a b => (a == b) = false := by
  refine ⟨?_, ?_⟩
  · rw [edgesOf_calling]
    simp [dropRepeats, guessedCall_beq]
  · obtain ⟨-, -, hdistinct⟩ := edges_in_order_after (calling (["x", "x", "y"].map guessedCall))
      "Shop.java"
    refine hdistinct fun edges he a b c hsub hac hab => ?_
    have hedges : edges = ["x", "x", "y"].map guessedCall := by simpa [calling] using he
    rw [hedges] at hsub
    obtain ⟨rfl, rfl, rfl⟩ : a = guessedCall "x" ∧ b = guessedCall "x" ∧ c = guessedCall "y" := by
      simpa using hsub.eq_of_length rfl
    simp [guessedCall_beq] at hac

end Table

end CodeAtlas
