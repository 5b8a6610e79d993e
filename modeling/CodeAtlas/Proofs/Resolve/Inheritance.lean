import Mathlib
import CodeAtlas.Resolve.Members
import CodeAtlas.Proofs.Resolve.Findings
import CodeAtlas.Proofs.Table.Commits
import CodeAtlas.Proofs.Table.Integrity

/-!
# The nearest inherited member

A type inherits a member from the nearest supertype that declares it. The search has a queue of
lists of supertypes, each with its distance; it skips every name it has met before, and does not
look further than eight steps. Hierarchies may be cyclic, and a type may be reached in several ways.

The distances in a queue never fall, so the search goes through the hierarchy generation by
generation. To find the supertypes of a type it walks outwards from it; that walk returns if the
separators of the files are not empty.

Main results:

* `View.Ancestor`: how many steps to supertypes lead from a type to another, said without the search.
* `View.search_generation`: the lists of one distance are gone through one after the other.
* `View.Progress.next`: what one generation of the search adds to what is known.
* `View.inheritedMember?_nearest`: the search answers exactly if some other type within eight steps
  declares the member, and then with the member of one that is nearest.
-/

namespace CodeAtlas

open SortedMap SymbolLookup

namespace View

/-- `t` is reached from `owner` by a chain of so many steps to supertypes. -/
def Ancestor (v : View) (owner : Symbol) : Nat → Symbol → Prop
  | 0, t => t = owner
  | n + 1, t => ∃ s, v.Ancestor owner n s ∧ t ∈ v.supertypesOf s

/-- The names of a view: symbols stand under their own names, and `owner` is the symbol of its. -/
structure Names (v : View) (owner : Symbol) : Prop where
  symbol : ∀ {fqn s}, v.snapshot.symbols.get? fqn = some s → s.fqn = fqn
  owner : ∀ s, v.snapshot.symbols.get? owner.fqn = some s → s = owner

variable {v : View} {owner s t : Symbol} {member : String} {n k : Nat}

theorem Names.get?_of_mem_supertypesOf (h : v.Names owner) (ht : t ∈ v.supertypesOf s) :
    v.snapshot.symbols.get? t.fqn = some t := by
  unfold supertypesOf at ht
  split at ht
  · cases ht
  split at ht
  · cases ht
  · obtain ⟨name, -, hres⟩ := List.mem_filterMap.1 (List.mem_filter.1 ht).1
    obtain ⟨fqn, hfqn, -⟩ := internal_of_resolve? hres
    rwa [h.symbol hfqn]

theorem Names.get?_of_ancestor (h : v.Names owner) (ht : v.Ancestor owner n t) :
    t = owner ∨ v.snapshot.symbols.get? t.fqn = some t := by
  cases n with
  | zero => exact .inl ht
  | succ n =>
    obtain ⟨s, -, hs⟩ := ht
    exact .inr (h.get?_of_mem_supertypesOf hs)

/-- Types that are reached from `owner` are told apart by their names. -/
theorem Names.eq_of_fqn_eq (h : v.Names owner) (hs : v.Ancestor owner n s)
    (ht : v.Ancestor owner k t) (heq : s.fqn = t.fqn) : s = t := by
  rcases h.get?_of_ancestor hs with rfl | hgs
  · rcases h.get?_of_ancestor ht with rfl | hgt
    · rfl
    · exact (h.owner t (heq ▸ hgt)).symm
  · rcases h.get?_of_ancestor ht with rfl | hgt
    · exact h.owner s (heq ▸ hgs)
    · exact Option.some.inj (hgs.symm.trans (heq ▸ hgt))

/-! ## One generation -/

/-- The supertypes that wait in a queue. -/
def waiting (queue : List (List Symbol × Nat)) : List Symbol := queue.flatMap (·.1)

theorem visitAll_found (l : List Symbol) {st : Search} (h : st.found.isSome = true) :
    st.visitAll v member n l = st := by
  induction l with
  | nil => rfl
  | cons t rest ih =>
    have hvisit : st.visit v member n t = st := by simp [Search.visit, h]
    rw [Search.visitAll, List.foldl_cons, hvisit]
    exact ih

/-- What waits first in a queue does not matter to a list that is looked at. -/
theorem visitAll_append (l : List Symbol) (st : Search) (queue : List (List Symbol × Nat)) :
    Search.visitAll v member n l { st with queue := queue ++ st.queue } =
      { st.visitAll v member n l with queue := queue ++ (st.visitAll v member n l).queue } := by
  induction l generalizing st with
  | nil => rfl
  | cons t rest ih =>
    have hone : Search.visit v member n { st with queue := queue ++ st.queue } t =
        { st.visit v member n t with queue := queue ++ (st.visit v member n t).queue } := by
      unfold Search.visit
      split
      · rfl
      · dsimp only
        split
        · rfl
        · split
          · rw [List.append_assoc]
          · rfl
    rw [Search.visitAll, List.foldl_cons, hone]
    exact ih _

/-- The lists at the front of a queue that have one distance are looked at as if they were one. -/
theorem search_generation (v : View) (member : String) (front : List (List Symbol × Nat))
    (hfront : ∀ e ∈ front, e.2 = n) (seen : StringSet) (queue : List (List Symbol × Nat)) :
    v.search member seen (front ++ queue) =
      (Search.visitAll v member n (waiting front) { seen, queue }).found.or
        (v.search member (Search.visitAll v member n (waiting front) { seen, queue }).seen
          (Search.visitAll v member n (waiting front) { seen, queue }).queue) := by
  induction front generalizing seen queue with
  | nil => rfl
  | cons e front ih =>
    obtain ⟨parents, depth⟩ := e
    obtain rfl : depth = n := hfront _ (List.mem_cons_self ..)
    have hall : ∀ st : Search, st.visitAll v member depth (waiting ((parents, depth) :: front)) =
        (st.visitAll v member depth parents).visitAll v member depth (waiting front) := fun st =>
      List.foldl_append
    rw [List.cons_append, search, hall,
      visitAll_append parents { seen, queue } front]
    dsimp only
    generalize Search.visitAll v member depth parents { seen, queue } = st
    obtain ⟨seen, queue, _ | m⟩ := st
    · exact ih (fun e he => hfront e (List.mem_cons_of_mem _ he)) seen queue
    · rw [visitAll_found (waiting front) rfl]
      rfl

/-- What a search knows after a generation in which it found nothing. -/
structure Search.Passed (v : View) (member : String) (n : Nat) (l : List Symbol) (st st' : Search) :
    Prop where
  barren : ∀ t ∈ l, st.seen.contains t.fqn = false → v.memberOf? t member = none
  seen : ∀ f, st'.seen.contains f = true ↔ st.seen.contains f = true ∨ ∃ t ∈ l, t.fqn = f
  depth : ∀ e ∈ st'.queue, e ∈ st.queue ∨ n < maxDepth ∧ e.2 = n + 1
  next : n < maxDepth → ∀ u, u ∈ waiting st'.queue ↔
    u ∈ waiting st.queue ∨ ∃ t ∈ l, st.seen.contains t.fqn = false ∧ u ∈ v.supertypesOf t

/-- A generation gives the member of a type that is met for the first time, or has none. -/
theorem visitAll_passed (v : View) (member : String) (n : Nat) (l : List Symbol) (st : Search)
    (hst : st.found = none) (hl : ∀ s ∈ l, ∀ t ∈ l, s.fqn = t.fqn → s = t) :
    (∃ t ∈ l, st.seen.contains t.fqn = false ∧ (v.memberOf? t member).isSome = true ∧
        (st.visitAll v member n l).found = v.memberOf? t member) ∨
      (st.visitAll v member n l).found = none ∧
        Search.Passed v member n l st (st.visitAll v member n l) := by
  induction l generalizing st with
  | nil => exact .inr ⟨hst, by simp, by simp [Search.visitAll], fun e he => .inl he,
      by simp [Search.visitAll]⟩
  | cons t rest ih =>
    have hrest : ∀ s ∈ rest, ∀ u ∈ rest, s.fqn = u.fqn → s = u := fun s hs u hu =>
      hl s (List.mem_cons_of_mem _ hs) u (List.mem_cons_of_mem _ hu)
    change (∃ u ∈ t :: rest, _ ∧ _ ∧ ((st.visit v member n t).visitAll v member n rest).found = _) ∨
      ((st.visit v member n t).visitAll v member n rest).found = none ∧
        Search.Passed v member n (t :: rest) st ((st.visit v member n t).visitAll v member n rest)
    by_cases hseen : st.seen.contains t.fqn = true
    · -- A name that was met before is skipped.
      have hvisit : st.visit v member n t = st := by simp [Search.visit, hseen]
      rw [hvisit]
      rcases ih st hst hrest with ⟨u, hu, hfound⟩ | ⟨hnone, hp⟩
      · exact .inl ⟨u, List.mem_cons_of_mem _ hu, hfound⟩
      · refine .inr ⟨hnone, fun u hu hnew => ?_, fun f => ?_, hp.depth, fun hlt u => ?_⟩
        · rcases List.mem_cons.1 hu with rfl | hu
          · rw [hseen] at hnew
            cases hnew
          · exact hp.barren u hu hnew
        · rw [hp.seen]
          simp only [List.exists_mem_cons_iff]
          constructor
          · exact Or.imp_right .inr
          · rintro (h | rfl | h)
            · exact .inl h
            · exact .inl hseen
            · exact .inr h
        · rw [hp.next hlt]
          simp [hseen]
    · have hnew : st.seen.contains t.fqn = false := by simpa using hseen
      cases hm : v.memberOf? t member with
      | some x =>
        have hvisit : (st.visit v member n t).found = some x := by
          simp [Search.visit, hst, hseen, hm]
        refine .inl ⟨t, List.mem_cons_self .., hnew, by rw [hm]; rfl, ?_⟩
        rw [visitAll_found rest (by rw [hvisit]; rfl), hvisit, hm]
      | none =>
        obtain ⟨st', hvisit, hfound', hseen', hqueue'⟩ : ∃ st', st.visit v member n t = st' ∧
            st'.found = none ∧ st'.seen = st.seen.add t.fqn ∧
            st'.queue = st.queue ++ if n < maxDepth then [(v.supertypesOf t, n + 1)] else [] := by
          refine ⟨_, rfl, ?_⟩
          by_cases hlt : n < maxDepth <;> simp [Search.visit, hst, hseen, hm, hlt]
        -- A later type of the generation with the same name is the same type.
        have hsplit : ∀ u ∈ rest, st.seen.contains u.fqn = false →
            u = t ∨ st'.seen.contains u.fqn = false := by
          intro u hu hunew
          by_cases hf : u.fqn = t.fqn
          · exact .inl (hl u (List.mem_cons_of_mem _ hu) t (List.mem_cons_self ..) hf)
          · exact .inr (by rw [hseen', StringSet.contains_add, hunew]; simpa using hf)
        have hold : ∀ f, st'.seen.contains f = false → st.seen.contains f = false := by
          intro f hf
          rw [hseen', StringSet.contains_add] at hf
          exact (Bool.or_eq_false_iff.1 hf).2
        rw [hvisit]
        rcases ih st' hfound' hrest with ⟨u, hu, hunew, hfound⟩ | ⟨hnone, hp⟩
        · exact .inl ⟨u, List.mem_cons_of_mem _ hu, hold _ hunew, hfound⟩
        · refine .inr ⟨hnone, fun u hu hunew => ?_, fun f => ?_, fun e he => ?_, fun hlt u => ?_⟩
          · rcases List.mem_cons.1 hu with rfl | hu
            · exact hm
            · rcases hsplit u hu hunew with rfl | hunew
              · exact hm
              · exact hp.barren u hu hunew
          · rw [hp.seen, hseen', StringSet.contains_add, List.exists_mem_cons_iff]
            simp only [Bool.or_eq_true, decide_eq_true_eq]
            rw [@eq_comm _ t.fqn f]
            tauto
          · refine (hp.depth e he).elim (fun he => ?_) .inr
            rw [hqueue'] at he
            refine (List.mem_append.1 he).imp_right fun he => ?_
            split at he
            · next hlt => exact ⟨hlt, by rw [List.mem_singleton.1 he]⟩
            · cases he
          · have hwaiting : u ∈ waiting st'.queue ↔
                u ∈ waiting st.queue ∨ u ∈ v.supertypesOf t := by
              rw [hqueue', if_pos hlt]
              simp [waiting]
            rw [hp.next hlt, hwaiting, List.exists_mem_cons_iff]
            constructor
            · rintro ((h | h) | ⟨w, hw, hwnew, hu⟩)
              · exact .inl h
              · exact .inr (.inl ⟨hnew, h⟩)
              · exact .inr (.inr ⟨w, hw, hold _ hwnew, hu⟩)
            · rintro (h | ⟨-, h⟩ | ⟨w, hw, hwnew, hu⟩)
              · exact .inl (.inl h)
              · exact .inl (.inr h)
              · rcases hsplit w hw hwnew with rfl | hwnew
                · exact .inl (.inr hu)
                · exact .inr ⟨w, hw, hwnew, hu⟩

/-! ## Generation after generation -/

/-- No type other than `owner` within so many steps declares the member. -/
def Barren (v : View) (owner : Symbol) (member : String) (k : Nat) : Prop :=
  ∀ j ≤ k, ∀ t, v.Ancestor owner j t → t ≠ owner → v.memberOf? t member = none

/-- What holds before the types that are `k + 1` steps away are looked at: all names within `k` steps
have been met, and `generation` holds the types `k + 1` steps away but for names met before. -/
structure Progress (v : View) (owner : Symbol) (member : String) (k : Nat) (seen : StringSet)
    (generation : List Symbol) : Prop where
  seen_iff : ∀ f, seen.contains f = true ↔ ∃ j ≤ k, ∃ t, v.Ancestor owner j t ∧ t.fqn = f
  ancestor : ∀ t ∈ generation, v.Ancestor owner (k + 1) t
  complete : ∀ t, v.Ancestor owner (k + 1) t → t ∈ generation ∨ seen.contains t.fqn = true
  barren : v.Barren owner member k

namespace Progress

variable {seen : StringSet} {generation : List Symbol}

theorem start (v : View) (owner : Symbol) (member : String) :
    v.Progress owner member 0 (StringSet.ofList [owner.fqn]) (v.supertypesOf owner) where
  seen_iff f := by
    rw [StringSet.contains_ofList, List.mem_singleton]
    constructor
    · rintro rfl
      exact ⟨0, le_rfl, owner, rfl, rfl⟩
    · rintro ⟨j, hj, t, ht, rfl⟩
      obtain rfl := Nat.le_zero.1 hj
      exact congrArg Symbol.fqn ht
  ancestor t ht := ⟨owner, rfl, ht⟩
  complete t := by
    rintro ⟨s, rfl, ht⟩
    exact .inl ht
  barren j hj t ht hne := by
    obtain rfl := Nat.le_zero.1 hj
    exact absurd ht hne

section

variable (h : v.Progress owner member k seen generation)

include h

theorem seen_owner : seen.contains owner.fqn = true :=
  (h.seen_iff _).2 ⟨0, Nat.zero_le _, owner, rfl, rfl⟩

theorem ne_owner (ht : seen.contains t.fqn = false) : t ≠ owner := by
  rintro rfl
  rw [h.seen_owner] at ht
  cases ht

/-- A type of which the name has been met is within reach, by fewer steps. -/
theorem ancestor_of_seen (hv : v.Names owner)
    (ht : v.Ancestor owner n t) (hs : seen.contains t.fqn = true) :
    ∃ j ≤ k, v.Ancestor owner j t := by
  obtain ⟨j, hj, s, hanc, hf⟩ := (h.seen_iff _).1 hs
  exact ⟨j, hj, hv.eq_of_fqn_eq hanc ht hf ▸ hanc⟩

end

section

variable {st : Search} {depth : Nat} (h : v.Progress owner member k seen generation)
  (hv : v.Names owner) (hp : Search.Passed v member depth generation { seen, queue := [] } st)

include h hv hp

theorem barren_next : v.Barren owner member (k + 1) := by
  intro j hj t ht hne
  rcases Nat.le_succ_iff.1 hj with hj | rfl
  · exact h.barren j hj t ht hne
  · by_cases hs : seen.contains t.fqn = true
    · obtain ⟨j, hj, hanc⟩ := h.ancestor_of_seen hv ht hs
      exact h.barren j hj t hanc hne
    · exact hp.barren t ((h.complete t ht).resolve_right hs) (by simpa using hs)

/-- A generation in which nothing is found leads on to the next. -/
theorem next (hlt : depth < maxDepth) :
    v.Progress owner member (k + 1) st.seen (waiting st.queue) := by
  have hseen : ∀ f, st.seen.contains f = true ↔
      ∃ j ≤ k + 1, ∃ t, v.Ancestor owner j t ∧ t.fqn = f := by
    intro f
    rw [hp.seen, h.seen_iff]
    constructor
    · rintro (⟨j, hj, t, ht, rfl⟩ | ⟨t, ht, rfl⟩)
      · exact ⟨j, by omega, t, ht, rfl⟩
      · exact ⟨k + 1, le_rfl, t, h.ancestor t ht, rfl⟩
    · rintro ⟨j, hj, t, ht, rfl⟩
      rcases Nat.le_succ_iff.1 hj with hj | rfl
      · exact .inl ⟨j, hj, t, ht, rfl⟩
      · rcases h.complete t ht with hmem | hmem
        · exact .inr ⟨t, hmem, rfl⟩
        · exact .inl ((h.seen_iff _).1 hmem)
  refine ⟨hseen, fun u hu => ?_, fun u => ?_, h.barren_next hv hp⟩
  · obtain ⟨t, ht, -, hut⟩ := ((hp.next hlt u).1 hu).resolve_left (by simp [waiting])
    exact ⟨t, h.ancestor t ht, hut⟩
  · rintro ⟨t, ht, hut⟩
    by_cases hs : seen.contains t.fqn = true
    · -- The type was met on a shorter way, so its supertypes are met already.
      obtain ⟨j, hj, hanc⟩ := h.ancestor_of_seen hv ht hs
      exact .inr ((hseen _).2 ⟨j + 1, by omega, u, ⟨t, hanc, hut⟩, rfl⟩)
    · have hmem := (h.complete t ht).resolve_right hs
      exact .inl ((hp.next hlt u).2 (.inr ⟨t, hmem, by simpa using hs, hut⟩))

end

/-- The search looks at the types that wait: it gives the member of one of them, or goes on with
what they left. -/
theorem search_next {queue : List (List Symbol × Nat)}
    (h : v.Progress owner member k seen (waiting queue)) (hv : v.Names owner)
    (hqueue : ∀ e ∈ queue, e.2 = n) :
    (∃ t, v.Ancestor owner (k + 1) t ∧ t ≠ owner ∧ (v.memberOf? t member).isSome = true ∧
        v.search member seen queue = v.memberOf? t member) ∨
      ∃ st : Search, v.search member seen queue = v.search member st.seen st.queue ∧
        Search.Passed v member n (waiting queue) { seen, queue := [] } st := by
  have hinj : ∀ s ∈ waiting queue, ∀ t ∈ waiting queue, s.fqn = t.fqn → s = t :=
    fun s hs t ht => hv.eq_of_fqn_eq (h.ancestor s hs) (h.ancestor t ht)
  have hsearch := search_generation v member queue hqueue seen []
  rw [List.append_nil] at hsearch
  rcases visitAll_passed v member n (waiting queue) { seen, queue := [] } rfl hinj with
    ⟨t, ht, hnew, hsome, hfound⟩ | ⟨hnone, hp⟩
  · refine .inl ⟨t, h.ancestor t ht, h.ne_owner hnew, hsome, ?_⟩
    rw [hsearch, hfound, Option.or_of_isSome hsome]
  · refine .inr ⟨_, ?_, hp⟩
    rw [hsearch, hnone, Option.none_or]

end Progress

/-- A search that still has `n` generations before it gives the member of a nearest type that declares
it, or there is none in its reach. -/
theorem search_spec (n : Nat) (hv : v.Names owner) {seen : StringSet}
    {queue : List (List Symbol × Nat)} (hqueue : ∀ e ∈ queue, e.2 = k + 1) (hk : k + 1 + n = maxDepth)
    (h : v.Progress owner member k seen (waiting queue)) :
    (∃ t j, k < j ∧ j ≤ maxDepth ∧ v.Ancestor owner j t ∧ t ≠ owner ∧
        (v.memberOf? t member).isSome = true ∧ v.Barren owner member (j - 1) ∧
        v.search member seen queue = v.memberOf? t member) ∨
      v.search member seen queue = none ∧ v.Barren owner member maxDepth := by
  induction n generalizing k seen queue with
  | zero =>
    rcases h.search_next hv hqueue with ⟨t, ht, hne, hsome, heq⟩ | ⟨st, heq, hp⟩
    · exact .inl ⟨t, k + 1, by omega, by omega, ht, hne, hsome, h.barren, heq⟩
    · have hempty : st.queue = [] := by
        refine List.eq_nil_iff_forall_not_mem.2 fun e he => ?_
        rcases hp.depth e he with he | ⟨hlt, -⟩
        · cases he
        · omega
      have hbarren := h.barren_next hv hp
      rw [show k + 1 = maxDepth by omega] at hbarren
      exact .inr ⟨by rw [heq, hempty, search], hbarren⟩
  | succ n ih =>
    rcases h.search_next hv hqueue with ⟨t, ht, hne, hsome, heq⟩ | ⟨st, heq, hp⟩
    · exact .inl ⟨t, k + 1, by omega, by omega, ht, hne, hsome, h.barren, heq⟩
    · have hnext : ∀ e ∈ st.queue, e.2 = k + 1 + 1 := by
        intro e he
        rcases hp.depth e he with he | ⟨-, he⟩
        · cases he
        · exact he
      rw [heq]
      rcases ih hnext (by omega) (h.next hv hp (by omega)) with ⟨t, j, hlt, hrest⟩ | hnone
      · exact .inl ⟨t, j, by omega, hrest⟩
      · exact .inr hnone

theorem fqn_of_findFqn? {ops : List Table.Operation} {fqn : String}
    (h : findFqn? (Table.after ops).snapshot fqn = some s) : s.fqn = fqn :=
  ((Table.intact_after ops).anchored.symbol h).1

/-- For the symbols of any table, any sketches with separators that are not empty and any type that
the table knows under its name, if at all: every walk outwards to look for supertypes returns, a
member is found exactly if a type other than the given one is at most eight steps to supertypes away
and declares it, and what is found is the member of a type with the fewest steps. -/
theorem inheritedMember?_nearest (ops : List Table.Operation)
    (sketches : SortedMap String FileSketch)
    (hsep : ∀ path f, sketches.get? path = some f → f.separator ≠ "")
    (owner : Symbol) (member : String)
    (howner : ∀ s, findFqn? (Table.after ops).snapshot owner.fqn = some s → s = owner) :
    let v : View := ⟨(Table.after ops).snapshot, sketches⟩
    (∀ path f, sketches.get? path = some f → ∀ relative,
      (Scope.enclosing? f relative {}).isSome = true) ∧
    ((v.inheritedMember? owner member).isSome = true ↔
      ∃ t n, 1 ≤ n ∧ n ≤ 8 ∧ v.Ancestor owner n t ∧ t ≠ owner ∧
        (v.memberOf? t member).isSome = true) ∧ ∀ x, v.inheritedMember? owner member = some x →
      ∃ t n, 1 ≤ n ∧ n ≤ 8 ∧ v.Ancestor owner n t ∧ t ≠ owner ∧ v.memberOf? t member = some x ∧
        ∀ t' n', v.Ancestor owner n' t' → t' ≠ owner → (v.memberOf? t' member).isSome = true →
          n ≤ n' := by
  intro v
  refine ⟨fun path f hf relative => Scope.enclosing?_isSome (hsep path f hf) relative _, ?_⟩
  have hv : v.Names owner := ⟨fqn_of_findFqn?, howner⟩
  have hstart : v.Progress owner member 0 (StringSet.ofList [owner.fqn])
      (waiting [(v.supertypesOf owner, 1)]) := by
    simpa [waiting] using Progress.start v owner member
  have hspec : (∃ t j, 0 < j ∧ j ≤ maxDepth ∧ v.Ancestor owner j t ∧ t ≠ owner ∧
        (v.memberOf? t member).isSome = true ∧ v.Barren owner member (j - 1) ∧
        v.inheritedMember? owner member = v.memberOf? t member) ∨
      v.inheritedMember? owner member = none ∧ v.Barren owner member maxDepth :=
    search_spec 7 hv (by simp) rfl hstart
  rcases hspec with ⟨t, j, hpos, hle, hanc, hne, hsome, hbarren, heq⟩ | ⟨hnone, hbarren⟩
  · refine ⟨⟨fun _ => ⟨t, j, hpos, hle, hanc, hne, hsome⟩, fun _ => heq ▸ hsome⟩, ?_⟩
    intro x hx
    refine ⟨t, j, hpos, hle, hanc, hne, heq ▸ hx, fun t' n' hanc' hne' hsome' => ?_⟩
    by_contra hlt
    rw [hbarren n' (by omega) t' hanc' hne'] at hsome'
    cases hsome'
  · refine ⟨⟨fun h => ?_, ?_⟩, fun x hx => ?_⟩
    · rw [hnone] at h
      cases h
    · rintro ⟨t, n, -, hle, hanc, hne, hsome⟩
      rw [hbarren n hle t hanc hne] at hsome
      cases hsome
    · rw [hnone] at hx
      cases hx

/-- Two types that extend each other, and a method of the second. -/
def mutualTypes : List Symbol :=
  let extending (name : String) : Metadata :=
    (∅ : SortedMap String Json).insert "supertypes" (.array [.string name])
  [{ Symbol.ofName "A" "A" .classType with file := "f", metadata := extending "B" },
    { Symbol.ofName "B" "B" .classType with file := "f", metadata := extending "A" },
    { Symbol.ofName "B.run" "run" .method with file := "f" }]

/-- What a resolver sees of the two types. -/
def mutualView : View :=
  let sketch (name : String) (parent : Option String) (kind : SymbolKind) : SymbolSketch :=
    { name, parent, kind, line := 1, column := 1 }
  ⟨(Table.after [.commit "f" mutualTypes]).snapshot,
    (∅ : SortedMap String FileSketch).insert "f"
      { path := "f", language := "go", separator := "."
        symbols := [sketch "A" none .classType, sketch "B" none .classType,
          sketch "run" (some "B") .method] }⟩

theorem inheritedMember?_mutualView : ((findFqn? mutualView.snapshot "A").bind
    (mutualView.inheritedMember? · "run")).isSome = true := by
  decide +kernel

/-- The method is inherited through the cycle. -/
theorem inheritedMember?_nearest_mutual :
    (∀ path f, mutualView.sketches.get? path = some f → f.separator ≠ "") ∧
    ∃ owner, findFqn? mutualView.snapshot "A" = some owner ∧
      (mutualView.inheritedMember? owner "run").isSome = true ∧
      ∃ t n, 1 ≤ n ∧ n ≤ 8 ∧ mutualView.Ancestor owner n t ∧ t ≠ owner ∧
        (mutualView.memberOf? t "run").isSome = true := by
  have hsep : ∀ path f, mutualView.sketches.get? path = some f → f.separator ≠ "" := by
    intro path f hf
    rw [mutualView, get?_insert_eq] at hf
    split at hf
    · cases hf
      decide
    · cases hf
  obtain ⟨x, hx⟩ := Option.isSome_iff_exists.1 inheritedMember?_mutualView
  obtain ⟨owner, howner, hfound⟩ := Option.bind_eq_some_iff.1 hx
  have hfqn : owner.fqn = "A" := fqn_of_findFqn? howner
  have hsome : (mutualView.inheritedMember? owner "run").isSome = true :=
    Option.isSome_iff_exists.2 ⟨x, hfound⟩
  refine ⟨hsep, owner, howner, hsome, (inheritedMember?_nearest [.commit "f" mutualTypes]
    mutualView.sketches hsep owner "run" fun s hs => ?_).2.1.1 hsome⟩
  rw [hfqn] at hs
  exact Option.some.inj (hs.symm.trans howner)

/-- A file without a separator, and in its type `x`, which extends `y`, a method without a name: the
method has the path of the type. -/
def namelessMethod : FileSketch :=
  let extending : Metadata :=
    (∅ : SortedMap String Json).insert "supertypes" (.array [.string "y"])
  { path := "f", language := "go", separator := ""
    symbols := [
      { name := "x", kind := .classType, line := 1, column := 1, metadata := extending },
      { name := "", parent := some "x", kind := .method, line := 2, column := 1,
        metadata := extending }] }

/-- The table takes the file. The supertypes of `x` are never found: the walk outwards from it comes
back to the method again and again. -/
theorem walk_to_supertypes_endless :
    (Table.empty.commitFile "f" namelessMethod.assembleSymbols).1.isOk = true ∧
      (findFqn? (Table.after [.commit "f" namelessMethod.assembleSymbols]).snapshot "x").map
          (fun owner => (owner.file, owner.supertypeNames,
            Scope.enclosing? namelessMethod (namelessMethod.relativeOf owner.fqn) {})) =
        some ("f", ["y"], none) := by
  decide +kernel

end View

end CodeAtlas
