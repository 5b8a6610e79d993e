import Mathlib
import CodeAtlas.Query.Cycles
import CodeAtlas.Proofs.SortedMap

/-!
# The search for components finds the strongly connected components

The search gives indices in the order in which it comes to types, so the stack is in falling order
of indices. Between two steps some types are open: their visits have begun and not ended. `Sound`
says what holds then. Every type on the stack reaches an open type that is no higher on the stack,
and an open type reaches all that stands above it; what is off the stack is in a component, and no
edge leads out of the components.

A visit keeps all of this (`Visits`). Of the low link it says two things: it is at most the index of
any older type on the stack to which an edge leads from a type that the visit left there, and if it
is below the indices of the visit then it is the index of an older type that can be reached.

Main results:

* `Explores.meet`, `Explores.descend`, `Explored.leave`: what an edge and the end of a visit do.
* `visit_visits`: a visit does what `Visits` says.
* `search_components`: the whole search finds every component of a type once.
-/

namespace CodeAtlas

open SortedMap Relation

namespace Hierarchy

variable {g : Hierarchy}

/-- An edge leads from `a` to `b`. -/
def Leads (g : Hierarchy) (a b : SymbolId) : Prop := b ∈ g.targets a

/-- A way leads from `a` to `b`. -/
abbrev Leading (g : Hierarchy) : SymbolId → SymbolId → Prop := ReflTransGen g.Leads

/-- All types that reach a type and are reached from it. -/
def IsComponent (g : Hierarchy) (C : List SymbolId) : Prop :=
  ∃ a, ∀ b, b ∈ C ↔ g.Leading a b ∧ g.Leading b a

theorem forall_mem_concat {P : SymbolId → Prop} {l : List SymbolId} {b : SymbolId}
    (hl : ∀ c ∈ l, P c) (hb : P b) : ∀ c ∈ l ++ [b], P c :=
  List.forall_mem_append.2 ⟨hl, List.forall_mem_singleton.2 hb⟩

namespace Search

variable {s s' s'' : Search} {a b : SymbolId} {opened : Set SymbolId} {n : Nat}

/-- The types that have a component. -/
def placed (s : Search) : List SymbolId := s.components.flatten

/-- The state of a search while the visits of some types are open. -/
structure Sound (g : Hierarchy) (opened : Set SymbolId) (s : Search) : Prop where
  onStack : ∀ a, s.onStack.contains a = true ↔ a ∈ s.stack
  falling : s.stack.Pairwise fun a b => s.number b < s.number a
  below : ∀ a, s.Visited a → s.number a < s.index
  visited : ∀ a, s.Visited a ↔ a ∈ s.stack ∨ a ∈ s.placed
  apart : ∀ a ∈ s.stack, a ∉ s.placed
  nodup : s.placed.Nodup
  components : ∀ C ∈ s.components, g.IsComponent C
  closed : ∀ a b, a ∈ s.placed → g.Leads a b → b ∈ s.placed
  standing : ∀ a ∈ opened, a ∈ s.stack
  left : ∀ a b, s.Visited a → a ∉ opened → g.Leads a b → s.Visited b
  down : ∀ a ∈ s.stack, ∃ y ∈ opened, s.number y ≤ s.number a ∧ g.Leading a y
  up : ∀ y ∈ opened, ∀ a ∈ s.stack, s.number y ≤ s.number a → g.Leading y a

theorem Sound.visited_of_mem (h : s.Sound g opened) (ha : a ∈ s.stack) : s.Visited a :=
  (h.visited a).2 (.inl ha)

/-- A later state: what was visited keeps its index and low link, all others have higher indices. -/
structure Grows (s s' : Search) : Prop where
  index : s.index ≤ s'.index
  indices : ∀ a, s.Visited a → s'.indices.get? a = s.indices.get? a
  low : ∀ a, s.Visited a → s'.low a = s.low a
  fresh : ∀ a, s'.Visited a → ¬s.Visited a → s.index ≤ s'.number a

theorem Grows.number (h : s.Grows s') (ha : s.Visited a) : s'.number a = s.number a := by
  rw [Search.number, Search.number, getD, getD, h.indices a ha]

theorem Grows.visited (h : s.Grows s') (ha : s.Visited a) : s'.Visited a := by
  rw [Visited, contains, h.indices a ha]
  exact ha

theorem Grows.trans (h : s.Grows s') (h' : s'.Grows s'') : s.Grows s'' where
  index := h.index.trans h'.index
  indices a ha := (h'.indices a (h.visited ha)).trans (h.indices a ha)
  low a ha := (h'.low a (h.visited ha)).trans (h.low a ha)
  fresh a ha hn := by
    by_cases hv : s'.Visited a
    · rw [h'.number hv]
      exact h.fresh a hv hn
    · exact h.index.trans (h'.fresh a ha hv)

/-! ## Low links -/

theorem low_lower (s : Search) (a b : SymbolId) (n : Nat) :
    (s.lower a n).low b = if b = a then min n (s.low a) else s.low b := by
  rw [Search.low, lower, getD_insert]
  rfl

/-- Nothing but the low links knows of a low link. -/
theorem Sound.lower (h : s.Sound g opened) : (s.lower a n).Sound g opened :=
  ⟨h.onStack, h.falling, h.below, h.visited, h.apart, h.nodup, h.components, h.closed, h.standing,
    h.left, h.down, h.up⟩

/-- What holds while the visit of a type is open and some of its edges have been followed: `s₀` is
the state before the visit. -/
structure Explores (g : Hierarchy) (opened : Set SymbolId) (a : SymbolId) (s₀ : Search)
    (followed : List SymbolId) (s : Search) : Prop where
  sound : s.Sound g (insert a opened)
  grows : s₀.Grows s
  visited : s.Visited a
  number : s.number a = s₀.index
  stack : ∃ new, s.stack = new ++ a :: s₀.stack ∧
    ∀ y ∈ new, ∀ z ∈ a :: s₀.stack, g.Leads y z → s.low a ≤ s.number z
  low : ∃ z ∈ s.stack, s.number z = s.low a ∧ g.Leading a z
  low_le : s.low a ≤ s.number a
  followed : ∀ b ∈ followed, s.Visited b ∧ (b ∈ s₀.stack → s.low a ≤ s.number b)

/-- What a visit of a type comes to. -/
structure Visits (g : Hierarchy) (opened : Set SymbolId) (a : SymbolId) (s s' : Search) : Prop where
  sound : s'.Sound g opened
  grows : s.Grows s'
  visited : s'.Visited a
  stack : ∃ new, s'.stack = new ++ s.stack ∧
    ∀ y ∈ new, ∀ z ∈ s.stack, g.Leads y z → s'.low a ≤ s.number z
  low : s'.low a < s.index → ∃ z ∈ s.stack, s.number z = s'.low a ∧ g.Leading a z

/-! ## The beginning of a visit -/

theorem number_enter (s : Search) (a b : SymbolId) :
    (s.enter a).number b = if b = a then s.index else s.number b := by
  rw [Search.number, enter, getD_insert]
  rfl

theorem grows_enter (ha : ¬s.Visited a) : s.Grows (s.enter a) := by
  have hne : ∀ b, s.Visited b → b ≠ a := fun b hb h => ha (h ▸ hb)
  refine ⟨Nat.le_succ _, fun b hb => ?_, fun b hb => ?_, fun b hb hn => ?_⟩
  · rw [enter, get?_insert_eq, if_neg (hne b hb)]
  · rw [Search.low, enter, getD_insert, if_neg (hne b hb)]
    rfl
  · obtain rfl := (visited_enter.1 hb).resolve_right hn
    rw [number_enter, if_pos rfl]

theorem Sound.enter (h : s.Sound g opened) (ha : ¬s.Visited a)
    (hopened : ∀ y ∈ opened, g.Leading y a) : Explores g opened a s [] (s.enter a) := by
  have hgrows := grows_enter ha
  have hself : (s.enter a).number a = s.index := by rw [number_enter, if_pos rfl]
  have hlow : (s.enter a).low a = s.index := by
    rw [Search.low, Search.enter, getD_insert, if_pos rfl]
  have hnumber : ∀ b ∈ s.stack, (s.enter a).number b = s.number b := fun b hb =>
    hgrows.number (h.visited_of_mem hb)
  have hless : ∀ b ∈ s.stack, s.number b < s.index := fun b hb =>
    h.below b (h.visited_of_mem hb)
  refine ⟨⟨fun b => ?_, ?_, fun b hb => ?_, fun b => ?_, fun b hb => ?_, h.nodup, h.components,
    h.closed, ?_, fun b c hb hn hbc => ?_, fun b hb => ?_, ?_⟩, hgrows, visited_enter.2 (.inl rfl),
    hself, ⟨[], rfl, List.forall_mem_nil _⟩,
    ⟨a, List.mem_cons_self .., hself.trans hlow.symm, .refl⟩, (hlow.trans hself.symm).le,
    List.forall_mem_nil _⟩
  · rw [Search.enter, contains_insert, List.mem_cons, Bool.or_eq_true, decide_eq_true_eq, h.onStack]
  · refine List.pairwise_cons.2 ⟨fun b hb => ?_, h.falling.imp_of_mem fun {x y} hx hy hlt => ?_⟩
    · rw [hself, hnumber b hb]
      exact hless b hb
    · rw [hnumber x hx, hnumber y hy]
      exact hlt
  · rcases visited_enter.1 hb with rfl | hb
    · rw [hself]
      exact Nat.lt_succ_self _
    · rw [hgrows.number hb]
      exact (h.below b hb).trans (Nat.lt_succ_self _)
  · rw [visited_enter, h.visited]
    exact or_assoc.symm.trans (or_congr_left List.mem_cons.symm)
  · rcases List.mem_cons.1 hb with rfl | hb
    · exact fun hp => ha ((h.visited b).2 (.inr hp))
    · exact h.apart b hb
  · rintro b (rfl | hb)
    · exact List.mem_cons_self ..
    · exact List.mem_cons_of_mem _ (h.standing b hb)
  · have hb := (visited_enter.1 hb).resolve_left fun h => hn (.inl h)
    exact hgrows.visited (h.left b c hb (fun ho => hn (.inr ho)) hbc)
  · rcases List.mem_cons.1 hb with rfl | hb
    · exact ⟨b, .inl rfl, le_rfl, .refl⟩
    · obtain ⟨y, hy, hle, hby⟩ := h.down b hb
      refine ⟨y, .inr hy, ?_, hby⟩
      rw [hnumber y (h.standing y hy), hnumber b hb]
      exact hle
  · rintro y (rfl | hy) b hb hle
    · rcases List.mem_cons.1 hb with rfl | hb
      · exact .refl
      · rw [hself, hnumber b hb] at hle
        exact absurd (hless b hb) hle.not_gt
    · rcases List.mem_cons.1 hb with rfl | hb
      · exact hopened y hy
      · rw [hnumber y (h.standing y hy), hnumber b hb] at hle
        exact h.up y hy b hb hle

/-! ## One edge -/

section

variable {s₀ : Search} {followed : List SymbolId}

theorem Grows.lower (h : s₀.Grows s) (ha : ¬s₀.Visited a) : s₀.Grows (s.lower a n) := by
  refine ⟨h.index, h.indices, fun b hb => ?_, h.fresh⟩
  have hne : b ≠ a := fun hba => ha (hba ▸ hb)
  rw [low_lower, if_neg hne]
  exact h.low b hb

/-- An edge to a type that has been visited. -/
theorem Explores.meet (h : Explores g opened a s₀ followed s) (ha : ¬s₀.Visited a)
    (hab : g.Leads a b) (hb : s.Visited b) : Explores g opened a s₀ (followed ++ [b])
      (if s.onStack.contains b then s.lower a (s.number b) else s) := by
  split
  · next hon =>
    have hlow : (s.lower a (s.number b)).low a = min (s.number b) (s.low a) := by
      rw [low_lower, if_pos rfl]
    have hle : (s.lower a (s.number b)).low a ≤ s.low a := hlow ▸ min_le_right ..
    obtain ⟨new, hstack, hedges⟩ := h.stack
    refine ⟨h.sound.lower, h.grows.lower ha, h.visited, h.number,
      ⟨new, hstack, fun y hy z hz hyz => hle.trans (hedges y hy z hz hyz)⟩, ?_, hle.trans h.low_le,
      forall_mem_concat (fun c hc => ?_) ⟨hb, fun _ => hlow ▸ min_le_left ..⟩⟩
    · rw [hlow]
      rcases min_choice (s.number b) (s.low a) with hmin | hmin <;> rw [hmin]
      · exact ⟨b, (h.sound.onStack b).1 hon, rfl, .single hab⟩
      · exact h.low
    · exact (h.followed c hc).imp_right fun hc hs => hle.trans (hc hs)
  · next hon =>
    have hnot : b ∉ s₀.stack := by
      intro hs
      obtain ⟨new, hstack, -⟩ := h.stack
      refine hon ((h.sound.onStack b).2 ?_)
      rw [hstack]
      exact List.mem_append_right _ (List.mem_cons_of_mem _ hs)
    exact { h with followed := forall_mem_concat h.followed ⟨hb, fun hs => absurd hs hnot⟩ }

/-- An edge to a type that has not been visited, and the visit of that type. -/
theorem Explores.descend (h : Explores g opened a s₀ followed s) (ha : ¬s₀.Visited a)
    (h₀ : ∀ b ∈ s₀.stack, s₀.Visited b) (hab : g.Leads a b) (hb : ¬s.Visited b)
    (hv : Visits g (insert a opened) b s s') :
    Explores g opened a s₀ (followed ++ [b]) (s'.lower a (s'.low b)) := by
  have hlow : (s'.lower a (s'.low b)).low a = min (s'.low b) (s.low a) := by
    rw [low_lower, if_pos rfl, hv.grows.low a h.visited]
  have hleft : (s'.lower a (s'.low b)).low a ≤ s'.low b := hlow ▸ min_le_left ..
  have hright : (s'.lower a (s'.low b)).low a ≤ s.low a := hlow ▸ min_le_right ..
  have hnumber : ∀ z ∈ s.stack, s'.number z = s.number z := fun z hz =>
    hv.grows.number (h.sound.visited_of_mem hz)
  have hself := hv.grows.number h.visited
  obtain ⟨new, hstack, hedges⟩ := h.stack
  obtain ⟨new', hstack', hedges'⟩ := hv.stack
  have hold : ∀ z ∈ a :: s₀.stack, z ∈ s.stack := fun z hz =>
    hstack ▸ List.mem_append_right _ hz
  refine ⟨hv.sound.lower, (h.grows.trans hv.grows).lower ha, hv.grows.visited h.visited,
    hself.trans h.number, ⟨new' ++ new, ?_, fun y hy z hz hyz => ?_⟩, ?_, ?_, fun c hc => ?_⟩
  · change s'.stack = _
    rw [hstack', hstack, List.append_assoc]
  · change _ ≤ s'.number z
    rw [hnumber z (hold z hz)]
    rcases List.mem_append.1 hy with hy | hy
    · exact hleft.trans (hedges' y hy z (hold z hz) hyz)
    · exact hright.trans (hedges y hy z hz hyz)
  · -- a low link of the visit that is below that of `a` is the index of an older type
    have hmem : ∀ z ∈ s.stack, z ∈ s'.stack := fun z hz => hstack' ▸ List.mem_append_right _ hz
    rw [hlow]
    rcases min_choice (s'.low b) (s.low a) with hmin | hmin <;> rw [hmin]
    · have hlt : s'.low b < s.index :=
        (min_eq_left_iff.1 hmin).trans_lt (h.low_le.trans_lt (h.sound.below a h.visited))
      obtain ⟨z, hz, hzlow, hbz⟩ := hv.low hlt
      exact ⟨z, hmem z hz, (hnumber z hz).trans hzlow, .head hab hbz⟩
    · obtain ⟨z, hz, hzlow, haz⟩ := h.low
      exact ⟨z, hmem z hz, (hnumber z hz).trans hzlow, haz⟩
  · change _ ≤ s'.number a
    rw [hself]
    exact hright.trans h.low_le
  · rcases List.mem_append.1 hc with hc | hc
    · obtain ⟨hvisited, hle⟩ := h.followed c hc
      refine ⟨hv.grows.visited hvisited, fun hs => ?_⟩
      change _ ≤ s'.number c
      rw [hv.grows.number hvisited]
      exact hright.trans (hle hs)
    · obtain rfl := List.mem_singleton.1 hc
      exact ⟨hv.visited, fun hs => absurd (h.grows.visited (h₀ c hs)) hb⟩

/-! ## The end of a visit -/

theorem popTo_append (new rest : List SymbolId) (h : a ∉ new) :
    popTo a (new ++ a :: rest) = (new ++ [a], rest) := by
  induction new with
  | nil => simp [popTo]
  | cons b new ih =>
    rw [List.mem_cons, not_or] at h
    have hbeq : (b == a) = false := by simpa using Ne.symm h.1
    rw [List.cons_append, popTo, hbeq, ih h.2]
    rfl

theorem contains_foldl_erase (l : List SymbolId) (m : IdSet) (b : SymbolId) :
    (l.foldl erase m).contains b = true ↔ m.contains b = true ∧ b ∉ l := by
  induction l generalizing m with
  | nil => simp
  | cons c l ih =>
    rw [List.foldl_cons, ih, contains_erase, List.mem_cons]
    simp only [Bool.and_eq_true, decide_eq_true_eq]
    tauto

/-- The state when all edges of `a` have been followed: `new` stands above `a` on the stack. -/
structure Explored (g : Hierarchy) (opened : Set SymbolId) (a : SymbolId) (s₀ : Search)
    (new : List SymbolId) (s : Search) : Prop where
  explores : Explores g opened a s₀ (g.targets a) s
  before : s₀.Sound g opened
  stack : s.stack = new ++ a :: s₀.stack
  edges : ∀ y ∈ new ++ [a], ∀ z ∈ s₀.stack, g.Leads y z → s.low a ≤ s.number z

theorem Explores.explored (h : Explores g opened a s₀ (g.targets a) s)
    (h₀ : s₀.Sound g opened) : ∃ new, Explored g opened a s₀ new s := by
  obtain ⟨new, hstack, hedges⟩ := h.stack
  refine ⟨new, h, h₀, hstack, fun y hy z hz hyz => ?_⟩
  rcases List.mem_append.1 hy with hy | hy
  · exact hedges y hy z (List.mem_cons_of_mem _ hz) hyz
  · obtain rfl := List.mem_singleton.1 hy
    exact (h.followed z hyz).2 hz

namespace Explored

variable {new : List SymbolId} {y z : SymbolId} (h : Explored g opened a s₀ new s)

include h

theorem stack_eq : s.stack = (new ++ [a]) ++ s₀.stack := by
  rw [h.stack, List.append_assoc]
  rfl

theorem nodup : ((new ++ [a]) ++ s₀.stack).Nodup := by
  rw [← h.stack_eq]
  exact h.explores.sound.falling.imp fun {x y} hlt hxy => by simp [hxy] at hlt

theorem not_older (hy : y ∈ new ++ [a]) : y ∉ s₀.stack :=
  fun hold => (List.nodup_append.1 h.nodup).2.2 y hy y hold rfl

theorem above (hy : y ∈ new) : s.number a < s.number y := by
  have hfalling := h.explores.sound.falling
  rw [h.stack] at hfalling
  exact (List.pairwise_append.1 hfalling).2.2 y hy a (List.mem_cons_self ..)

/-- The indices of older types. -/
theorem number (hz : z ∈ s₀.stack) : s.number z = s₀.number z ∧ s₀.number z < s.number a := by
  have hvisited := h.before.visited_of_mem hz
  refine ⟨h.explores.grows.number hvisited, ?_⟩
  rw [h.explores.number]
  exact h.before.below z hvisited

/-- Once `a` is left, all types but the open ones are. -/
theorem left (hy : s.Visited y) (ho : y ∉ opened) (hyz : g.Leads y z) : s.Visited z := by
  by_cases hya : y = a
  · exact (h.explores.followed z (hya ▸ hyz)).1
  · exact h.explores.sound.left y z hy (fun hi => hi.elim hya ho) hyz

/-- A type that reaches an older type stays on the stack. -/
theorem stays (hlow : s.low a ≠ s.number a) : Visits g opened a s₀ s := by
  have hopen := h.explores
  have hsound := hopen.sound
  have hlt : s.low a < s.number a := lt_of_le_of_ne hopen.low_le hlow
  have hsub : ∀ {y}, y ∈ opened → y ∈ insert a opened := Set.mem_insert_of_mem a
  have hdown : ∀ b ∈ s.stack, ∃ y ∈ opened, s.number y ≤ s.number b ∧ g.Leading b y := by
    intro b hb
    obtain ⟨y, hy, hle, hby⟩ := hsound.down b hb
    rcases hy with rfl | hy
    · -- from `a` itself the way leads on to an older open type
      obtain ⟨z, hz, hzlow, hyz⟩ := hopen.low
      obtain ⟨x, hx, hxle, hzx⟩ := hsound.down z hz
      have hxlt : s.number x < s.number y := hxle.trans_lt (hzlow ▸ hlt)
      refine ⟨x, hx.resolve_left fun hxy => ?_, hxlt.le.trans hle, (hby.trans hyz).trans hzx⟩
      rw [hxy] at hxlt
      exact lt_irrefl _ hxlt
    · exact ⟨y, hy, hle, hby⟩
  refine ⟨⟨hsound.onStack, hsound.falling, hsound.below, hsound.visited, hsound.apart, hsound.nodup,
      hsound.components, hsound.closed, fun y hy => hsound.standing y (hsub hy),
      fun y z hy ho => h.left hy ho, hdown, fun y hy => hsound.up y (hsub hy)⟩,
    hopen.grows, hopen.visited, ⟨new ++ [a], h.stack_eq, fun y hy z hz hyz => ?_⟩, fun _ => ?_⟩
  · rw [← (h.number hz).1]
    exact h.edges y hy z hz hyz
  · obtain ⟨z, hz, hzlow, haz⟩ := hopen.low
    rw [h.stack] at hz
    rcases List.mem_append.1 hz with hz | hz
    · exact absurd (h.above hz) (hzlow ▸ hlt).not_gt
    · rcases List.mem_cons.1 hz with rfl | hz
      · exact absurd hzlow hlow.symm
      · exact ⟨z, hz, (h.number hz).1.symm.trans hzlow, haz⟩

section

variable (hlow : s.low a = s.number a)

include hlow

/-- If the low link of `a` is its index, no edge leads to the older types. -/
theorem leads (hy : y ∈ new ++ [a]) (hyz : g.Leads y z) : z ∈ new ++ [a] ∨ z ∈ s.placed := by
  have hopened : y ∉ opened := fun ho => h.not_older hy (h.before.standing y ho)
  have hvisited : s.Visited y := by
    rw [h.explores.sound.visited, h.stack_eq]
    exact .inl (List.mem_append_left _ hy)
  rcases (h.explores.sound.visited z).1 (h.left hvisited hopened hyz) with hz | hz
  · rw [h.stack_eq] at hz
    refine .inl ((List.mem_append.1 hz).resolve_right fun hz => ?_)
    have hle := h.edges y hy z hz hyz
    rw [hlow, (h.number hz).1] at hle
    exact hle.not_gt (h.number hz).2
  · exact .inr hz

theorem leading (hy : y ∈ new ++ [a]) (hyz : g.Leading y z) : z ∈ new ++ [a] ∨ z ∈ s.placed := by
  induction hyz with
  | refl => exact .inl hy
  | tail _ hbc ih =>
    rcases ih with hb | hb
    · exact h.leads hlow hb hbc
    · exact .inr (h.explores.sound.closed _ _ hb hbc)

theorem isComponent : g.IsComponent (new ++ [a]) := by
  have hsound := h.explores.sound
  have hself : a ∈ new ++ [a] := List.mem_append_right _ (List.mem_singleton_self a)
  have hon : ∀ y ∈ new ++ [a], y ∈ s.stack := fun y hy => by
    rw [h.stack_eq]
    exact List.mem_append_left _ hy
  refine ⟨a, fun b => ⟨fun hb => ⟨?_, ?_⟩, fun ⟨hab, hba⟩ => ?_⟩⟩
  · refine hsound.up a (.inl rfl) b (hon b hb) ?_
    rcases List.mem_append.1 hb with hb | hb
    · exact (h.above hb).le
    · rw [List.mem_singleton.1 hb]
  · -- the open type that `b` reaches is not an older one
    obtain ⟨y, hy, -, hby⟩ := hsound.down b (hon b hb)
    rcases hy with rfl | hy
    · exact hby
    · have hold := h.before.standing y hy
      rcases h.leading hlow hb hby with hy | hy
      · exact absurd hold (h.not_older hy)
      · exact absurd hy (hsound.apart y (by rw [h.stack_eq]; exact List.mem_append_right _ hold))
  · refine (h.leading hlow hself hab).resolve_right fun hb => ?_
    have hclosed : ∀ {c}, g.Leading b c → c ∈ s.placed := fun hbc => by
      induction hbc with
      | refl => exact hb
      | tail _ hcd ih => exact hsound.closed _ _ ih hcd
    exact hsound.apart a (hon a hself) (hclosed hba)

/-- A type that reaches no older type completes its component. -/
theorem completes : Visits g opened a s₀ (s.leave a) := by
  have hopen := h.explores
  have hsound := hopen.sound
  have hpop : popTo a s.stack = (new ++ [a], s₀.stack) := by
    rw [h.stack]
    exact popTo_append new _ fun ha => lt_irrefl _ (h.above ha)
  have hmem : ∀ y, y ∈ s.stack ↔ y ∈ new ++ [a] ∨ y ∈ s₀.stack := fun y => by
    rw [h.stack_eq, List.mem_append]
  have hflatten : (s.components ++ [new ++ [a]]).flatten = s.placed ++ (new ++ [a]) := by
    rw [List.flatten_append, List.flatten_singleton]
    rfl
  have hplaced : ∀ y, y ∈ (s.components ++ [new ++ [a]]).flatten ↔ y ∈ s.placed ∨ y ∈ new ++ [a] :=
    fun y => by rw [hflatten, List.mem_append]
  have hfalling := hsound.falling
  rw [h.stack_eq] at hfalling
  rw [leave, if_pos hlow, hpop]
  refine ⟨⟨fun b => ?_, (List.pairwise_append.1 hfalling).2.1, hsound.below, fun b => ?_,
    fun b hb => ?_, ?_, fun C hC => ?_, fun b c hb hbc => (hplaced c).2 ?_, h.before.standing,
    fun b c hb ho => h.left hb ho, fun b hb => ?_, fun y hy b hb hle => ?_⟩,
    ⟨hopen.grows.index, hopen.grows.indices, hopen.grows.low, hopen.grows.fresh⟩, hopen.visited,
    ⟨[], rfl, List.forall_mem_nil _⟩, fun hlt => ?_⟩
  · dsimp only
    rw [contains_foldl_erase, hsound.onStack, hmem]
    constructor
    · exact fun hb => hb.1.resolve_left hb.2
    · exact fun hb => ⟨.inr hb, fun hnew => h.not_older hnew hb⟩
  · refine (hsound.visited b).trans (Iff.trans ?_ (or_congr_right (hplaced b).symm))
    rw [hmem]
    tauto
  · intro hp
    rcases (hplaced b).1 hp with hp | hp
    · exact hsound.apart b ((hmem b).2 (.inr hb)) hp
    · exact h.not_older hp hb
  · change ((s.components ++ [new ++ [a]]).flatten).Nodup
    rw [hflatten]
    refine List.nodup_append.2 ⟨hsound.nodup, (List.nodup_append.1 h.nodup).1,
      fun x hx y hy hxy => ?_⟩
    exact hsound.apart y ((hmem y).2 (.inl hy)) (hxy ▸ hx)
  · rcases List.mem_append.1 hC with hC | hC
    · exact hsound.components C hC
    · rw [List.mem_singleton.1 hC]
      exact h.isComponent hlow
  · rcases (hplaced b).1 hb with hb | hb
    · exact .inl (hsound.closed b c hb hbc)
    · exact (h.leads hlow hb hbc).symm
  · obtain ⟨y, hy, hle, hby⟩ := h.before.down b hb
    refine ⟨y, hy, ?_, hby⟩
    change s.number y ≤ s.number b
    rw [(h.number (h.before.standing y hy)).1, (h.number hb).1]
    exact hle
  · change s.number y ≤ s.number b at hle
    rw [(h.number (h.before.standing y hy)).1, (h.number hb).1] at hle
    exact h.before.up y hy b hb hle
  · change s.low a < s₀.index at hlt
    rw [hlow, hopen.number] at hlt
    exact absurd hlt (lt_irrefl _)

end

theorem leave : Visits g opened a s₀ (s.leave a) := by
  by_cases hlow : s.low a = s.number a
  · exact h.completes hlow
  · rw [Search.leave, if_neg hlow]
    exact h.stays hlow

end Explored

end

end Search

/-! ## Whole visits -/

open Search

/-- A fold keeps what every step keeps. -/
theorem foldl_keeps {α σ : Type} {P : List α → σ → Prop} {f : σ → α → σ} (l : List α)
    (hstep : ∀ done, ∀ b ∈ l, ∀ s, P done s → P (done ++ [b]) (f s b)) (done : List α) (s : σ)
    (h : P done s) : P (done ++ l) (l.foldl f s) := by
  induction l generalizing done s with
  | nil => rwa [List.append_nil]
  | cons b rest ih =>
    rw [← List.singleton_append, ← List.append_assoc]
    exact ih (fun done c hc => hstep done c (List.mem_cons_of_mem _ hc)) _ _
      (hstep done b (List.mem_cons_self ..) s h)

/-- A visit comes to what its edges come to. -/
theorem visit_visits {a : SymbolId} {s : Search} {opened : Set SymbolId} (h : s.Sound g opened)
    (hn : ¬s.Visited a) (hopened : ∀ y ∈ opened, g.Leading y a) :
    Visits g opened a s (g.visit a s hn).1 := by
  fun_induction visit g a s hn generalizing opened with
  | case1 a s hn s' =>
    rename_i ih
    have hs' : Explores g opened a s (g.targets a).attach.unattach s'.1 :=
      foldl_keeps (P := fun followed (s' : (s.enter a).Since) =>
          Explores g opened a s followed.unattach s'.1) _ (fun followed b _ s' hs => by
        obtain ⟨b, hab⟩ := b
        rw [List.unattach_append]
        dsimp only
        split
        · next hb => exact hs.meet hn hab hb
        · next hb =>
          have hopened' : ∀ y ∈ insert a opened, g.Leading y b := by
            rintro y (rfl | hy)
            · exact .single hab
            · exact (hopened y hy).tail hab
          exact hs.descend hn (fun _ => h.visited_of_mem) hab hb
            (ih s' b hab hb hs.sound hopened')) [] _
        (h.enter hn hopened)
    rw [List.unattach_attach] at hs'
    obtain ⟨new, hexplored⟩ := hs'.explored h
    exact hexplored.leave

/-- The search finds the component of every type that has supertypes, and each component once. -/
theorem search_components (g : Hierarchy) : (∀ C ∈ g.search.components, g.IsComponent C) ∧
    g.search.components.flatten.Nodup ∧ ∀ a ∈ g.keys, a ∈ g.search.components.flatten := by
  have hstart : ({} : Search).Sound g ∅ := by
    refine ⟨fun a => ?_, .nil, fun a ha => ?_, fun a => ?_, ?_, .nil, ?_, ?_, ?_, fun a b ha => ?_,
      ?_, ?_⟩ <;> simp_all [Visited, placed]
  obtain ⟨hsound, hvisited⟩ : g.search.Sound g ∅ ∧ ∀ a ∈ g.keys, g.search.Visited a :=
    foldl_keeps (P := fun done (s : Search) => s.Sound g ∅ ∧ ∀ a ∈ done, s.Visited a) g.keys
      (fun done a _ s ⟨hs, hdone⟩ => by
        split
        · next hv => exact ⟨hs, forall_mem_concat hdone hv⟩
        · next hv =>
          have hs' := visit_visits hs hv fun y hy => absurd hy (Set.notMem_empty y)
          exact ⟨hs'.sound,
            forall_mem_concat (fun b hb => hs'.grows.visited (hdone b hb)) hs'.visited⟩)
      [] {} ⟨hstart, List.forall_mem_nil _⟩
  refine ⟨hsound.components, hsound.nodup, fun a ha => ?_⟩
  -- without open visits nothing is on the stack
  refine ((hsound.visited a).1 (hvisited a ha)).resolve_left fun hstack => ?_
  obtain ⟨y, hy, -⟩ := hsound.down a hstack
  exact hy

end Hierarchy

end CodeAtlas
