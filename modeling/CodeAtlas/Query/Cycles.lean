import CodeAtlas.Query.Basic

/-!
# Cycles in the type hierarchy

The types that can be reached from each other along the edges of the type hierarchy form a strongly
connected component. The components are found in one walk through the hierarchy: every type gets an
index when the walk comes to it, and a low link, the least index on the stack that it is known to
reach. A type whose low link stays its own index completes the component of all that stands above it
on the stack.
-/

namespace CodeAtlas

/-- The supertypes of every type that has some. -/
abbrev Hierarchy := SortedMap SymbolId IdSet

namespace Hierarchy

def targets (g : Hierarchy) (a : SymbolId) : List SymbolId := (g.getD a ∅).keys

/-- One more edge (in `inheritance_cycles`). -/
def addEdge (g : Hierarchy) (a b : SymbolId) : Hierarchy :=
  g.insert a ((g.getD a ∅).insert b ())

/-- The state of the search for components (`StronglyConnected`). -/
structure Search where
  /-- The next index. -/
  index : Nat := 0
  indices : SortedMap SymbolId Nat := ∅
  lowlink : SortedMap SymbolId Nat := ∅
  /-- The types without a component so far, the last one first. -/
  stack : List SymbolId := []
  onStack : IdSet := ∅
  components : List (List SymbolId) := []
  deriving Inhabited

namespace Search

def number (s : Search) (a : SymbolId) : Nat := s.indices.getD a 0

def low (s : Search) (a : SymbolId) : Nat := s.lowlink.getD a 0

/-- Give a type the next index and put it on the stack (in `visit`). -/
def enter (s : Search) (a : SymbolId) : Search :=
  { s with
    index := s.index + 1
    indices := s.indices.insert a s.index
    lowlink := s.lowlink.insert a s.index
    stack := a :: s.stack
    onStack := s.onStack.insert a () }

/-- Lower the low link of a type. -/
def lower (s : Search) (a : SymbolId) (n : Nat) : Search :=
  { s with lowlink := s.lowlink.insert a (min n (s.low a)) }

/-- What stands on the stack down to a type, and the rest (in `visit`). -/
def popTo (a : SymbolId) : List SymbolId → List SymbolId × List SymbolId
  | [] => ([], [])
  | b :: rest =>
    if b == a then ([b], rest)
    else
      let (component, stack) := popTo a rest
      (b :: component, stack)

/-- Leave a type (in `visit`). If nothing with a smaller index on the stack can be reached from it,
the types down to it are a component. -/
def leave (s : Search) (a : SymbolId) : Search :=
  if s.low a = s.number a then
    let (component, stack) := popTo a s.stack
    { s with
      stack
      onStack := component.foldl SortedMap.erase s.onStack
      components := s.components ++ [component] }
  else s

/-- A type has an index. -/
def Visited (s : Search) (a : SymbolId) : Prop := s.indices.contains a = true

/-- The states from `s` on: no type loses its index. -/
abbrev Since (s : Search) := {s' : Search // ∀ a, s.Visited a → s'.Visited a}

theorem indices_leave (s : Search) (a : SymbolId) : (s.leave a).indices = s.indices := by
  unfold leave
  split <;> rfl

theorem visited_enter {s : Search} {a b : SymbolId} :
    (s.enter a).Visited b ↔ b = a ∨ s.Visited b := by
  rw [Visited, Visited, SortedMap.contains, enter, SortedMap.get?_insert]
  by_cases h : b = a <;> simp [h, SortedMap.contains]

end Search

open Search

/-- How many types that have supertypes are not visited. -/
def unvisited (g : Hierarchy) (s : Search) : Nat := g.keys.countP fun a => !s.indices.contains a

theorem mem_keys_of_mem_targets {g : Hierarchy} {a b : SymbolId} (h : b ∈ g.targets a) :
    a ∈ g.keys := by
  rw [targets, SortedMap.getD] at h
  cases hget : g.get? a with
  | none =>
    rw [hget] at h
    cases h
  | some l => exact List.mem_map.2 ⟨_, SortedMap.mem_of_find? hget, rfl⟩

/-- A visit leaves fewer types to those that begin in it. -/
theorem unvisited_lt {g : Hierarchy} {a b : SymbolId} {s : Search} (hab : b ∈ g.targets a)
    (hn : ¬s.Visited a) (s' : (s.enter a).Since) : g.unvisited s'.1 < g.unvisited s := by
  obtain ⟨l, l', hkeys⟩ := List.append_of_mem (mem_keys_of_mem_targets hab)
  have hle (l : List SymbolId) : l.countP (fun c => !s'.1.indices.contains c) ≤
      l.countP fun c => !s.indices.contains c :=
    List.countP_mono_left fun c _ hc => by
      rw [Bool.not_eq_true', ← Bool.not_eq_true] at hc ⊢
      exact fun hv => hc (s'.2 c (visited_enter.2 (.inr hv)))
  have ha : s'.1.indices.contains a = true := s'.2 a (visited_enter.2 (.inl rfl))
  have hn : s.indices.contains a = false := eq_false_of_ne_true hn
  have hleft := hle l
  have hright := hle l'
  simp only [unvisited, hkeys, List.countP_append, List.countP_cons, ha, hn, Bool.not_true,
    Bool.not_false, Bool.false_eq_true, if_false, if_true]
  omega

/-- Visit a type that has no index (`visit`). No visit takes an index away, so fewer and fewer types
are left and the recursion ends. -/
def visit (g : Hierarchy) (a : SymbolId) (s : Search) (_hn : ¬s.Visited a) : s.Since :=
  let s' : (s.enter a).Since := (g.targets a).attach.foldl (fun s' ⟨b, hb⟩ =>
    if h : s'.1.indices.contains b then
      ⟨if s'.1.onStack.contains b then s'.1.lower a (s'.1.number b) else s'.1,
        by split <;> exact s'.2⟩
    else
      let s'' := g.visit b s'.1 h
      ⟨s''.1.lower a (s''.1.low b), fun c hc => s''.2 c (s'.2 c hc)⟩) ⟨s.enter a, fun _ => id⟩
  ⟨s'.1.leave a, fun c hc => by
    rw [Visited, indices_leave]
    exact s'.2 c (visited_enter.2 (.inr hc))⟩
termination_by g.unvisited s
decreasing_by exact unvisited_lt hb _hn s'

/-- Visit every type that has supertypes and no index (`StronglyConnected::of`). -/
def search (g : Hierarchy) : Search :=
  g.keys.foldl (fun s a => if h : s.indices.contains a then s else g.visit a s h) {}

/-- Whether a component has a cycle: two types, or an edge from a type to itself. -/
def isCyclic (g : Hierarchy) : List SymbolId → Bool
  | [] => false
  | [a] => (g.getD a ∅).contains a
  | _ => true

/-- The components that have a cycle. -/
def cycles (g : Hierarchy) : List (List SymbolId) :=
  g.search.components.filter g.isCyclic

end Hierarchy

namespace Table

/-- The hierarchy of the types in a table (in `inheritance_cycles`). -/
def hierarchy (t : Table) : Hierarchy :=
  (t.allEdges.filter fun e => e.type.isHierarchy).foldl (fun g e => g.addEdge e.source e.target) ∅

/-- The order of lists of names. -/
def namesAtMost (a b : List String) : Bool := compare a b != .gt

/-- The cycles of the type hierarchy, each as a sorted list of names, and sorted
(`inheritance_cycles`). -/
def inheritanceCycles (t : Table) : List (List String) :=
  (t.hierarchy.cycles.map fun c =>
    (c.map t.label).mergeSort fun a b => compare a b != .gt).mergeSort namesAtMost

end Table

end CodeAtlas
