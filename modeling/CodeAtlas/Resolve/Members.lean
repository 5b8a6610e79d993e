import CodeAtlas.Table.Basic

/-!
# Members and supertypes

What a resolver sees: the frozen symbols and the sketches of every file. From these it reads the
members of a type, its supertypes, and the members that it inherits.
-/

namespace CodeAtlas

/-- What a resolver sees (`ResolveScope`). -/
structure View where
  snapshot : Snapshot
  /-- The sketches of every file, by path. -/
  sketches : SortedMap String FileSketch := ∅
  deriving Inhabited

namespace View

open SymbolLookup

/-- What stands between the segments of names in the file of a symbol (`separator_of`). -/
def separatorOf (v : View) (s : Symbol) : String :=
  match v.sketches.get? s.file with
  | some f => f.separator
  | none => "."

/-- The fully-qualified name of a member (in `member_of`). -/
def memberName (v : View) (owner : Symbol) (member : String) : String :=
  owner.fqn ++ v.separatorOf owner ++ member

/-- The member that a symbol declares itself (`member_of`). -/
def memberOf? (v : View) (owner : Symbol) (member : String) : Option Symbol :=
  findDefined? v.snapshot (v.memberName owner member)

/-- The supertypes of a type, as far as the project defines them (`supertypes_of`). -/
def supertypesOf (v : View) (s : Symbol) : List Symbol :=
  if s.supertypeNames.isEmpty then []
  else
    match v.sketches.get? s.file with
    | none => []
    | some f =>
      let c := (Scope.ofFile f (ImportBindings.ofFile f) {}).enter f (some (f.relativeOf s.fqn))
      (s.supertypeNames.filterMap fun name => resolve? v.snapshot name c .types).filter
        fun parent => parent.fqn != s.fqn

/-- How far from a type its supertypes are searched for a member. -/
def maxDepth : Nat := 8

/-- The state of a search for an inherited member. -/
structure Search where
  seen : StringSet
  /-- Supertypes that wait, each list with its distance. -/
  queue : List (List Symbol × Nat)
  found : Option Symbol := none
  deriving Inhabited

/-- Look at one supertype. -/
def Search.visit (v : View) (member : String) (depth : Nat) (s : Search) (parent : Symbol) :
    Search :=
  if s.found.isSome || s.seen.contains parent.fqn then s
  else
    let seen := s.seen.add parent.fqn
    match v.memberOf? parent member with
    | some m => { s with seen, found := some m }
    | none =>
      if depth < maxDepth then
        { s with seen, queue := s.queue ++ [(v.supertypesOf parent, depth + 1)] }
      else { s with seen }

/-- Look at all supertypes of a list. -/
def Search.visitAll (v : View) (member : String) (depth : Nat) (parents : List Symbol)
    (s : Search) : Search :=
  parents.foldl (visit v member depth) s

theorem Search.visit_queue (v : View) (member : String) (depth : Nat) (s : Search) (p : Symbol) :
    (s.visit v member depth p).queue = s.queue ∨ depth < maxDepth ∧
      (s.visit v member depth p).queue = s.queue ++ [(v.supertypesOf p, depth + 1)] := by
  unfold Search.visit
  split
  · exact .inl rfl
  · dsimp only
    split
    · exact .inl rfl
    · split
      · next hlt => exact .inr ⟨hlt, rfl⟩
      · exact .inl rfl

/-- How many lists a search goes through that follows supertypes so many times. -/
def reach (v : View) : Nat → List Symbol → Nat
  | 0, _ => 1
  | n + 1, parents => parents.foldr (fun p k => v.reach n (v.supertypesOf p) + k) 1

/-- How many lists a queue stands for. -/
def effort (v : View) (queue : List (List Symbol × Nat)) : Nat :=
  queue.foldr (fun e k => v.reach (maxDepth - e.2) e.1 + k) 0

theorem effort_concat (v : View) (queue : List (List Symbol × Nat)) (e : List Symbol × Nat) :
    v.effort (queue ++ [e]) = v.effort queue + v.reach (maxDepth - e.2) e.1 := by
  induction queue with
  | nil => exact Nat.add_comm ..
  | cons d rest ih => exact (congrArg _ ih).trans (Nat.add_assoc ..).symm

/-- Looking at the supertypes of a list takes the list itself off the effort. -/
theorem effort_visitAll (v : View) (member : String) (depth : Nat) (parents : List Symbol)
    (s : Search) : v.effort (s.visitAll v member depth parents).queue <
      v.reach (maxDepth - depth) parents + v.effort s.queue := by
  suffices h : v.effort (s.visitAll v member depth parents).queue + 1 ≤
      v.reach (maxDepth - depth) parents + v.effort s.queue from h
  induction parents generalizing s with
  | nil =>
    have hpos : 1 ≤ v.reach (maxDepth - depth) [] := by
      cases maxDepth - depth <;> simp [reach]
    exact Nat.add_comm .. ▸ Nat.add_le_add_right hpos _
  | cons p rest ih =>
    refine Nat.le_trans (ih (s.visit v member depth p)) ?_
    rcases s.visit_queue v member depth p with hq | ⟨hlt, hq⟩
    · rw [hq]
      refine Nat.add_le_add_right ?_ _
      cases maxDepth - depth with
      | zero => exact Nat.le_refl _
      | succ n =>
        exact Nat.le_add_left ..
    · have hstep : maxDepth - depth = maxDepth - (depth + 1) + 1 := by omega
      simp only [hq, hstep, effort_concat, reach, List.foldr_cons]
      omega

/-- Search the supertypes in a queue, and those that they lead to, for a member. -/
def search (v : View) (member : String) (seen : StringSet) :
    List (List Symbol × Nat) → Option Symbol
  | [] => none
  | (parents, depth) :: queue =>
    let s := Search.visitAll v member depth parents { seen, queue }
    match s.found with
    | some m => some m
    | none => search v member s.seen s.queue
termination_by queue => v.effort queue
decreasing_by exact v.effort_visitAll member depth parents { seen, queue }

/-- The nearest member of that name that a type inherits (`inherited_member`). -/
def inheritedMember? (v : View) (owner : Symbol) (member : String) : Option Symbol :=
  v.search member (StringSet.ofList [owner.fqn]) [(v.supertypesOf owner, 1)]

end View

end CodeAtlas
