import CodeAtlas.Sketch.Basic

/-!
# Literals of variables

Which literal a variable holds on a line: the one assigned last, in the same scope, on that line or
before. The assignments of a file are grouped by scope and variable and every group is sorted, so
their order does not matter; a look-up goes through a group from its end.
-/

namespace CodeAtlas

/-- A variable of a scope. -/
structure Variable where
  scope : Option String
  name : String
  deriving DecidableEq, Repr, Inhabited

namespace Variable

instance : Ord Variable := ⟨compareLex (compareOn Variable.scope) (compareOn Variable.name)⟩

instance : Std.TransOrd Variable :=
  inferInstanceAs (Std.TransCmp (compareLex (compareOn Variable.scope) (compareOn Variable.name)))

instance : Std.LawfulEqOrd Variable where
  eq_of_compare {a b} h := by
    cases a; cases b
    change compareLex _ _ _ _ = .eq at h
    simpa only [compareLex, compareOn, Ordering.then_eq_eq, Std.compare_eq_iff_eq,
      Variable.mk.injEq] using h

end Variable

/-- The literals of every variable of a file, each with its line. -/
structure LiteralBindings where
  byScope : SortedMap Variable (List (UInt32 × String)) := ∅
  deriving Repr, Inhabited

namespace LiteralBindings

/-- The order of the literals of a variable: by line, on one line by text. -/
def atMost (a b : UInt32 × String) : Bool :=
  decide (a.1 < b.1) || (a.1 == b.1 && decide (a.2 ≤ b.2))

/-- Add an assignment to the others of its variable. -/
def record (m : SortedMap Variable (List (UInt32 × String))) (a : LiteralAssignment) :
    SortedMap Variable (List (UInt32 × String)) :=
  m.alter ⟨a.scope, a.name⟩ fun values => some (values.getD [] ++ [(a.line, a.literal)])

/-- The literals of a file (`from_assignments`). -/
def ofAssignments (assignments : List LiteralAssignment) : LiteralBindings :=
  ⟨(assignments.foldl record ∅).mapValues fun _ values => values.mergeSort atMost⟩

/-- The literal that the variable `name` holds in `scope` on `line` (`lookup`). -/
def lookup? (b : LiteralBindings) (scope : Option String) (name : String) (line : UInt32) :
    Option String :=
  (b.byScope.get? ⟨scope, name⟩).bind fun values =>
    (values.reverse.find? fun value => value.1 ≤ line).map (·.2)

end LiteralBindings

end CodeAtlas
