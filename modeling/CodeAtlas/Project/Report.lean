import CodeAtlas.Error

/-!
# Reports of a run
-/

namespace CodeAtlas

/-- The passes of a run over files (`FailureStage`). -/
inductive Pass where
  | collect
  | resolve
  | enrich
  deriving DecidableEq, Repr, Inhabited

def Pass.name : Pass → String
  | .collect => "Collect"
  | .resolve => "Resolve"
  | .enrich => "Enrich"

/-- A file without a result in a pass. -/
structure FileFailure where
  path : String
  pass : Pass
  error : String
  deriving DecidableEq, Repr, Inhabited

/-- What a run did. -/
structure RunReport where
  filesCollected : Nat := 0
  /-- Unchanged files that needed no work. -/
  filesSkipped : Nat := 0
  filesRemoved : Nat := 0
  /-- Files with newly computed edges, in order. -/
  resolved : List String := []
  failures : List FileFailure := []
  symbols : Nat := 0
  edges : Nat := 0
  /-- Edges of this run to placeholders. -/
  unresolved : Nat := 0
  cancelled : Bool := false
  diagnostics : List Diagnostic := []
  sinkFailures : Nat := 0
  deriving Inhabited

namespace RunReport

/-- Whether the collection of a file failed (`has_parse_failures`). -/
def hasParseFailures (r : RunReport) : Bool := r.failures.any fun f => f.pass == .collect

def fail (r : RunReport) (path : String) (pass : Pass) (error : String) : RunReport :=
  { r with failures := r.failures ++ [⟨path, pass, error⟩] }

end RunReport

end CodeAtlas
