/-!
# Errors and diagnostics

Why an operation was refused, why a file has no result in a run, and what a run wants to report.
The wording of every cause is in one place (`AtlasError.message`, `SinkError.message`).
-/

namespace CodeAtlas

/-- Why a store refused a batch. -/
inductive SinkError where
  /-- The storage itself failed. -/
  | storage (detail : String)
  /-- The store did not take the batch. -/
  | rejected (detail : String)
  deriving DecidableEq, Repr, Inhabited

def SinkError.message : SinkError → String
  | .storage detail => "storage error: " ++ detail
  | .rejected detail => "batch rejected: " ++ detail

/-- Why an operation on the graph failed (`CoreError`). -/
inductive AtlasError where
  /-- A file gave no sketches. -/
  | parseFailure (path detail : String)
  /-- Work on a file took longer than allowed. -/
  | timeout (path : String) (millis : Nat)
  /-- A store refused a batch for good. -/
  | sinkWriteFailure (files attempts : Nat) (cause : SinkError)
  /-- Symbols or edges that do not belong together; nothing was written. -/
  | invalidSymbols (path detail : String)
  /-- The table contradicts itself; the run must stop. -/
  | tableCorruption (detail : String)
  /-- No collector reads the language. -/
  | unsupportedLanguage (language : String)
  /-- Work on a file ended with an error. -/
  | taskFailed (path detail : String)
  /-- Work on a file broke down. -/
  | taskPanicked (path detail : String)
  deriving DecidableEq, Repr, Inhabited

namespace AtlasError

def message : AtlasError → String
  | parseFailure path detail => "parse failure in " ++ path ++ ": " ++ detail
  | timeout path millis =>
    path ++ " exceeded the per-file timeout of " ++ toString millis ++ " ms"
  | sinkWriteFailure files attempts cause =>
    "sink rejected a batch of " ++ toString files ++ " file(s) after " ++ toString attempts
      ++ " attempt(s): " ++ cause.message
  | invalidSymbols path detail => "invalid symbol set for " ++ path ++ ": " ++ detail
  | tableCorruption detail => "symbol table corrupted: " ++ detail
  | unsupportedLanguage language => "no collector registered for language '" ++ language ++ "'"
  | taskFailed path detail => "task for " ++ path ++ " failed: " ++ detail
  | taskPanicked path detail => "task for " ++ path ++ " panicked: " ++ detail

/-- Whether the run must stop (`is_fatal`). -/
def isFatal : AtlasError → Bool
  | tableCorruption _ => true
  | _ => false

end AtlasError

/-- What a run can report without failing. -/
inductive DiagnosticKind where
  | duplicateFqn
  | resolutionAmbiguity
  | parseFailure
  | syntaxError
  | timeout
  | taskFailure
  | sinkWriteFailure
  deriving DecidableEq, Repr, Inhabited

def DiagnosticKind.name : DiagnosticKind → String
  | .duplicateFqn => "duplicate_fqn"
  | .resolutionAmbiguity => "resolution_ambiguity"
  | .parseFailure => "parse_failure"
  | .syntaxError => "syntax_error"
  | .timeout => "timeout"
  | .taskFailure => "task_failure"
  | .sinkWriteFailure => "sink_write_failure"

/-- One report about a file. -/
structure Diagnostic where
  kind : DiagnosticKind
  file : String
  message : String
  deriving DecidableEq, Repr, Inhabited

end CodeAtlas
