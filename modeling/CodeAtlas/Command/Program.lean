import CodeAtlas.Command.Arguments
import CodeAtlas.Decimal.Reader
import CodeAtlas.Project.Open
import CodeAtlas.Query.Codec
import CodeAtlas.Settings.File

/-!
# The program

The command line of the program over a workspace: it resolves or updates a project, answers
questions about its graph, and lists the languages. `runProgram` is a function from the arguments
and the workspace to what is printed and the workspace afterwards.
-/

namespace CodeAtlas

/-! ## The command line -/

/-- Whether a text is a whole number below `2 ^ 64`. -/
def count? (s : String) : Option Nat :=
  let ds := match s.toList with
    | '+' :: ds => ds
    | ds => ds
  if ds.isEmpty || !ds.all Decimal.isDigit then none
  else
    let n := Decimal.ofDigits ds
    if n < UInt64.size then some n else none

/-- Whether a text can be a path. -/
def isPath (s : String) : Bool := s != ""

/-- The folder of a project. -/
def rootArgument : PositionalSpec :=
  { name := "ROOT", about := "Path to the project root", accepts := isPath }

/-- The symbol that a question is about. -/
def symbolOption (about : String) : OptionSpec :=
  { short := 's', long := "symbol", about, value := some { name := "SYMBOL", required := true } }

def questionSpecs : List CommandSpec := [
  .mk "definition" "Find a definition by FQN or short name" [symbolOption ""] [] [],
  .mk "references" "Incoming edges of a symbol" [symbolOption "Fully-qualified name",
    { short := 'l', long := "limit", about := "Maximum number of results"
      value := some { name := "LIMIT", accepts := fun s => (count? s).isSome
                      default := some "100" } }] [] [],
  .mk "low-confidence" "Edges scored below a threshold" [
    { short := 't', long := "threshold"
      value := some { name := "THRESHOLD", accepts := fun s => (Decimal.parse? s).isSome
                      default := some "0.5" } }] [] [],
  .mk "cycles" "Cycles in the type hierarchy" [] [] [],
  .mk "summary" "Node and edge counts" [] [] []]

/-- The command line of the program (`Cli`). -/
def programSpec : CommandSpec :=
  .mk "symgraph" "symgraph - cross-file symbol resolution and code knowledge graph"
    [{ short := 'c', long := "config"
       about := "Path to configuration file (defaults to <root>/" ++ settingsFile ++ ")"
       value := some { name := "FILE", accepts := isPath } },
      { short := 'v', long := "verbose", about := "Enable verbose logging" }]
    [] [
      .mk "resolve" "Resolve a whole project, reusing the stored state of the previous run" []
        [rootArgument] [],
      .mk "update" "Re-resolve only the given files (relative to the root)" []
        [rootArgument,
          { name := "PATHS", about := "Changed, added or deleted files", many := true }] [],
      .mk "query" "Query the stored graph" [] [rootArgument] questionSpecs,
      .mk "languages" "List supported languages" [] [] []]

def programVersion : String := "symgraph 0.1.0"

/-! ## Calls -/

/-- A question to a stored graph (`QueryCommands`). -/
inductive Question where
  | definition (symbol : String)
  | references (symbol : String) (limit : Nat)
  | lowConfidence (threshold : Float)
  | cycles
  | summary
  deriving Repr, Inhabited

/-- What a call asks for (`Commands`). -/
inductive Action where
  | resolve (root : String)
  | update (root : String) (paths : List String)
  | query (root : String) (question : Question)
  | languages
  deriving Repr, Inhabited

/-- A call of the program. -/
structure Call where
  /-- A settings file other than that of the project. -/
  config : Option String := none
  action : Action
  deriving Repr, Inhabited

def Question.ofMatched? (name : String) (m : Matched) : Option Question :=
  let symbol := (m.option? "symbol").getD ""
  match name with
  | "definition" => some (.definition symbol)
  | "references" => some (.references symbol (((m.option? "limit").bind count?).getD 100))
  | "low-confidence" =>
    some (.lowConfidence (((m.option? "threshold").bind Decimal.parse?).getD 0.5))
  | "cycles" => some .cycles
  | "summary" => some .summary
  | _ => none

def Action.ofMatched? (name : String) (m : Matched) : Option Action :=
  match name, m.positionals, m.command with
  | "resolve", root :: _, _ => some (.resolve root)
  | "update", root :: paths, _ => some (.update root paths)
  | "query", root :: _, some (q, inner) => (Question.ofMatched? q inner).map (.query root)
  | "languages", _, _ => some .languages
  | _, _, _ => none

/-- The call that arguments stand for. -/
def Call.ofArgs (args : List String) : Except CallFault Call := do
  let m ← programSpec.matchCall args
  match m.command.bind fun (name, inner) => Action.ofMatched? name inner with
  | some action => return { config := m.option? "config", action }
  | none => .error .misuse

/-- The folder that a call works in (`project_root`). -/
def Action.root? : Action → Option String
  | .resolve root | .update root _ | .query root _ => some root
  | .languages => none

/-! ## Running -/

/-- What a call prints, and its exit code. -/
structure Printed where
  exit : Nat := 0
  stdout : String := ""
  stderr : String := ""
  deriving DecidableEq, Repr, Inhabited

def Printed.failure (message : String) : Printed :=
  { exit := 1, stderr := "Error: " ++ message ++ "\n" }

/-- The answer to a call that is wrong. -/
def Printed.misuse : Printed where
  exit := 2
  stderr := "error: invalid arguments\n\n" ++ programSpec.usage programSpec.name
    ++ "\nFor more information, try '--help'.\n"

/-- The text of a file, if it is text. -/
def Workspace.readText? (w : Workspace) (path : String) : Option String :=
  (w.read? path).bind fun bytes =>
    let s := Text.ofBytes bytes
    if Text.toBytes s == bytes then some s else none

/-- The settings in a file (`Config::from_file`). -/
def Workspace.readSettings (w : Workspace) (path : String) : Except String Settings :=
  match w.readText? path with
  | none => .error ("Failed to read config: " ++ Text.quote path)
  | some s =>
    match Settings.parse? s with
    | some settings => .ok settings
    | none => .error ("Invalid config: " ++ Text.quote path)

/-- The settings of a project (`discover`): those of its settings file, or the defaults. -/
def Workspace.discoverSettings (w : Workspace) (root : String) : Except String Settings :=
  let path := Path.join root settingsFile
  if w.isFile path then w.readSettings path else .ok {}

/-- The settings of a call (`load_config`). -/
def Call.settings (c : Call) (w : Workspace) : Except String Settings :=
  match c.config, c.action.root? with
  | some path, _ => w.readSettings path
  | none, some root => w.discoverSettings root
  | none, none => .ok {}

/-- What is printed on a run (`print_report`). -/
def RunReport.printed (r : RunReport) : Printed where
  exit := if r.hasParseFailures then 1 else 0
  stdout :=
    "files: " ++ toString r.filesCollected ++ " collected, " ++ toString r.filesSkipped
      ++ " unchanged, " ++ toString r.filesRemoved ++ " removed, " ++ toString r.resolved.length
      ++ " resolved\n" ++ "graph: " ++ toString r.symbols ++ " symbols, " ++ toString r.edges
      ++ " edges, " ++ toString r.unresolved ++ " unresolved\n"
  stderr :=
    (if r.sinkFailures == 0 then ""
      else toString r.sinkFailures
        ++ " batch(es) could not be written; their files will be retried next run\n")
      ++ (if r.cancelled then "run cancelled; unfinished files keep their previous state\n" else "")
      ++ String.join (r.failures.map fun f => "error: " ++ f.path ++ ": " ++ f.error ++ "\n")

def Question.answer (t : Table) : Question → Except String Json
  | .definition symbol => .ok (.array ((t.definitions symbol).map SymbolInfo.toJson))
  | .references symbol limit =>
    match t.references? symbol with
    | some r => .ok (r.toJson limit)
    | none => .error ("Symbol '" ++ symbol ++ "' not found")
  | .lowConfidence threshold => .ok (.array ((t.lowConfidence threshold).map EdgeInfo.toJson))
  | .cycles => .ok (.array (t.inheritanceCycles.map .strings))
  | .summary => .ok t.graphSize.toJson

def languagesText : String :=
  "Supported languages:\n" ++ String.join (Registry.standard.collectors.map fun c =>
    "  - " ++ c.language ++ " (extensions: " ++ ", ".intercalate c.extensions ++ ")\n")

/-- Run over a project, keep its database, and print the report. -/
def runProject (w : Workspace) (root : String) (settings : Settings)
    (run : Workspace → Controller Database →
      Except (ProjectFault Database) (RunReport × Controller Database)) : Printed × Workspace :=
  match w.openProject root settings with
  | .error e => (.failure e.message, w)
  | .ok (c, w) =>
    match run w c with
    | .ok (report, c) => (report.printed, w.keep c)
    | .error (.halted h) => (.failure h.error.message, w.keep h.controller)
    | .error fault => (.failure fault.message, w)

/-- Do what a call asks for. -/
def Action.run (k : Conditions) (w : Workspace) (settings : Settings) : Action → Printed × Workspace
  | .resolve root => runProject w root settings (Controller.sync k)
  | .update root paths => runProject w root settings fun w => Controller.update k w paths
  | .query root question =>
    match w.openProject root settings with
    | .error e => (.failure e.message, w)
    | .ok (c, w) =>
      match question.answer c.table with
      | .ok j => ({ stdout := j.pretty ++ "\n" }, w)
      | .error message => (.failure message, w)
  | .languages => ({ stdout := languagesText }, w)

def runProgram (k : Conditions) (args : List String) (w : Workspace) : Printed × Workspace :=
  match Call.ofArgs args with
  | .error .misuse => (.misuse, w)
  | .error (.help text) => ({ stdout := text }, w)
  | .error .version => ({ stdout := programVersion ++ "\n" }, w)
  | .ok c =>
    match c.settings w with
    | .error message => (.failure message, w)
    | .ok settings => c.action.run k w settings

end CodeAtlas
