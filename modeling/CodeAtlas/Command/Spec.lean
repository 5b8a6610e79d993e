/-!
# Descriptions of a command line

What a command takes: options, positional arguments and further commands. `CommandSpec.help` is the
text that explains a command.
-/

namespace CodeAtlas

/-- The value that an option takes. -/
structure ValueSpec where
  /-- The name of the value in the help text. -/
  name : String
  /-- Whether a text is a value. -/
  accepts : String → Bool := fun _ => true
  default : Option String := none
  required : Bool := false

/-- An option; without a value it is a flag. -/
structure OptionSpec where
  short : Char
  long : String
  about : String := ""
  value : Option ValueSpec := none

structure PositionalSpec where
  name : String
  about : String
  accepts : String → Bool := fun _ => true
  /-- Whether there may be more than one. -/
  many : Bool := false

inductive CommandSpec where
  | mk (name about : String) (options : List OptionSpec) (positionals : List PositionalSpec)
    (commands : List CommandSpec)

namespace CommandSpec

def name : CommandSpec → String
  | mk name _ _ _ _ => name

def about : CommandSpec → String
  | mk _ about _ _ _ => about

def options : CommandSpec → List OptionSpec
  | mk _ _ options _ _ => options

/-- The positional arguments of a command, all of them required. -/
def positionals : CommandSpec → List PositionalSpec
  | mk _ _ _ positionals _ => positionals

/-- The commands below a command, one of which is required. -/
def commands : CommandSpec → List CommandSpec
  | mk _ _ _ _ commands => commands

/-- The command below with a name. -/
def command? (c : CommandSpec) (name : String) : Option CommandSpec :=
  c.commands.find? fun x => x.name == name

end CommandSpec

/-! ## Help -/

/-- An option as it is written. -/
def OptionSpec.written (o : OptionSpec) : String :=
  "-" ++ o.short.toString ++ ", --" ++ o.long
    ++ (match o.value with
      | some v => " <" ++ v.name ++ ">"
      | none => "")

/-- What the help text says on an option. -/
def OptionSpec.explained (o : OptionSpec) : String :=
  let parts := [o.about] ++ (match o.value.bind (·.default) with
    | some d => ["[default: " ++ d ++ "]"]
    | none => [])
  " ".intercalate (parts.filter (· != ""))

/-- A positional argument as it is written. -/
def PositionalSpec.written (p : PositionalSpec) : String :=
  "<" ++ p.name ++ ">" ++ if p.many then "..." else ""

/-- Two columns of text, under a title. -/
def helpSection (title : String) (rows : List (String × String)) : String :=
  let width := rows.foldl (fun w r => max w r.1.length) 0
  title ++ ":\n" ++ String.join (rows.map fun (left, right) =>
    "  " ++ left ++ String.ofList (List.replicate (width - left.length) ' ') ++ "  " ++ right
      ++ "\n")

namespace CommandSpec

/-- The options of a command with those that every command has. -/
def allOptions (c : CommandSpec) (versioned : Bool) : List OptionSpec :=
  c.options ++ [{ short := 'h', long := "help", about := "Print help" }]
    ++ if versioned then [{ short := 'V', long := "version", about := "Print version" }] else []

/-- How a command is called; `path` is the written path of the command. -/
def usage (c : CommandSpec) (path : String) : String :=
  let isRequired (o : OptionSpec) : Bool := o.value.any (·.required)
  let parts := [path] ++ (if c.options.any fun o => !isRequired o then ["[OPTIONS]"] else [])
    ++ (c.options.filter isRequired).map (fun o =>
      "--" ++ o.long ++ " <" ++ ((o.value.map (·.name)).getD "") ++ ">")
    ++ c.positionals.map (·.written) ++ if c.commands.isEmpty then [] else ["<COMMAND>"]
  "Usage: " ++ " ".intercalate parts ++ "\n"

/-- What the command for help does, which every command with commands below has. -/
def helpAbout : String := "Print this message or the help of the given subcommand(s)"

/-- The text that explains a command. -/
def help (c : CommandSpec) (path : String) (versioned : Bool) : String :=
  let commands := if c.commands.isEmpty then []
    else [helpSection "Commands" (c.commands.map (fun x => (x.name, x.about))
      ++ [("help", helpAbout)])]
  let arguments := if c.positionals.isEmpty then []
    else [helpSection "Arguments" (c.positionals.map fun p => (p.written, p.about))]
  let options := [helpSection "Options"
    ((c.allOptions versioned).map fun o => (o.written, o.explained))]
  "\n".intercalate ([c.about ++ "\n", c.usage path] ++ commands ++ arguments ++ options)

/-- The written path of a command below another. -/
def pathBelow (c : CommandSpec) (path name : String) : String :=
  " ".intercalate ([path] ++ c.positionals.map (·.written) ++ [name])

/-- The text that explains the command for help below a command. -/
def helpOnHelp (c : CommandSpec) (path : String) : String :=
  "\n".intercalate [helpAbout ++ "\n", "Usage: " ++ c.pathBelow path "help" ++ " [COMMAND]...\n",
    helpSection "Arguments" [("[COMMAND]...", "Print help for the subcommand(s)")]]

end CommandSpec

end CodeAtlas
