import CodeAtlas.Command.Spec
import CodeAtlas.Text.Split

/-!
# Reading a command line

The arguments of a call are matched with the description of a command. A call asks for something, or
for a text such as the help, or it is wrong.
-/

namespace CodeAtlas

/-- The arguments of a command. -/
inductive Matched where
  | mk (options : List (String × String)) (positionals : List String)
    (command : Option (String × Matched))
  deriving Inhabited

namespace Matched

/-- The values of options by their long names; a flag has an empty value. -/
def options : Matched → List (String × String)
  | mk options _ _ => options

def positionals : Matched → List String
  | mk _ positionals _ => positionals

/-- The command below, with its arguments. -/
def command : Matched → Option (String × Matched)
  | mk _ _ command => command

def option? (m : Matched) (long : String) : Option String := List.lookup long m.options

end Matched

/-- Why a call gives no arguments. -/
inductive CallFault where
  /-- The call is wrong. -/
  | misuse
  /-- The call asks for the help of a command. -/
  | help (text : String)
  | version
  deriving DecidableEq, Repr, Inhabited

namespace CommandSpec

/-- What was read so far of the arguments of one command. -/
structure Progress where
  options : List (String × String) := []
  positionals : List String := []
  /-- Whether the last argument was wrong. This counts only when the next option or value is read,
  or at the end: a command that follows, or a call for help, comes first. -/
  wrong : Bool := false
  /-- Whether all that follows is positional. -/
  trailing : Bool := false
  deriving Inhabited

/-- Whether an argument looks like an option. -/
def looksLikeOption (arg : String) : Bool := Text.hasPrefix "-" arg && arg != "-"

/-- Go on only if the last argument was right. -/
def Progress.settle (p : Progress) : Except CallFault Progress :=
  if p.wrong then .error .misuse else .ok p

/-- Note an option; each may stand once, with a value that it accepts. -/
def Progress.set (p : Progress) (o : OptionSpec) (value : String) : Progress :=
  let accepted := match o.value with
    | some v => v.accepts value
    | none => true
  if accepted && !(p.options.any fun x => x.1 == o.long) then
    { p with options := p.options ++ [(o.long, value)] }
  else { p with wrong := true }

/-- Note a positional argument. -/
def Progress.push (p : Progress) (c : CommandSpec) (arg : String) : Except CallFault Progress :=
  let spec := (c.positionals[p.positionals.length]?).or
    (c.positionals.getLast?.filter (·.many))
  match spec with
  | some s =>
    .ok { p with positionals := p.positionals ++ [arg], wrong := !s.accepts arg }
  | none => .error .misuse

/-- Apply an option, which may take the next argument. Only that argument may still turn out to be
wrong later. -/
def applyOption (help : CallFault) (p : Progress) (o : OptionSpec) (attached : Option String)
    (rest : List String) : Except CallFault (Progress × List String) :=
  match o.value, attached, rest with
  | some _, some v, _ => (p.set o v).settle.map (·, rest)
  | some _, none, v :: rest => if looksLikeOption v then .error .misuse else .ok (p.set o v, rest)
  | some _, none, [] => .error .misuse
  | none, some _, _ => .error .misuse
  | none, none, _ =>
    if o.long == "help" then .error help
    else if o.long == "version" then .error .version
    else (p.set o "").settle.map (·, rest)

/-- Apply the short options of one argument. A value may follow at once, also after an equals
sign. -/
def applyShorts (options : List OptionSpec) (help : CallFault) :
    List Char → Progress → List String → Except CallFault (Progress × List String)
  | [], p, rest => .ok (p, rest)
  | c :: cs, p, rest =>
    match options.find? fun o => o.short == c with
    | none => .error .misuse
    | some o =>
      if o.value.isSome then
        let attached := match cs with
          | [] => none
          | '=' :: value => some (String.ofList value)
          | value => some (String.ofList value)
        applyOption help p o attached rest
      else do
        let (p, rest) ← applyOption help p o none rest
        applyShorts options help cs p rest

def applyLong (options : List OptionSpec) (help : CallFault) (arg : String) (p : Progress)
    (rest : List String) : Except CallFault (Progress × List String) :=
  let (name, attached) := match Text.splitOnce? "=" arg with
    | some (name, value) => (name, some value)
    | none => (arg, none)
  match options.find? fun o => o.long == name with
  | none => .error .misuse
  | some o => applyOption help p o attached rest

/-- The help of the command that names lead to. -/
def helpOf (c : CommandSpec) (path : String) (versioned : Bool) : List String → CallFault
  | [] => .help (c.help path versioned)
  | name :: rest =>
    match c.command? name with
    | some x => x.helpOf (c.pathBelow path name) false rest
    | none =>
      if name == "help" && !c.commands.isEmpty && rest.isEmpty then
        .help (c.helpOnHelp path)
      else .misuse

/-- What a finished command line is lacking: options, positional arguments or a command. -/
def finish (c : CommandSpec) (p : Progress) (command : Option (String × Matched)) :
    Except CallFault Matched :=
  let missing := c.options.any fun o =>
    o.value.any (·.required) && !(p.options.any fun x => x.1 == o.long)
  if p.wrong || missing || p.positionals.length < c.positionals.length
      || (command.isNone && !c.commands.isEmpty) then .error .misuse
  else .ok (.mk p.options p.positionals command)

/-- Match arguments with a command; `fuel` bounds the number of arguments. -/
def matchArgs : Nat → CommandSpec → String → Bool → Progress → List String →
    Except CallFault Matched
  | 0, _, _, _, _, _ => .error .misuse
  | _ + 1, c, _, _, p, [] => c.finish p none
  | fuel + 1, c, path, versioned, p, arg :: rest =>
    let help : CallFault := .help (c.help path versioned)
    let goOn (read : Progress → Except CallFault (Progress × List String)) :
        Except CallFault Matched := do
      let (p, rest) ← read (← p.settle)
      matchArgs fuel c path versioned p rest
    let place (p : Progress) : Except CallFault (Progress × List String) :=
      (p.push c arg).map (·, rest)
    let expectsMore := (c.positionals[p.positionals.length - 1]?).any (·.many)
      && 0 < p.positionals.length
    if p.trailing then goOn place
    else if arg == "--" then matchArgs fuel c path versioned { p with trailing := true } rest
    else
      match if expectsMore then none else c.command? arg with
      | some x => do
        let inner ← matchArgs fuel x (c.pathBelow path arg) false {} rest
        c.finish p (some (arg, inner))
      | none =>
        if arg == "help" && !c.commands.isEmpty && !expectsMore then
          .error (c.helpOf path versioned rest)
        else
          match Text.dropPrefix? "--" arg with
          | some long => goOn (applyLong (c.allOptions versioned) help long · rest)
          | none =>
            if looksLikeOption arg then
              goOn (applyShorts (c.allOptions versioned) help (arg.toList.drop 1) · rest)
            else goOn place

/-- Match the arguments of a call with a program. -/
def matchCall (c : CommandSpec) (args : List String) : Except CallFault Matched :=
  matchArgs (args.length + 1) c c.name true {} args

end CommandSpec

end CodeAtlas
