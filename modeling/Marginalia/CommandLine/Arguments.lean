/-
# Command line arguments

The arguments are a command with its own options and arguments, among options
that hold for every command and may stand before or after it. A value follows
its option or is joined to it; short options may be written together. What is
given twice at one place, has no value, or is not known is refused.

Key definitions: `OptionSpec`, `Stage`, `Scan`, `scan`, `Invocation`, `Request.ofArguments`.
-/
import Marginalia.Block.Tag
import Marginalia.FileTree.Path
import Marginalia.Placement.Basic

namespace Marginalia
namespace CommandLine

/-! ### Reading options -/

/-- What a value has to be. -/
inductive ValueKind where
  /-- The path of a file or folder, which is not empty. -/
  | path
  /-- The name of a position. -/
  | position
  /-- Any text. -/
  | text
deriving DecidableEq, Repr

/-- Whether the text is such a value. -/
def ValueKind.accepts : ValueKind → String → Bool
  | path, s => s != ""
  | position, s => (Position.ofName? s).isSome
  | text, _ => true

/-- An option that may be given. -/
structure OptionSpec where
  /-- The name after two hyphens. -/
  long : String
  /-- The letter after one hyphen. -/
  short : Option Char := none
  /-- The value that belongs to it; none belongs to a switch. -/
  value : Option ValueKind := none
deriving DecidableEq, Repr

/-- What may be given at one place: in front of the command, or after it. -/
structure Stage where
  /-- The options. -/
  options : List OptionSpec
  /-- Whether a command comes next; only here the version can be asked for. -/
  beforeCommand : Bool := false
  /-- The number of other arguments, where it has a bound. -/
  room : Option Nat := none
  /-- What the other arguments have to be. -/
  argument : ValueKind := .text
deriving DecidableEq, Repr

/-- What was read of the arguments. -/
structure Given where
  /-- The options by their names, each with its value; the value of a switch is empty. -/
  options : List (String × String) := []
  /-- The other arguments. -/
  arguments : List String := []
deriving DecidableEq, Repr

namespace Given

/-- Whether the option was given. -/
def has (g : Given) (name : String) : Bool := g.options.any (·.1 == name)

/-- The value of an option. -/
def value? (g : Given) (name : String) : Option String := g.options.lookup name

/-- Adds an option that was not given before, with a value that it accepts. -/
def add? (g : Given) (o : OptionSpec) (value : String) : Option Given :=
  if g.has o.long || o.value.any (fun k => !k.accepts value) then none
  else some { g with options := g.options ++ [(o.long, value)] }

/-- Adds other arguments, if they may be given here. -/
def addArguments? (g : Given) (st : Stage) (args : List String) : Option Given :=
  let all := g.arguments ++ args
  if st.room.any (· < all.length) || !all.all st.argument.accepts then none
  else some { g with arguments := all }

end Given

/-- What reading arguments ends with. -/
inductive Scan where
  /-- An argument is refused. -/
  | refused
  /-- The help text is asked for. -/
  | help
  /-- The version is asked for. -/
  | version
  /-- All was read up to a command, if commands are expected; the rest follows it. -/
  | done (given : Given) (command : Option String) (rest : List String)
deriving DecidableEq, Repr

/-- What a run of short options comes to: options in order, of which the last may still lack its
value. -/
inductive Cluster where
  /-- A letter is not known. -/
  | refused
  /-- The help text is asked for. -/
  | help
  /-- The version is asked for. -/
  | version
  /-- All options are complete. -/
  | done (given : Given)
  /-- The value of the last option is the next argument. -/
  | waiting (given : Given) (option : OptionSpec)

/-- The value that is joined to a short option. -/
def joinedValue : List Char → String
  | '=' :: cs => String.ofList cs
  | cs => String.ofList cs

/-- Reads short options that are written together. -/
def cluster (st : Stage) : Given → List Char → Cluster
  | g, [] => .done g
  | g, c :: cs =>
    if c == 'h' then .help
    else if c == 'V' && st.beforeCommand then .version
    else
      match st.options.find? (·.short == some c) with
      | none => .refused
      | some o =>
        if o.value.isSome then
          if cs.isEmpty then .waiting g o
          else match g.add? o (joinedValue cs) with
            | some g => .done g
            | none => .refused
        else match g.add? o "" with
          | some g => cluster st g cs
          | none => .refused

/-- Whether an argument is an option and no value. -/
def isOption (arg : String) : Bool :=
  match arg.toList with
  | '-' :: _ :: _ => true
  | _ => false

/-- Reads the arguments of a stage, up to the command if one comes next. What cannot be is refused
where it stands, so it counts only if help was not asked for before it. -/
def scan (st : Stage) : Given → List String → Scan
  | g, [] => .done g none []
  | g, arg :: rest =>
    match arg.toList with
    | '-' :: '-' :: [] =>
      if st.beforeCommand then .refused
      else match g.addArguments? st rest with
        | some g => .done g none []
        | none => .refused
    | '-' :: '-' :: cs =>
      let name := String.ofList (cs.takeWhile (· != '='))
      let joined : Option String := match cs.dropWhile (· != '=') with
        | _ :: value => some (String.ofList value)
        | [] => none
      if name == "help" && joined.isNone then .help
      else if name == "version" && joined.isNone && st.beforeCommand then .version
      else
        match st.options.find? (·.long == name) with
        | none => .refused
        | some o =>
          match o.value.isSome, joined, rest with
          | false, none, rest =>
            match g.add? o "" with
            | some g => scan st g rest
            | none => .refused
          | false, some _, _ => .refused
          | true, some value, rest =>
            match g.add? o value with
            | some g => scan st g rest
            | none => .refused
          | true, none, value :: rest =>
            if isOption value then .refused
            else match g.add? o value with
              | some g => scan st g rest
              | none => .refused
          | true, none, [] => .refused
    | '-' :: c :: cs =>
      match cluster st g (c :: cs), rest with
      | .refused, _ => .refused
      | .help, _ => .help
      | .version, _ => .version
      | .done g, rest => scan st g rest
      | .waiting g o, value :: rest =>
        if isOption value then .refused
        else match g.add? o value with
          | some g => scan st g rest
          | none => .refused
      | .waiting _ _, [] => .refused
    | _ =>
      if st.beforeCommand then .done g (some arg) rest
      else match g.addArguments? st [arg] with
        | some g => scan st g rest
        | none => .refused

/-! ### Invocations -/

/-- A command with its own options. -/
inductive Subcommand where
  /-- Annotate the models. -/
  | models (snapshot : Option Path) (noIndexes noForeignKeys noCheckConstraints : Bool)
  /-- Annotate the routes file. -/
  | routes (snapshot file : Option Path)
  /-- Annotate the mailers. -/
  | mailers (snapshot : Option Path)
  /-- Take annotations out. -/
  | remove (tags : List String)
  /-- Show what a source declares. -/
  | inspect (file : Path)
deriving DecidableEq, Repr

/-- A command and the options that hold for every command. -/
structure Invocation where
  /-- The command. -/
  command : Subcommand
  /-- The file with the settings. -/
  config : Option Path := none
  /-- The folder that holds all files which may be written. -/
  root : Option Path := none
  /-- Where blocks go. -/
  position : Option Position := none
  /-- Whether nothing is written. -/
  dryRun : Bool := false
  /-- Whether files outside the root may be written. -/
  allowOutside : Bool := false
  /-- Whether reports are JSON records. -/
  json : Bool := false
deriving DecidableEq, Repr

/-- The options that hold for every command. -/
def commonOptions : List OptionSpec := [
  { long := "config", short := some 'c', value := some .path },
  { long := "root", value := some .path },
  { long := "position", value := some .position },
  { long := "dry-run" },
  { long := "allow-outside-root" },
  { long := "json" },
  { long := "verbose", short := some 'v' }]

/-- The stage in front of the command. -/
def frontStage : Stage := { options := commonOptions, beforeCommand := true }

/-- The option for a snapshot. -/
def snapshotOption : OptionSpec := { long := "snapshot", short := some 's', value := some .path }

/-- The stage after a command. -/
def stageOf? : String → Option Stage
  | "models" => some {
      options := commonOptions ++ [snapshotOption, { long := "no-indexes" },
        { long := "no-foreign-keys" }, { long := "no-check-constraints" }]
      room := some 0 }
  | "routes" => some {
      options := commonOptions ++ [snapshotOption,
        { long := "file", short := some 'f', value := some .path }]
      room := some 0 }
  | "mailers" => some { options := commonOptions ++ [snapshotOption], room := some 0 }
  | "remove" => some { options := commonOptions }
  | "inspect" => some { options := commonOptions, room := some 1, argument := .path }
  | _ => none

/-- The command of a name with what was given after it. -/
def subcommand? (name : String) (g : Given) : Option Subcommand :=
  let path (option : String) : Option Path := (g.value? option).map Path.ofString
  match name, g.arguments with
  | "models", [] =>
    some (.models (path "snapshot") (g.has "no-indexes") (g.has "no-foreign-keys")
      (g.has "no-check-constraints"))
  | "routes", [] => some (.routes (path "snapshot") (path "file"))
  | "mailers", [] => some (.mailers (path "snapshot"))
  | "remove", tags => some (.remove tags)
  | "inspect", [file] => some (.inspect (Path.ofString file))
  | _, _ => none

/-- The invocation of a command. What was given after the command goes before what was given in
front of it. -/
def invocation? (name : String) (front after : Given) : Option Invocation :=
  let common : Given := { options := after.options ++ front.options }
  (subcommand? name after).map fun command => {
    command := command
    config := (common.value? "config").map Path.ofString
    root := (common.value? "root").map Path.ofString
    position := (common.value? "position").bind Position.ofName?
    dryRun := common.has "dry-run"
    allowOutside := common.has "allow-outside-root"
    json := common.has "json" }

/-- Whether help can be asked for about the commands that are named: one command, or help itself
before it. -/
def isHelpTopic : List String → Bool
  | [] => true
  | [name] => name == "help" || (stageOf? name).isSome
  | name :: names => name == "help" && isHelpTopic names

/-- What the arguments ask for. -/
inductive Request where
  /-- They are refused. -/
  | refused
  /-- The help text. -/
  | help
  /-- The version. -/
  | version
  /-- A command. -/
  | invoke (i : Invocation)
deriving DecidableEq, Repr

/-- What the arguments ask for. -/
def Request.ofArguments (args : List String) : Request :=
  match scan frontStage {} args with
  | .refused => .refused
  | .help => .help
  | .version => .version
  | .done _ none _ => .refused
  | .done front (some name) rest =>
    if name == "help" then (if isHelpTopic rest then .help else .refused)
    else match stageOf? name with
      | none => .refused
      | some st =>
        match scan st {} rest with
        | .refused => .refused
        | .help => .help
        | .version => .version
        | .done after _ _ =>
          match invocation? name front after with
          | some i => .invoke i
          | none => .refused

end CommandLine
end Marginalia
