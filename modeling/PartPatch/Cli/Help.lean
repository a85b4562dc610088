import PartPatch.Cli.Arguments

/-!
# Help texts
-/

namespace PartPatch.Cli

set_option autoImplicit false

/-- What stands for the values of an option. -/
def OptionSpec.placeholder (o : OptionSpec) : String :=
  let name := "<" ++ (Text.asciiUpper o.name).map (fun c => if c = '-' then '_' else c) ++ ">"
  match o.role with
  | .value => " " ++ name
  | .values => " " ++ name ++ "..."
  | .counter => "..."
  | _ => ""

def OptionSpec.usage (o : OptionSpec) : String :=
  "--" ++ o.name ++ o.placeholder

/-- The forms of an option, with room for a letter where it has none. -/
def OptionSpec.forms (o : OptionSpec) : String :=
  match o.letter with
  | some c => "-" ++ String.singleton c ++ ", " ++ o.usage
  | none => "    " ++ o.usage

/-- Lines of two columns, the second of them aligned. -/
def columns (rows : List (String × String)) : String :=
  let width := (rows.map fun row => row.1.length).foldl max 0
  String.join (rows.map fun (left, right) =>
    "  " ++ left ++ Text.replicate (width - left.length) " " ++ "  " ++ right ++ "\n")

def optionRows (options : List OptionSpec) : List (String × String) :=
  options.map fun o => (o.forms, o.description)

def helpDescription : String :=
  "Print this message or the help of the given subcommand(s)"

def commandRows : List (String × String) :=
  commandNames.map (fun name => (name.text, name.description)) ++ [("help", helpDescription)]

def usageLine (rest : String) : String :=
  "Usage: " ++ programName ++ " " ++ rest ++ "\n"

def programUsage : String :=
  usageLine "[OPTIONS] <COMMAND>"

def CommandName.usage (name : CommandName) : String :=
  usageLine (" ".intercalate (name.text :: "[OPTIONS]" ::
    (name.options.filter OptionSpec.isRequired).map OptionSpec.usage))

def Topic.text : Topic → String
  | .program => programDescription ++ "\n\n" ++ programUsage ++ "\nCommands:\n" ++
      columns commandRows ++ "\nOptions:\n" ++ columns (optionRows programOptions)
  | .command name => name.description ++ "\n\n" ++ name.usage ++ "\nOptions:\n" ++
      columns (optionRows name.options)
  | .help => helpDescription ++ "\n\n" ++ usageLine "help [COMMAND]..." ++ "\nArguments:\n" ++
      columns [("[COMMAND]...", "Print help for the subcommand(s)")]

def versionText : String :=
  programName ++ " " ++ programVersion ++ "\n"

/-- What is said of arguments that are not in order. -/
def misuseText : String :=
  programUsage ++ "\nFor more information, try '--help'.\n"

end PartPatch.Cli
