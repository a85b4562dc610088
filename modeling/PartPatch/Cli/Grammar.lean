/-!
# The grammar of the command line

What options there are, and which of them each command takes.
-/

namespace PartPatch.Cli

set_option autoImplicit false

/-- What an option does. -/
inductive Role where
  /-- It is given or not, at most once. -/
  | flag
  /-- It may be given any number of times. -/
  | counter
  /-- It has one value and is given at most once. -/
  | value
  /-- It has one value or more, and those of all its occurrences count. -/
  | values
  /-- It asks for help, whatever follows. -/
  | help
  /-- It asks for the version, whatever follows. -/
  | version
deriving DecidableEq, Repr

structure OptionSpec where
  name : String
  letter : Option Char
  role : Role
  isRequired : Bool
  description : String
deriving DecidableEq, Repr

inductive CommandName where
  | apply
  | check
  | list
deriving DecidableEq, Repr

def CommandName.text : CommandName → String
  | .apply => "apply"
  | .check => "check"
  | .list => "list"

def CommandName.description : CommandName → String
  | .apply => "Apply patch files to one XML part"
  | .check => "Validate a registry and, optionally, patch files against it"
  | .list => "List the paths, fragments and parts a registry defines"

def commandNames : List CommandName :=
  [.apply, .check, .list]

def CommandName.ofText? (text : String) : Option CommandName :=
  commandNames.find? fun name => name.text = text

def programName : String := "ooxml-patcher"

def programVersion : String := "0.1.0"

def programDescription : String := "Registry-driven patching for Office Open XML parts"

def verboseOption : OptionSpec :=
  ⟨"verbose", some 'v', .counter, false,
    "Increase log verbosity (-v info, -vv debug, -vvv trace)"⟩

def helpOption : OptionSpec :=
  ⟨"help", some 'h', .help, false, "Print help"⟩

def versionOption : OptionSpec :=
  ⟨"version", some 'V', .version, false, "Print version"⟩

def registryOption : OptionSpec :=
  ⟨"registry", some 'r', .values, true, "Registry layers, base first"⟩

def patchesOption (isRequired : Bool) : OptionSpec :=
  ⟨"patches", some 'p', .value, isRequired, "Patch file, or a directory of .toml patch files"⟩

/-- The options before the name of the command. -/
def programOptions : List OptionSpec :=
  [verboseOption, helpOption, versionOption]

/-- The options of a command, in the order in which help lists them. -/
def CommandName.options : CommandName → List OptionSpec
  | .apply => [registryOption, verboseOption, patchesOption true,
      ⟨"part", none, .value, true, "XML part to patch"⟩,
      ⟨"tokens", some 't', .value, false, "Token file (.toml or .json)"⟩,
      ⟨"output", some 'o', .value, false, "Write the patched part here instead of in place"⟩,
      ⟨"parts-dir", none, .value, false, "Extracted package root that receives new parts"⟩,
      ⟨"optional", none, .flag, false, "Treat every operation as optional"⟩,
      ⟨"dry-run", some 'n', .flag, false,
        "Dry run - show what would be changed without writing files"⟩,
      ⟨"diff", some 'd', .flag, false, "Show unified diff of changes"⟩, helpOption]
  | .check => [registryOption, verboseOption, patchesOption false, helpOption]
  | .list => [registryOption, verboseOption, helpOption]

end PartPatch.Cli
