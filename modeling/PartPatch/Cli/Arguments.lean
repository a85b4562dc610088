import PartPatch.Cli.Grammar
import PartPatch.Text.Basic

/-!
# Command line arguments

Arguments are read from left to right. An option that takes values takes the words that follow it,
as many as it may; a value attached to an option is its only one. Help and version are answered as
soon as they are asked for, provided that all before them is in order.
-/

namespace PartPatch.Cli

set_option autoImplicit false

/-- Why reading ends before the last argument. -/
inductive Stop where
  | help
  | version
  | misuse
deriving DecidableEq, Repr

/-- An option that was given, with its values. -/
structure Given where
  option : OptionSpec
  values : List String
deriving DecidableEq, Repr

structure ReadState where
  given : List Given
  /-- The last option, as long as it may take more values. -/
  pending : Option Given
deriving DecidableEq, Repr

namespace ReadState

def start : ReadState := ⟨[], none⟩

def has (s : ReadState) (option : OptionSpec) : Bool :=
  s.given.any fun g => g.option.name = option.name

/-- Records an option with all its values. -/
def record (s : ReadState) (g : Given) : Except Stop ReadState :=
  let added : ReadState := { s with given := s.given ++ [g] }
  match g.option.role with
  | .help => .error .help
  | .version => .error .version
  | .counter => .ok added
  | .flag => if s.has g.option then .error .misuse else .ok added
  | .value =>
    if g.values = [] ∨ "" ∈ g.values ∨ s.has g.option then .error .misuse else .ok added
  | .values => if g.values = [] ∨ "" ∈ g.values then .error .misuse else .ok added

/-- Records the pending option, which gets no more values. -/
def settle (s : ReadState) : Except Stop ReadState :=
  match s.pending with
  | none => .ok s
  | some g => record { s with pending := none } g

/-- Takes an option that may have a value attached to it. -/
def take (s : ReadState) (option : OptionSpec) (attached : Option String) :
    Except Stop ReadState := do
  let s ← s.settle
  match option.role, attached with
  | .value, some value | .values, some value => s.record ⟨option, [value]⟩
  | .value, none | .values, none => return { s with pending := some ⟨option, []⟩ }
  | _, none => s.record ⟨option, []⟩
  | _, some _ => throw .misuse

/-- Takes letters that were given together. Those after a letter that takes a value are its value,
with or without an equals sign. -/
def takeLetters (options : List OptionSpec) (s : ReadState) : List Char → Except Stop ReadState
  | [] => .ok s
  | c :: rest =>
    match options.find? fun option => option.letter = some c with
    | none => .error .misuse
    | some option =>
      if option.role = .value ∨ option.role = .values then
        match rest with
        | [] => s.take option none
        | '=' :: value => s.take option (some (String.ofList value))
        | value => s.take option (some (String.ofList value))
      else do takeLetters options (← s.take option none) rest

/-- Takes an option by its full name, with what stands behind an equals sign as its value. -/
def takeNamed (options : List OptionSpec) (s : ReadState) (word : List Char) :
    Except Stop ReadState :=
  let (name, attached) := match Text.cut? ['='] word with
    | some (name, value) => (String.ofList name, some (String.ofList value))
    | none => (String.ofList word, none)
  match options.find? fun option => option.name = name with
  | none => .error .misuse
  | some option => s.take option attached

/-- Takes a word as a value of the pending option, if it may have one more. -/
def takeValue? (s : ReadState) (word : String) : Option ReadState :=
  match s.pending with
  | none => none
  | some g =>
    if g.option.role = .value ∧ g.values ≠ [] then none
    else some { s with pending := some { g with values := g.values ++ [word] } }

end ReadState

/-- Reads options up to the first word that belongs to none of them, which is left over with all
that follows it. After `--` there may be nothing. -/
def readOptions (options : List OptionSpec) (s : ReadState) :
    List String → Except Stop (ReadState × List String)
  | [] => do return (← s.settle, [])
  | word :: more =>
    match word.toList with
    | ['-', '-'] => if more = [] then do return (← s.settle, []) else .error .misuse
    | '-' :: '-' :: name => do readOptions options (← s.takeNamed options name) more
    | '-' :: c :: letters => do readOptions options (← s.takeLetters options (c :: letters)) more
    | _ =>
      match s.takeValue? word with
      | some s => readOptions options s more
      | none => do return (← s.settle, word :: more)

def valuesOf (given : List Given) (name : String) : List String :=
  (given.filter fun g => g.option.name = name).flatMap Given.values

def isGiven (given : List Given) (name : String) : Bool :=
  given.any fun g => g.option.name = name

structure ApplyOptions where
  /-- The layers of the registry, base first. -/
  registry : List String
  patches : String
  part : String
  tokens : Option String
  /-- Where the part is written, if not in place. -/
  output : Option String
  /-- The directory of the package that receives new parts. -/
  partsDir : Option String
  allOptional : Bool
  dryRun : Bool
  diff : Bool
deriving DecidableEq, Repr

/-- What help can be asked about. -/
inductive Topic where
  | program
  | command (name : CommandName)
  | help
deriving DecidableEq, Repr

inductive Request where
  | apply (options : ApplyOptions)
  | check (registry : List String) (patches : Option String)
  | list (registry : List String)
  | help (topic : Topic)
  | version
deriving DecidableEq, Repr

/-- What is asked for by a command with its options, if none that it requires is missing. -/
def requestOf? (given : List Given) : CommandName → Option Request
  | .apply =>
    match valuesOf given "registry", valuesOf given "patches", valuesOf given "part" with
    | registry@(_ :: _), [patches], [part] => some (.apply {
        registry, patches, part
        tokens := (valuesOf given "tokens").head?
        output := (valuesOf given "output").head?
        partsDir := (valuesOf given "parts-dir").head?
        allOptional := isGiven given "optional"
        dryRun := isGiven given "dry-run"
        diff := isGiven given "diff" })
    | _, _, _ => none
  | .check =>
    match valuesOf given "registry" with
    | [] => none
    | registry => some (.check registry (valuesOf given "patches").head?)
  | .list =>
    match valuesOf given "registry" with
    | [] => none
    | registry => some (.list registry)

/-- What a stop of reading asks for. -/
def stopped? (topic : Topic) : Stop → Option Request
  | .help => some (.help topic)
  | .version => some .version
  | .misuse => none

def readCommand? (name : CommandName) (arguments : List String) : Option Request :=
  match readOptions name.options .start arguments with
  | .error stop => stopped? (.command name) stop
  | .ok (s, []) => requestOf? s.given name
  | .ok (_, _ :: _) => none

/-- What `help` is asked about. -/
def readTopic? : List String → Option Topic
  | [] => some .program
  | ["help"] => some .help
  | [name] => (CommandName.ofText? name).map .command
  | _ => none

/-- What the arguments ask for, if they are in order. -/
def Request.read? (arguments : List String) : Option Request :=
  match readOptions programOptions .start arguments with
  | .error stop => stopped? .program stop
  | .ok (_, []) => none
  | .ok (_, "help" :: more) => (readTopic? more).map .help
  | .ok (_, name :: more) => (CommandName.ofText? name).bind fun name => readCommand? name more

end PartPatch.Cli
