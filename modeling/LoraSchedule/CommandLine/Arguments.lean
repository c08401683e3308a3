import LoraSchedule.Architecture.Basic
import LoraSchedule.Files.Path

/-!
# Command-line arguments

A command line is a subcommand with its options and operands, around which the options for all
subcommands may stand.  An option that takes a value takes it from the same argument or the next
one.
-/

namespace LoraSchedule.CommandLine

/-! ## Options -/

/-- What an option sets. -/
inductive OptionName
  | verbose
  | noColor
  | config
  | root
  | version
  | help
  | force
  | lineage
  | architecture
  | schedule
  | text
  | prior
deriving DecidableEq

namespace OptionName

/-- The letter that stands for an option. -/
def letter? : OptionName → Option Char
  | verbose => some 'v'
  | noColor => none
  | config => some 'c'
  | root => some 'r'
  | version => some 'V'
  | help => some 'h'
  | force => none
  | lineage => none
  | architecture => some 'a'
  | schedule => some 's'
  | text => some 't'
  | prior => some 'p'

/-- The word that stands for an option. -/
def word : OptionName → String
  | verbose => "verbose"
  | noColor => "no-color"
  | config => "config"
  | root => "root"
  | version => "version"
  | help => "help"
  | force => "force"
  | lineage => "lineage"
  | architecture => "arch"
  | schedule => "schedule"
  | text => "text"
  | prior => "prior"

def takesValue : OptionName → Bool
  | config | root | architecture | schedule | text | prior => true
  | _ => false

/-- Whether an option may stand more than once. -/
def isRepeatable : OptionName → Bool
  | root => true
  | _ => false

/-- Whether an option can have a value: paths are not empty, and families have to exist. -/
def acceptsValue : OptionName → String → Bool
  | config, value | root, value | schedule, value => value ≠ ""
  | architecture, value => (Architecture.ofName? value).isSome
  | _, _ => true

end OptionName

/-- The options that may stand before and after a subcommand. -/
def globalOptions : List OptionName := [.verbose, .noColor, .config, .root]

/-! ## Operands -/

/-- The operands that may stand among some options. -/
inductive Operands
  /-- A subcommand, behind which other options and operands are known. -/
  | subcommand
  /-- No more than a number of texts. -/
  | texts (limit : Nat)
  /-- Any number of paths, none of them empty. -/
  | paths

/-- Whether a further operand may follow some others. -/
def Operands.accepts : Operands → (before : List String) → String → Bool
  | subcommand, _, _ => false
  | texts limit, before, _ => before.length < limit
  | paths, _, operand => operand ≠ ""

/-! ## Scanning -/

/-- Why no command is run. -/
inductive Stop
  | usageError
  | showVersion
  | showHelp
deriving DecidableEq

/-- What has been read of some arguments: options with their values, and operands. -/
structure Scanned where
  options : List (OptionName × String)
  operands : List String

namespace Scanned

def empty : Scanned := ⟨[], []⟩

/-- Adds an option; the version and the help are shown at once. -/
def addOption (s : Scanned) (name : OptionName) (value : String) : Except Stop Scanned :=
  if name = .version then .error .showVersion
  else if name = .help then .error .showHelp
  else if !name.isRepeatable && s.options.any fun option => option.1 = name then .error .usageError
  else if !name.acceptsValue value then .error .usageError
  else .ok { s with options := s.options ++ [(name, value)] }

/-- Adds an operand, unless there is no place for it. -/
def addOperand (operands : Operands) (s : Scanned) (value : String) : Except Stop Scanned :=
  if operands.accepts s.operands value then .ok { s with operands := s.operands ++ [value] }
  else .error .usageError

def has (s : Scanned) (name : OptionName) : Bool := s.options.any fun option => option.1 = name

/-- The values of an option. -/
def valuesOf (s : Scanned) (name : OptionName) : List String :=
  (s.options.filter fun option => option.1 = name).map Prod.snd

def value? (s : Scanned) (name : OptionName) : Option String := (s.valuesOf name).head?

end Scanned

/-- Whether an argument is read as options. -/
def isOptionText (argument : List Char) : Bool :=
  argument.head? = some '-' && argument ≠ ['-']

/-- Reads letters behind one hyphen.  The last of them may be an option that takes the rest as its
value, or, if nothing is left, the next argument: then it is returned. -/
def scanLetters (known : List OptionName) (s : Scanned) :
    List Char → Except Stop (Scanned × Option OptionName)
  | [] => .ok (s, none)
  | letter :: rest =>
    match known.find? fun name => name.letter? = some letter with
    | none => .error .usageError
    | some name =>
      if name.takesValue then
        match rest with
        | [] => .ok (s, some name)
        | '=' :: value => (s.addOption name (String.ofList value)).map (·, none)
        | value => (s.addOption name (String.ofList value)).map (·, none)
      else s.addOption name "" >>= fun s => scanLetters known s rest

/-- Reads a word behind two hyphens, perhaps with a value after an equals sign.  An option that
takes the next argument as its value is returned. -/
def scanWord (known : List OptionName) (s : Scanned) (text : List Char) :
    Except Stop (Scanned × Option OptionName) :=
  let (word, value) :=
    match Text.splitOnce? '=' text with
    | some (word, value) => (word, some (String.ofList value))
    | none => (text, none)
  match known.find? fun name => name.word.toList = word with
  | none => .error .usageError
  | some name =>
    match name.takesValue, value with
    | true, some value => (s.addOption name value).map (·, none)
    | true, none => .ok (s, some name)
    | false, some _ => .error .usageError
    | false, none => (s.addOption name "").map (·, none)

/-- Reads arguments up to the first thing that is wrong or shown at once.  After two hyphens alone
all arguments are operands; a subcommand ends the reading and is returned with what follows it. -/
def scan (known : List OptionName) (operands : Operands) (s : Scanned)
    (pending : Option OptionName) : List String → Except Stop (Scanned × List String)
  | [] => if pending.isSome then .error .usageError else .ok (s, [])
  | argument :: rest =>
    let text := argument.toList
    match pending with
    | some name =>
      -- The option before waits for its value, and takes anything but another option.
      if isOptionText text then .error .usageError
      else s.addOption name argument >>= fun s => scan known operands s none rest
    | none =>
      if text = ['-', '-'] then
        (rest.foldlM (Scanned.addOperand operands) s).map (·, [])
      else if isOptionText text then
        let scanned :=
          match text with
          | '-' :: '-' :: word => scanWord known s word
          | _ => scanLetters known s (text.drop 1)
        scanned >>= fun (s, pending) => scan known operands s pending rest
      else
        match operands with
        | .subcommand => .ok (s, argument :: rest)
        | _ => s.addOperand operands argument >>= fun s => scan known operands s none rest

/-! ## Commands -/

inductive Command
  | detect (target : String) (force lineage : Bool)
  | stats (paths : List Path) (architecture : Option Architecture)
  | parse (input : String)
  | resolve (schedule : Option Path) (text prior : Option String)
  | presets

/-- A command with the options that apply to all of them and have an effect on what it writes. -/
structure Invocation where
  config : Option Path
  /-- Search roots in front of the configured ones, the first first. -/
  roots : List Path
  command : Command

/-- The options and operands of a subcommand. -/
def usageOf? : String → Option (List OptionName × Operands)
  | "detect" => some ([.force, .lineage], .texts 1)
  | "stats" => some ([.architecture], .paths)
  | "parse" => some ([], .texts 1)
  | "resolve" => some ([.schedule, .text, .prior], .texts 0)
  | "presets" => some ([], .texts 0)
  | _ => none

/-- The command that a subcommand with its arguments means; `none` if one is missing. -/
def commandOf? (subcommand : String) (s : Scanned) : Option Command :=
  match subcommand, s.operands with
  | "detect", [target] => some (.detect target (s.has .force) (s.has .lineage))
  | "stats", [] => none
  | "stats", paths =>
    some (.stats (paths.map Path.ofString) (s.value? .architecture >>= Architecture.ofName?))
  | "parse", [input] => some (.parse input)
  | "resolve", [] =>
    some (.resolve ((s.value? .schedule).map Path.ofString) (s.value? .text) (s.value? .prior))
  | "presets", [] => some .presets
  | _, _ => none

/-- What the subcommand `help` does: it is about the program or about one subcommand. -/
def helpStop : (topics : List String) → Stop
  | [] => .showHelp
  | [topic] => if topic = "help" || (usageOf? topic).isSome then .showHelp else .usageError
  | _ => .usageError

/-- Reads a command line.  Options for all subcommands may stand before and after the subcommand;
where one stands in both places, the latter counts. -/
def read (arguments : List String) : Except Stop Invocation := do
  let known := OptionName.version :: .help :: globalOptions
  let (before, rest) ← scan known .subcommand .empty none arguments
  match rest with
  | [] => .error .usageError
  | "help" :: topics => .error (helpStop topics)
  | subcommand :: rest =>
    match usageOf? subcommand with
    | none => .error .usageError
    | some (options, operands) =>
      let (after, _) ← scan (.help :: options ++ globalOptions) operands .empty none rest
      match commandOf? subcommand after with
      | none => .error .usageError
      | some command =>
        let roots :=
          if after.has .root then after.valuesOf .root else before.valuesOf .root
        return {
          config := ((after.value? .config).or (before.value? .config)).map Path.ofString
          roots := roots.map Path.ofString
          command }

end LoraSchedule.CommandLine
