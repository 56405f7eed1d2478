import TagFormula.Text.Integer

/-! The options of the command line. The last of several equal options counts. -/

namespace TagFormula.CommandLine

structure Options where
  validate : Text
  generate : Text
  output : Text
  format : Text
  /-- A bound for the compiler; negative if none is given. -/
  timeout : Int
  workDir : Text
  compiler : Text
  keepArtifacts : Bool
  verbose : Bool
  showHelp : Bool
  showVersion : Bool
  deriving DecidableEq, Repr

def Options.standard : Options :=
  ⟨[], [], [], ascii "text", -1, [], [], false, false, false, false⟩

/-- What is wrong with a command line. -/
inductive Misuse where
  | missingValue (option : String)
  | invalidTimeout (value : Text)
  | timeoutNotPositive
  | unknownArgument (arg : Text)
  | twoModes
  | noMode
  | noOutput
  | invalidFormat
  deriving DecidableEq, Repr

def Misuse.message : Misuse → Text
  | .missingValue option => ascii "Missing value for " ++ ascii option
  | .invalidTimeout value => ascii "Invalid --timeout-ms value: " ++ value
  | .timeoutNotPositive => ascii "--timeout-ms must be positive"
  | .unknownArgument arg => ascii "Unknown argument: " ++ arg
  | .twoModes => ascii "--validate and --generate are mutually exclusive"
  | .noMode => ascii "Missing mode (use --validate or --generate)"
  | .noOutput => ascii "--generate requires --output"
  | .invalidFormat => ascii "Invalid --format value (use text|json)"

/-- An option that takes a value, and what it does with it. -/
structure ValueOption where
  /-- The name in messages. -/
  name : String
  names : List String
  set : Options → Text → Options × Option Misuse

/-- Reads a whole positive number. The options keep what could be read even if it is refused. -/
def setTimeout (o : Options) (value : Text) : Options × Option Misuse :=
  match int32AtStart? value with
  | none => (o, some (.invalidTimeout value))
  | some (n, rest) =>
    let o := { o with timeout := n }
    if !rest.isEmpty then (o, some (.invalidTimeout value))
    else if n ≤ 0 then (o, some .timeoutNotPositive)
    else (o, none)

def valueOptions : List ValueOption :=
  [⟨"--validate", ["--validate"], fun o v => ({ o with validate := v }, none)⟩,
    ⟨"--generate", ["--generate"], fun o v => ({ o with generate := v }, none)⟩,
    ⟨"--output", ["--output", "-o"], fun o v => ({ o with output := v }, none)⟩,
    ⟨"--format", ["--format"], fun o v => ({ o with format := v }, none)⟩,
    ⟨"--timeout-ms", ["--timeout-ms"], setTimeout⟩,
    ⟨"--work-dir", ["--work-dir"], fun o v => ({ o with workDir := v }, none)⟩,
    ⟨"--compiler", ["--compiler"], fun o v => ({ o with compiler := v }, none)⟩]

/-- Options that stand alone. -/
def switches : List (List String × (Options → Options)) :=
  [(["--keep-artifacts"], fun o => { o with keepArtifacts := true }),
    (["--verbose", "-v"], fun o => { o with verbose := true }),
    (["--help", "-h"], fun o => { o with showHelp := true }),
    (["--version"], fun o => { o with showVersion := true })]

def isOneOf (names : List String) (arg : Text) : Bool := names.any (ascii · == arg)

/-- Reads arguments from left to right, up to the first that is wrong. -/
def read (o : Options) : List Text → Options × Option Misuse
  | [] => (o, none)
  | arg :: rest =>
    match valueOptions.find? fun option => isOneOf option.names arg with
    | some option =>
      match rest with
      | [] => (o, some (.missingValue option.name))
      | value :: after =>
        match option.set o value with
        | (next, none) => read next after
        | stopped => stopped
    | none =>
      match switches.find? fun entry => isOneOf entry.1 arg with
      | some entry => read (entry.2 o) rest
      | none => (o, some (.unknownArgument arg))

/-- What the options lack taken together. Help and version need nothing. -/
def Options.misuse? (o : Options) : Option Misuse :=
  if o.showHelp || o.showVersion then none
  else if !o.validate.isEmpty && !o.generate.isEmpty then some .twoModes
  else if o.validate.isEmpty && o.generate.isEmpty then some .noMode
  else if !o.generate.isEmpty && o.output.isEmpty then some .noOutput
  else if o.format != ascii "text" && o.format != ascii "json" then some .invalidFormat
  else none

/-- The options that arguments give, and what is wrong with them. An argument ends at its first zero
byte. -/
def parse (args : List Text) : Options × Option Misuse :=
  match read .standard (args.map Text.upToZero) with
  | (o, none) => (o, o.misuse?)
  | stopped => stopped

end TagFormula.CommandLine
