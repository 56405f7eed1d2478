import TagFormula.Catalog.Module
import TagFormula.CommandLine.FileTree
import TagFormula.CommandLine.Help
import TagFormula.CommandLine.Options
import TagFormula.Report.Printer
import TagFormula.Validation

/-!
The program: its arguments and what surrounds it decide its output, its exit code and the files that
it writes. It exits with 0 on success, 1 if a formula fails, and 2 if it is used wrongly.
-/

namespace TagFormula

namespace Fixture

/-- Reads the fixture in a file. -/
def loadFile (open? : Text → Option Fixture) (path : Text) : Except Text Fixture :=
  match open? path with
  | some f => .ok f
  | none => .error (ascii "Failed to open file: " ++ path)

end Fixture

namespace CommandLine

/-- What the program meets outside. -/
structure Surroundings where
  place : Text → Place
  /-- The fixture in a file that can be opened. -/
  fixture? : Text → Option Fixture
  environment : Dictionary Text
  machine : Machine

/-- What the program leaves. -/
structure Outcome where
  exitCode : Nat
  out : Text
  err : Text
  /-- Files to write, with their contents. -/
  files : List (Text × Text)

namespace Outcome

/-- An outcome that only shows a text. -/
def shows (text : Text) : Outcome := ⟨0, text, [], []⟩

/-- An outcome of wrong use. -/
def misused (message : Text) : Outcome := ⟨2, [], message, []⟩

/-- Adds messages in front of the others. -/
def after (messages : Text) (o : Outcome) : Outcome := { o with err := messages ++ o.err }

end Outcome

/-- Fixtures with the files that could not be read. `found` says that there was something to read. -/
structure Loaded where
  found : Bool
  fixtures : List Fixture
  unreadable : List Report.Unreadable

/-- Loads the fixture files at a path, a directory or one file. -/
def load (w : Surroundings) (path : Text) : Loaded :=
  let files := match w.place path with
    | .missing => none
    | .directory files => some files
    | .file => some [path]
  match files with
  | none => ⟨false, [], [⟨path, ascii "No such file or directory"⟩]⟩
  | some files =>
    let results := files.map fun f => (f, Fixture.loadFile w.fixture? f)
    ⟨true,
      results.filterMap fun r => r.2.toOption,
      results.filterMap fun r => match r.2 with
        | .error message => some ⟨r.1, message⟩
        | .ok _ => none⟩

/-- The message about a successful look at a path. -/
def Loaded.log (l : Loaded) (level : Log.Level) (path : Text) : Text :=
  if l.found then
    Log.report level .debug
      (ascii "loaded " ++ Text.ofNat l.fixtures.length ++ ascii " fixture(s) from " ++ path)
  else []

/-- Lines about files that could not be read. -/
def Loaded.errors (l : Loaded) : Text :=
  l.unreadable.flatMap fun u =>
    ascii "Error: " ++ u.path ++ ascii ": " ++ u.message ++ ascii "\n"

/-- The settings of a validation: the environment's, unless an option says otherwise. -/
def toolchain (w : Surroundings) (o : Options) : Toolchain × List Text :=
  let (t, warnings) := Toolchain.ofEnvironment w.environment
  let orElse (given fallback : Text) : Text := if given.isEmpty then fallback else given
  ({ t with
      timeout := if 0 < o.timeout then o.timeout else t.timeout
      workDir := orElse o.workDir t.workDir
      compiler := orElse o.compiler t.compiler
      keepArtifacts := o.keepArtifacts }, warnings)

/-- Validates the fixtures at a path. -/
def validate (w : Surroundings) (level : Log.Level) (o : Options) : Outcome :=
  let loaded := load w o.validate
  let log := loaded.log level o.validate
  if loaded.fixtures.isEmpty && !loaded.unreadable.isEmpty then
    .misused (log ++ loaded.errors)
  else
    let (t, warnings) := toolchain w o
    let log := log ++ warnings.flatMap (Log.report level .warn)
    let (items, _) := Validation.checkAll w.machine t Rule.standard [] loaded.fixtures
    let report : Report := ⟨items, loaded.unreadable⟩
    if o.format == ascii "json" then
      .misused (log ++ ascii "Error: reports are written as text only\n")
    else ⟨if report.allPassed then 0 else 1, report.toText, log, []⟩

/-- Registers fixtures under their files' names. -/
def catalogOf (fixtures : List Fixture) : Catalog :=
  fixtures.foldl
    (fun c f =>
      let name := (Place.splitExtension (Place.fileName f.source)).1
      c.register f.formula f.tree ⟨name, [], f.description⟩)
    Catalog.empty

/-- The defects that fixtures expect, by identifier. -/
def expectedDefects (fixtures : List Fixture) : Dictionary Source.DefectKind :=
  fixtures.foldl
    (fun d f => match f.expectError with
      | some kind => d.insert f.formula.identifier kind
      | none => d)
    .empty

/-- The failures of a catalog that no fixture expects, as messages. -/
def unexpectedFailures (c : Catalog) (expected : Dictionary Source.DefectKind) : List Text :=
  let isExpected (item : Catalog.Item) : Bool :=
    (expected.find? item.identifier).any fun kind => item.errorKind == some kind
  (c.failures.filter fun item => !isExpected item).map fun item =>
    ascii "FAIL " ++ item.formula.role.name ++ ascii " " ++ item.formula.text
      ++ ascii "\n  " ++ item.error.getD [] ++ ascii "\n"

/-- The counts of a role, if there are any. -/
def tallyLine (r : Role) (t : Catalog.Tally) : Text :=
  if t.attempted = 0 then []
  else
    r.name ++ ascii ": " ++ Text.ofNat t.generated ++ ascii "/" ++ Text.ofNat t.attempted
      ++ ascii " generated"
      ++ (if t.failed = 0 then [] else ascii ", " ++ Text.ofNat t.failed ++ ascii " failed")
      ++ ascii "\n"

/-- Writes one module with the functions of all fixtures at a path. -/
def generate (w : Surroundings) (level : Log.Level) (o : Options) : Outcome :=
  let loaded := load w o.generate
  let messages := loaded.log level o.generate ++ loaded.errors
  if loaded.fixtures.isEmpty then
    .misused (messages ++ ascii "Error: no fixtures found in " ++ o.generate ++ ascii "\n")
  else
    let catalog := (catalogOf loaded.fixtures).generate Rule.standard
    let unexpected := unexpectedFailures catalog (expectedDefects loaded.fixtures)
    let source := o.output ++ ascii ".cpp"
    let header := o.output ++ ascii ".h"
    let out := (Role.all.flatMap fun r => tallyLine r (catalog.tallies r))
      ++ ascii "wrote " ++ source ++ ascii " and " ++ header ++ ascii "\n"
    ⟨if unexpected.isEmpty then 0 else 1, out, messages ++ unexpected.flatten,
      [(header, Catalog.headerText), (source, catalog.moduleText (Place.fileName header))]⟩

/-- Runs the program with its arguments, at a level of messages. -/
def run (w : Surroundings) (level : Log.Level) (args : List Text) : Outcome :=
  if args.isEmpty then .shows startupHelp
  else
    match parse args with
    | (_, some misuse) => .misused (misuse.message ++ ascii "\n")
    | (o, none) =>
      if o.showHelp then .shows help
      else if o.showVersion then .shows (ascii "tagconv " ++ version ++ ascii "\n")
      else
        let level := if o.verbose && !level.enables .debug then .debug else level
        if o.generate.isEmpty then validate w level o else generate w level o

end CommandLine
end TagFormula
