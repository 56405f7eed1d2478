import TagFormula.Entry
import TagFormula.Expr.Meaning
import TagFormula.Fixture
import TagFormula.Module.Loader
import TagFormula.Job.Basic
import TagFormula.Report.Basic
import TagFormula.Toolchain

/-!
Validation of fixtures: the function is generated and compiled, the module is loaded, and every case
is run through its entry.
-/

namespace TagFormula

/-- The machine on which formulas are compiled and run. -/
structure Machine where
  /-- Makes a directory with its parents; the system's words if it cannot. -/
  makeDirectory : Text → Option Text
  programs : Job.Programs

namespace Validation

/-- The size of the buffer for messages. -/
def bufferSize : Nat := 1024

/-- What a status is called in front of its message. -/
def statusText : Entry.Status → Text
  | .ok => ascii "unknown status"
  | .conversionFailed => ascii "conversion failed"
  | .typeError => ascii "type error"
  | .internalError => ascii "internal error"

/-- Runs a case. A function without a meaning gives no value. -/
def runCase (role : Role) (meaning : Option Meaning) (c : Case) : Report.Outcome :=
  let body : Except Exception Value := match meaning with
    | none => .error ⟨.other, []⟩
    | some f => (f c.input c.context).mapError Fault.toException
  let answer := Entry.call role true (List.replicate bufferSize 0) body
  let outcome : Report.Outcome := ⟨c.description, c.input, c.expected, none, [], false⟩
  match answer.value with
  | some v => { outcome with actual := some v, passed := v.same c.expected }
  | none => { outcome with error := statusText answer.status ++ ascii ": " ++ answer.message }

/-- The report of a fixture before anything is known. -/
def blank (f : Fixture) : Report.Item :=
  ⟨f.source, f.description, f.formula, .failed, [], [], none, []⟩

/-- The report on a formula without a function. It passes if that defect was expected. -/
def withFailure (f : Fixture) (failure : Source.Failure) : Report.Item :=
  let kind := failure.defect.kind
  let item := { blank f with error := failure.message, errorKind := some kind }
  match f.expectError with
  | none => { item with status := .generationFailed }
  | some expected =>
    if expected = kind then { item with status := .passed }
    else
      { item with
        status := .generationFailed
        error := ascii "expected " ++ expected.name ++ ascii ", got " ++ failure.message }

/-- The report on a function that was not expected. -/
def unexpected (item : Report.Item) (expected : Source.DefectKind) : Report.Item :=
  { item with
    status := .failed
    error := ascii "expected generation to fail with " ++ expected.name ++ ascii " but it succeeded" }

def notCompiled (item : Report.Item) (error : Text) : Report.Item :=
  { item with status := .compileFailed, error := error }

/-- What is said about a compiler that failed. -/
def compilerError (t : Toolchain) (r : Job.Result) : Text :=
  let head :=
    if r.timedOut then ascii "compiler timed out after " ++ Text.ofInt t.timeout ++ ascii " ms\n"
    else ascii "compiler exited with status " ++ Text.ofNat r.exitCode ++ ascii "\n"
  head ++ r.output

/-- A path inside a directory. -/
def inDirectory (dir name : Text) : Text :=
  if dir.isEmpty || dir.getLast? == some (ch '/') then dir ++ name else dir ++ ch '/' :: name

/-- The paths of files that exist, each once. -/
abbrev Files := List Text

def addFile (files : Files) (path : Text) : Files :=
  if files.contains path then files else files ++ [path]

/-- The files after a validation; unit and module go unless they are kept. -/
def cleaned (t : Toolchain) (source object : Text) (files : Files) : Files :=
  if t.keepArtifacts then files else files.filter fun p => p != source && p != object

/-- The report on a module: all its cases, or why it cannot be loaded. -/
def checkModule (f : Fixture) (meaning : Option Meaning) (path : Text) (files : Files)
    (item : Report.Item) : Report.Item :=
  let linker := Linker.ofModules fun p => if files.contains p then some [f.formula.entrySymbol] else none
  match Id.run (Loader.empty.load linker path) with
  | (_, .error refusal) => notCompiled item refusal.message
  | (loader, .ok ()) =>
    match Id.run (loader.symbol linker path f.formula.entrySymbol) with
    | .error refusal => notCompiled item refusal.message
    | .ok () =>
      let outcomes := f.cases.map (runCase f.formula.role meaning)
      { item with
        status := if outcomes.all (·.passed) then .passed else .failed
        outcomes := outcomes }

/-- Compiles a function, runs its cases and cleans up. -/
def checkFunction (m : Machine) (t : Toolchain) (f : Fixture) (function : FormulaFunction)
    (meaning : Option Meaning) (files : Files) : Report.Item × Files :=
  let item := { blank f with generated := function.source }
  match f.expectError, m.makeDirectory t.workDir with
  | some expected, _ => (unexpected item expected, files)
  | none, some reason =>
    (notCompiled item
      (ascii "Failed to create work directory " ++ t.workDir ++ ascii ": " ++ reason), files)
  | none, none =>
    let source := inDirectory t.workDir (f.formula.identifier ++ ascii ".cpp")
    let object := inDirectory t.workDir (f.formula.identifier ++ ascii ".so")
    let process := m.programs.start (t.compileCommand source object)
    let result := process.wait t.timeout
    let made := (process.cutAt t.timeout).files.map (·.2)
    let files := made.foldl addFile (addFile files source)
    let report :=
      if result.ok then checkModule f meaning object files item
      else notCompiled item (compilerError t result)
    (report, cleaned t source object files)

/-- Validates a fixture among files that exist already. -/
def check (m : Machine) (t : Toolchain) (rules : List Rule) (files : Files) (f : Fixture) :
    Report.Item × Files :=
  let e := Rule.normalize rules (Expr.ofTokenTree f.tree)
  match f.formula.define e with
  | .error failure => (withFailure f failure, files)
  | .ok function => checkFunction m t f function e.meaning? files

/-- Validates fixtures in order, and gives the files that are left. -/
def checkAll (m : Machine) (t : Toolchain) (rules : List Rule) (files : Files) :
    List Fixture → List Report.Item × Files
  | [] => ([], files)
  | f :: rest =>
    let (item, files) := check m t rules files f
    let (items, files) := checkAll m t rules files rest
    (item :: items, files)

end Validation
end TagFormula
