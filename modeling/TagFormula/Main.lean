import TagFormula.CommandLine.Program
import TagFormula.Host.Programs

/-! The command line: reads the arguments, the environment and the path they name, and prints what
the program answers. -/

namespace TagFormula.CommandLine

def bytes (s : String) : Text := s.toUTF8.toList

/-- What stands at a path of this machine. The fixtures in a directory are not looked for. -/
def probe (path : String) : IO Place := do
  try
    let handle ← IO.FS.Handle.mk path .read
    let _ ← handle.read 1
    return .file
  catch e =>
    match e with
    | .noFileOrDirectory .. => return .missing
    | _ => return .directory []

/-- The variables that the program looks at. -/
def settingNames : List String :=
  ["TAGCONV_CXX", "TAGCONV_RUNTIME_INCLUDE", "TAGCONV_RUNTIME_LIBDIR", "TAGCONV_WORK_DIR",
    "TAGCONV_COMPILE_TIMEOUT_MS"]

def environment : IO (Dictionary Text) := do
  let values ← settingNames.mapM fun name => return (bytes name, bytes ((← IO.getEnv name).getD ""))
  return Dictionary.ofList values

/-- The level of messages that the environment asks for, and a warning if it is not one. -/
def initialLevel : IO (Log.Level × Text) := do
  let setting := bytes ((← IO.getEnv "TAGCONV_LOG").getD "")
  if setting.isEmpty then return (.warn, [])
  match Log.Level.ofName? setting with
  | some level => return (level, [])
  | none =>
    return (.warn, Log.report .warn .warn
      (ascii "ignoring unknown TAGCONV_LOG value '" ++ setting ++ ascii "'"))

def write (stream : IO.FS.Stream) (t : Text) : IO Unit := do
  stream.write ⟨t.toArray⟩
  stream.flush

end TagFormula.CommandLine

open TagFormula TagFormula.CommandLine

def main (args : List String) : IO UInt32 := do
  let (level, warning) ← initialLevel
  let options := (parse (args.map bytes)).1
  let path := if options.generate.isEmpty then options.validate else options.generate
  let place ← match String.fromUTF8? ⟨path.toArray⟩ with
    | some p => probe p
    | none => pure .missing
  let surroundings : Surroundings :=
    ⟨fun _ => place, fun _ => none, ← environment, ⟨fun _ => none, Host.execute⟩⟩
  let outcome := run surroundings level (args.map bytes)
  for (file, contents) in outcome.files do
    if let some name := String.fromUTF8? ⟨file.toArray⟩ then IO.FS.writeBinFile name ⟨contents.toArray⟩
  write (← IO.getStdout) outcome.out
  write (← IO.getStderr) (warning ++ outcome.err)
  return outcome.exitCode.toUInt32
