import TagFormula.Dictionary
import TagFormula.Formula
import TagFormula.Log
import TagFormula.Text.Integer

/-! How a function is compiled: the unit around it, the compiler's command, and the settings that
come from the environment. -/

namespace TagFormula

/-- The symbol under which a compiled unit is called. -/
def Formula.entrySymbol (f : Formula) : Text := ascii "tagconv_entry_" ++ f.identifier

/-- The boundary function of the value library for a role. -/
def Role.entryFunction : Role → Text
  | .valueConv => ascii "value_conv_entry"
  | .printConv => ascii "print_conv_entry"
  | .condition => ascii "condition_entry"

/-- A unit that compiles alone and exports its entry. -/
def FormulaFunction.unitText (f : FormulaFunction) : Text :=
  ascii "// Generated by tagconv for fixture validation.\n"
    ++ ascii "#include \"tagconv/runtime.h\"\n\n" ++ ascii "namespace tagconv::generated \x7b\n\n"
    ++ f.source ++ ascii "\n\x7d  // namespace tagconv::generated\n\n"
    ++ ascii "extern \"C\" int " ++ f.formula.entrySymbol
    ++ ascii "(const void* input, const void* context, void** out_value, char* out_error,\n"
    ++ ascii "    size_t out_error_size) \x7b\n" ++ ascii "  return tagconv::rt::"
    ++ f.formula.role.entryFunction ++ ascii "(&tagconv::generated::" ++ f.formula.functionName
    ++ ascii ", input, context, out_value, out_error,\n" ++ ascii "      out_error_size);\n"
    ++ ascii "\x7d\n"

structure Toolchain where
  compiler : Text
  includeDir : Text
  libraryDir : Text
  workDir : Text
  timeout : Int
  keepArtifacts : Bool
  extraFlags : List Text

namespace Toolchain

/-- The settings without an environment. -/
def standard : Toolchain where
  compiler := ascii "c++"
  includeDir := ascii "/include"
  libraryDir := ascii "/runtime"
  workDir := ascii "/tmp/tagconv"
  timeout := 60000
  keepArtifacts := false
  extraFlags := []

/-- The settings under an environment, and warnings about those that are ignored. A variable that is
empty counts as not set. -/
def ofEnvironment (env : Dictionary Text) : Toolchain × List Text :=
  let get (name : String) (fallback : Text) : Text :=
    match ((env.find? (ascii name)).getD []).upToZero with
    | [] => fallback
    | value => value
  let settings : Toolchain := { standard with
    compiler := get "TAGCONV_CXX" standard.compiler
    includeDir := get "TAGCONV_RUNTIME_INCLUDE" standard.includeDir
    libraryDir := get "TAGCONV_RUNTIME_LIBDIR" standard.libraryDir
    workDir := get "TAGCONV_WORK_DIR" standard.workDir }
  match get "TAGCONV_COMPILE_TIMEOUT_MS" [] with
  | [] => (settings, [])
  | text =>
    match int32AtStart? text with
    | some (n, _) => ({ settings with timeout := n }, [])
    | none => (settings, [ascii "ignoring invalid TAGCONV_COMPILE_TIMEOUT_MS: " ++ text])

/-- The command that compiles a unit into a module. -/
def compileCommand (t : Toolchain) (source output : Text) : List Text :=
  let given (value : Text) (args : List Text) : List Text := if value.isEmpty then [] else args
  [t.compiler, ascii "-std=c++17", ascii "-O0", ascii "-shared", ascii "-fPIC"]
    ++ given t.includeDir [ascii "-I" ++ t.includeDir] ++ t.extraFlags
    ++ [source, ascii "-o", output]
    ++ given t.libraryDir [ascii "-L" ++ t.libraryDir, ascii "-Wl,-rpath," ++ t.libraryDir]
    ++ [ascii "-ltagconv_runtime"]

end Toolchain
end TagFormula
