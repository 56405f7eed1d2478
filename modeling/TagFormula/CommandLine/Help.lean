import TagFormula.Text.Basic

/-! The help texts and the version. -/

namespace TagFormula.CommandLine

/-- What is shown without any argument. -/
def startupHelp : Text :=
  Text.unlines <| List.map ascii [
    "tagconv - tag expression compiler and fixture validator",
    "",
    "Usage:",
    "  tagconv --validate <file|dir> [--format text|json]",
    "          [--timeout-ms <n>] [--work-dir <dir>] [--compiler <path>]",
    "          [--keep-artifacts] [--verbose]",
    "  tagconv --generate <file|dir> --output <path>",
    "  tagconv --version",
    "",
    "Notes:",
    "  - Fixtures are JSON files holding an expression, its parse tree and test cases.",
    "  - --generate writes <path>.cpp and <path>.h with every generated function.",
    "  - TAGCONV_CXX, TAGCONV_RUNTIME_INCLUDE, TAGCONV_RUNTIME_LIBDIR, TAGCONV_WORK_DIR",
    "    and TAGCONV_COMPILE_TIMEOUT_MS configure the validator; TAGCONV_LOG=debug|trace",
    "    enables diagnostics.",
    "  - Exit codes: 0=success, 1=validation/generation failure, 2=CLI/IO usage error.",
    "",
    "Examples:",
    "  tagconv --validate tests/fixtures",
    "  tagconv --validate tests/fixtures/negate_divide.json --format json",
    "  tagconv --generate tests/fixtures --output build/generated/exif_conv"]

/-- What is shown on request. -/
def help : Text :=
  Text.unlines <| List.map ascii [
    "Usage: tagconv --validate <file|dir> [--format text|json]",
    "       tagconv --generate <file|dir> --output <path>",
    "       tagconv --version",
    "--validate compiles each fixture's expression and runs its test cases.",
    "--generate registers every fixture expression and writes one module and header.",
    "--format json emits the validation report as JSON.",
    "--timeout-ms <n> bounds each compiler run (default 60000).",
    "--work-dir <dir> holds generated units and modules.",
    "--compiler <path> overrides TAGCONV_CXX.",
    "--keep-artifacts leaves generated units and modules in the work dir.",
    "--verbose logs compiler commands and generation details to stderr.",
    "Exit codes: 0=success, 1=validation/generation failure, 2=CLI/IO usage error."]

/-- The version of the calls between compiled units and the value library. -/
def entryVersion : Nat := 1

def version : Text := ascii "0.1.0 (unknown, module api " ++ Text.ofNat entryVersion ++ ascii ")"

end TagFormula.CommandLine
