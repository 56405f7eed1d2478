import TagFormula.Host.Shell.Run

/-!
A host for commands: a few programs, and what the system says of a command that names none of them. Nothing else
depends on it. The command line runs on this host, and its logic on any.
-/

namespace TagFormula.Host

open Job (Behaviour)

/-- How long the compiler works on a unit. -/
def compileTime : Nat := 1000

/-- The argument behind a flag. -/
def argumentOf (flag : String) : List Text → Option Text
  | a :: b :: rest => if a == ascii flag then some b else argumentOf flag (b :: rest)
  | _ => none

/-- A compiler that makes the module it is asked for. -/
def compiler (args : List Text) : Behaviour where
  writes := []
  files := ((argumentOf "-o" args).toList).map (compileTime, ·)
  released := compileTime
  ended := compileTime
  ending := .exited 0

def programs : List (String × (Text → List Text → Behaviour)) :=
  [("true", fun _ _ => .immediate [] 0), ("false", fun _ _ => .immediate [] 1),
    ("printf", fun name args =>
      match args with
      | format :: rest => .immediate (Printf.output format rest) 0
      | [] =>
        .immediate (name ++ ascii ": missing operand\nTry '" ++ name
          ++ ascii " --help' for more information.\n") 1),
    ("sh", Shell.execute), ("c++", fun _ args => compiler args)]

/-- Directories in which programs are found. -/
def programDirs : List String := ["", "/bin/", "/usr/bin/"]

/-- Paths at which something stands that is no program. -/
def noPrograms : List String :=
  ["/", "/dev", "/dev/", "/dev/null", "/tmp", "/tmp/", "/etc", "/etc/", "/etc/passwd", "/usr", "/bin",
    ".", "..", "./", "../"]

/-- The longest name of a file, and of a path. -/
def maxName : Nat := 255

def maxPath : Nat := 4095

/-- The system's words on a path that cannot be executed. -/
def execFault (path : Text) : Text :=
  if noPrograms.any (ascii · == path) then ascii "Permission denied"
  else if maxPath < path.length || (maxName < path.length && !path.contains (ch '/')) then
    ascii "File name too long"
  else if (ascii "/dev/null/").isPrefixOf path then ascii "Not a directory"
  else ascii "No such file or directory"

/-- Finds the program of a command by its path. -/
def execute : Job.Programs := fun args =>
  let path := args.headD []
  match programs.find? fun p => programDirs.any fun dir => ascii dir ++ ascii p.1 == path with
  | some p => .ok (p.2 path (args.drop 1))
  | none => .error (execFault path)

end TagFormula.Host
