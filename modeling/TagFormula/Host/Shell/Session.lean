import TagFormula.Dictionary
import TagFormula.Double.Reader
import TagFormula.Job.Basic
import TagFormula.Host.Printf
import TagFormula.Host.Shell.Arithmetic
import TagFormula.Host.Shell.Syntax

/-!
The state of a shell and the commands it knows itself. A session has a clock, which only `sleep` and
`wait` move, so that its behaviour says when something is written and who holds the output how long.
-/

namespace TagFormula.Host.Shell

/-- Where a descriptor leads. -/
inductive Sink where
  | pipe
  /-- The input of the next command. -/
  | next
  | discard
  | closed
  deriving DecidableEq, Repr

/-! ### Signals -/

/-- Names of signals and their numbers; `EXIT` is the end of the shell. -/
def signals : List (String × Nat) :=
  [("EXIT", 0), ("HUP", 1), ("INT", 2), ("QUIT", 3), ("ILL", 4), ("TRAP", 5), ("ABRT", 6),
    ("BUS", 7), ("FPE", 8), ("KILL", 9), ("USR1", 10), ("SEGV", 11), ("USR2", 12), ("PIPE", 13),
    ("ALRM", 14), ("TERM", 15), ("STKFLT", 16), ("CHLD", 17), ("CONT", 18), ("STOP", 19),
    ("TSTP", 20), ("TTIN", 21), ("TTOU", 22), ("URG", 23), ("XCPU", 24), ("XFSZ", 25),
    ("VTALRM", 26), ("PROF", 27), ("WINCH", 28), ("IO", 29), ("PWR", 30), ("SYS", 31)]

/-- Signals that do nothing to a process that has not asked for them. -/
def harmless : List Nat := [0, 17, 18, 23, 28]

/-- Signals that stop a process until it is killed. -/
def stopping : List Nat := [19, 20, 21, 22]

/-- Signals that cannot be trapped. -/
def untrappable : List Nat := [9, 19]

/-- The number of a signal that is given by name or number. -/
def signalNumber? (t : Text) : Option Nat :=
  if !t.isEmpty && t.all Byte.isDigit then some (Text.natValue t)
  else (signals.find? (ascii ·.1 == t)).map (·.2)

/-- What the shell says about a child that a signal has ended. -/
def obituary (signal : Nat) : Text :=
  let words : List (Nat × String) :=
    [(1, "Hangup"), (3, "Quit"), (4, "Illegal instruction"), (6, "Aborted"), (7, "Bus error"),
      (8, "Floating point exception"), (9, "Killed"), (10, "User defined signal 1"),
      (11, "Segmentation fault"), (12, "User defined signal 2"), (14, "Alarm clock"),
      (15, "Terminated")]
  match words.find? (·.1 == signal) with
  | some entry => ascii entry.2 ++ ascii "\n"
  | none => []

/-! ### Sessions -/

/-- The number of the shell's own process, as it sees it. -/
def ownProcess : Nat := 2

/-- A time that no limit reaches. -/
def never : Nat := 1000000000000

/-- A process in the background. -/
structure BackgroundJob where
  number : Nat
  /-- When it lets go of the output. -/
  released : Nat
  ended : Nat
  status : Nat

/-- A job that gets a signal at some time. -/
def BackgroundJob.signal (j : BackgroundJob) (clock n : Nat) : BackgroundJob :=
  if j.ended ≤ clock || harmless.contains n then j
  else ⟨j.number, min j.released clock, clock, Job.signalCode n⟩

/-- A way out of loops: how many are left, and whether the last of them goes on. -/
structure Leaving where
  loops : Nat
  goesOn : Bool

structure Session where
  clock : Nat
  bindings : Dictionary Text
  arguments : List Text
  input : Text
  out : Sink
  err : Sink
  /-- What was written to the pipe, latest first. -/
  writes : List (Nat × Text)
  /-- What was written for the next command. -/
  passed : Text
  /-- When the processes that others have started let go of the output. -/
  held : Nat
  /-- When the shell itself has let go of it. -/
  letGo : Option Nat
  jobs : List BackgroundJob
  status : Nat
  /-- Whether a command that fails ends the shell. -/
  strict : Bool
  /-- What to do on signals; nothing for those that are ignored. -/
  traps : List (Nat × Text)
  /-- Actions of traps that are due. -/
  due : List Text
  leaving : Option Leaving
  ending : Option Job.Ending

namespace Session

/-- A new session with its parameters, the first of which is its name. -/
def start (arguments : List Text) : Session where
  clock := 0
  bindings := .empty
  arguments := arguments
  input := []
  out := .pipe
  err := .pipe
  writes := []
  passed := []
  held := 0
  letGo := none
  jobs := []
  status := 0
  strict := false
  traps := []
  due := []
  leaving := none
  ending := none

/-- Whether nothing more is to be run here. -/
def isOver (s : Session) : Bool := s.ending.isSome || s.leaving.isSome

/-! ### Words -/

/-- The value of a variable or parameter, empty if it is not set. -/
def lookup (s : Session) (name : Text) : Text :=
  if name == ascii "$" then Text.ofNat ownProcess
  else if name == ascii "?" then Text.ofNat s.status
  else if name == ascii "!" then (s.jobs.getLast?.map fun j => Text.ofNat j.number).getD []
  else if name == ascii "#" then Text.ofNat (s.arguments.length - 1)
  else if name == ascii "@" || name == ascii "*" then Text.joinWith (ascii " ") (s.arguments.drop 1)
  else if !name.isEmpty && name.all Byte.isDigit then s.arguments.getD (Text.natValue name) []
  else (s.bindings.find? name).getD []

/-- A piece of a word after expansion: its text, and whether it is split at blanks. -/
def expandPart (s : Session) : Part → Bool × Text
  | .text _ t => (false, t)
  | .parameter quoted name => (!quoted, s.lookup name)
  | .arithmetic t => (true, Text.ofInt (evaluate s.lookup t))

/-- The text of a word that is not split. -/
def expandWhole (s : Session) (w : Word) : Text := w.flatMap fun p => (s.expandPart p).2

/-- Adds expanded bytes to the word that is being built, and ends it at blanks that split. -/
def splitInto (splits : Bool) : Text → List Text × Option Text → List Text × Option Text
  | [], built => built
  | b :: rest, (done, current) =>
    if splits && Byte.isSpace b then
      match current with
      | some t => splitInto splits rest (done ++ [t], none)
      | none => splitInto splits rest (done, none)
    else splitInto splits rest (done, some (current.getD [] ++ [b]))

/-- The words that a word becomes; none if nothing but empty expansions is left of it. -/
def expandWord (s : Session) (w : Word) : List Text :=
  let step (built : List Text × Option Text) (p : Part) : List Text × Option Text :=
    let (splits, t) := s.expandPart p
    let built := match p with
      | .text true _ | .parameter true _ => (built.1, some (built.2.getD []))
      | _ => built
    splitInto splits t built
  match w.foldl step ([], none) with
  | (done, some t) => done ++ [t]
  | (done, none) => done

def bind (s : Session) (name value : Text) : Session :=
  { s with bindings := s.bindings.insert name value }

/-- Sets bindings one after the other. -/
def assign (s : Session) (assignments : List (Text × Word)) : Session :=
  assignments.foldl (fun s a => s.bind a.1 (s.expandWhole a.2)) s

/-! ### Descriptors -/

def sink (s : Session) (descriptor : Nat) : Sink :=
  if descriptor = 1 then s.out else if descriptor = 2 then s.err else .closed

def setSink (s : Session) (descriptor : Nat) (k : Sink) : Session :=
  if descriptor = 0 then { s with input := [] }
  else if descriptor = 1 then { s with out := k }
  else if descriptor = 2 then { s with err := k }
  else s

def redirect (s : Session) (r : Redirect) : Session :=
  let target := s.expandWhole r.target
  if r.copies then
    if target == ascii "-" then s.setSink r.descriptor .closed
    else s.setSink r.descriptor (s.sink (Text.natValue target))
  else if target == ascii "/dev/stdout" then s.setSink r.descriptor s.out
  else if target == ascii "/dev/stderr" then s.setSink r.descriptor s.err
  else s.setSink r.descriptor .discard

def redirectAll (s : Session) (redirects : List Redirect) : Session := redirects.foldl redirect s

/-- Puts the descriptors back to what they were. -/
def restore (s before : Session) : Session := { s with out := before.out, err := before.err }

/-- Writes to a descriptor. -/
def write (s : Session) (descriptor : Nat) (t : Text) : Session :=
  if t.isEmpty then s
  else
    match s.sink descriptor with
    | .pipe => { s with writes := (s.clock, t) :: s.writes }
    | .next => { s with passed := s.passed ++ t }
    | .discard | .closed => s

def holdsPipe (s : Session) : Bool := s.out = .pipe || s.err = .pipe

/-! ### Status and end -/

/-- The status of a command that has ended. -/
def done (s : Session) (status : Nat) : Session := { s with status := status }

/-- A complaint of the shell about a command. -/
def complain (s : Session) (message : Text) (status : Nat) : Session :=
  let name := s.arguments.headD (ascii "sh")
  (s.write 2 (name ++ ascii ": 1: " ++ message ++ ascii "\n")).done status

def exit (s : Session) (status : Nat) : Session :=
  { s with status := status % 256, ending := some (.exited (status % 256)) }

/-- The status that a finished session leaves. -/
def finalStatus (s : Session) : Nat :=
  match s.ending with
  | some (.signaled n) => Job.signalCode n
  | some (.exited code) => code
  | none => s.status

/-- The action that is set for a signal. -/
def trap? (s : Session) (n : Nat) : Option Text := (s.traps.find? (·.1 == n)).map (·.2)

/-- Sends a signal to the shell. -/
def signal (s : Session) (n : Nat) : Session :=
  match if untrappable.contains n || n = 0 then none else s.trap? n with
  | some action => { s with due := if action.isEmpty then s.due else s.due ++ [action], status := 0 }
  | none =>
    if harmless.contains n then s.done 0
    else if stopping.contains n then
      { s with clock := s.clock + never, ending := some (.signaled Job.killSignal) }
    else { s with ending := some (.signaled n) }

/-- When the last process that this one has started lets go of the output. -/
def heldByOthers (s : Session) : Nat := s.jobs.foldl (fun time j => max time j.released) s.held

/-- When a session that is over has let go of the output, with all that it has started. -/
def releasedAt (s : Session) : Nat := max s.heldByOthers (s.letGo.getD s.clock)

/-! ### Commands of the shell -/

/-- Milliseconds of a number of seconds. -/
def milliseconds (t : Text) : Nat :=
  match Double.readDigits? Byte.isDigit t with
  | some (digits, places, _) => Text.natValue digits * 1000 / Nat.pow 10 places
  | none => 0

/-- The truth of a test. -/
def test (args : List Text) : Bool :=
  match args with
  | [t] => !t.isEmpty
  | [op, t] =>
    if op == ascii "-n" then !t.isEmpty
    else if op == ascii "-z" then t.isEmpty
    else if op == ascii "!" then t.isEmpty
    else if op == ascii "-d" then t == ascii "/" || t == ascii "/tmp" || t == ascii "/dev"
    else if op == ascii "-e" then t == ascii "/" || t == ascii "/tmp" || t == ascii "/dev/null"
    else false
  | [a, op, b] =>
    let x := integerOf a
    let y := integerOf b
    if op == ascii "=" then a == b
    else if op == ascii "!=" then a != b
    else if op == ascii "-eq" then x == y
    else if op == ascii "-ne" then x != y
    else if op == ascii "-lt" then x < y
    else if op == ascii "-le" then x ≤ y
    else if op == ascii "-gt" then y < x
    else if op == ascii "-ge" then y ≤ x
    else false
  | _ => false

/-- The signal and the targets of `kill`; otherwise the option that is not understood. -/
def killTargets : List Text → Except Text (Nat × List Text)
  | [] => .error []
  | arg :: rest =>
    match arg with
    | b :: name =>
      if b != ch '-' then .ok (15, arg :: rest)
      else if name == ascii "s" then
        match rest with
        | n :: targets => ((signalNumber? n).map fun k => .ok (k, targets)).getD (.error name)
        | [] => .error name
      else ((signalNumber? name).map fun k => .ok (k, rest)).getD (.error name)
    | [] => .ok (15, arg :: rest)

/-- Sends a signal to the shell itself and to its jobs. -/
def kill (s : Session) (args : List Text) : Session :=
  match killTargets args with
  | .error option => s.complain (ascii "kill: Illegal option -" ++ option.take 1) 2
  | .ok (n, targets) =>
    let isTarget (number : Nat) : Bool := targets.contains (Text.ofNat number)
    if isTarget ownProcess || isTarget 0 then s.signal n
    else if s.jobs.any (isTarget ·.number) then
      { s with
        jobs := s.jobs.map fun j => if isTarget j.number then j.signal s.clock n else j
        status := 0 }
    else s.complain (ascii "kill: No such process") 1

/-- Waits for the jobs with given numbers, or for all. -/
def wait (s : Session) (numbers : List Text) : Session :=
  if numbers.isEmpty then
    { s with clock := s.jobs.foldl (fun time j => max time j.ended) s.clock, status := 0 }
  else
    numbers.foldl
      (fun s number => match s.jobs.find? fun j => Text.ofNat j.number == number with
        | some j => { s with clock := max s.clock j.ended, status := j.status }
        | none => s.done 127)
      s

/-- Sets or resets what is done on signals. -/
def setTrap (s : Session) (args : List Text) : Session :=
  match args with
  | [] => s.done 0
  | action :: names =>
    let numbers := names.filterMap signalNumber?
    let kept := s.traps.filter fun entry => !numbers.contains entry.1
    let added := if action == ascii "-" then [] else numbers.map (·, action)
    { s with traps := kept ++ added, status := 0 }

/-- Options and parameters of the shell. -/
def setOptions (s : Session) : List Text → Session
  | [] => s.done 0
  | arg :: rest =>
    if arg == ascii "--" then { s with arguments := s.arguments.take 1 ++ rest, status := 0 }
    else if arg == ascii "-e" then setOptions { s with strict := true } rest
    else setOptions s rest

/-- Copies the input. -/
def copyInput (s : Session) (files : List Text) : Session :=
  match files with
  | [] => ({ s with input := [] }.write 1 s.input).done 0
  | file :: _ =>
    if file == ascii "/dev/null" then s.done 0
    else (s.write 2 (ascii "cat: " ++ file ++ ascii ": No such file or directory\n")).done 1

/-- Reads a line of the input into a variable. -/
def readLine (s : Session) (name : Text) : Session :=
  let line := s.input.takeWhile (· != ch '\n')
  let rest := s.input.drop line.length
  ({ s with input := rest.drop 1 }.bind name (Text.trim line)).done (if rest.isEmpty then 1 else 0)

/-- Writes text for a command, which needs an open descriptor. -/
def print (s : Session) (command : String) (t : Text) : Session :=
  if s.out = .closed then s.complain (ascii (command ++ ": " ++ command ++ ": I/O error")) 1
  else (s.write 1 t).done 0

/-- A way out of a number of loops. -/
def leave (s : Session) (args : List Text) (goesOn : Bool) : Session :=
  { s with leaving := some ⟨(args.head?.map Text.natValue).getD 1, goesOn⟩, status := 0 }

/-- Words with spaces between them; `-n` in front leaves the newline out. -/
def echo (s : Session) (args : List Text) : Session :=
  let (words, ending) : List Text × Text := match args with
    | a :: rest => if a == ascii "-n" then (rest, []) else (args, [10])
    | [] => ([], [10])
  let text := Text.joinWith (ascii " ") words
  s.print "echo" (Printf.unescape (text.length + 1) text ++ ending)

def printf (s : Session) : List Text → Session
  | format :: rest => s.print "printf" (Printf.output format rest)
  | [] => s.complain (ascii "printf: usage: printf format [arg ...]") 2

/-- The end of the shell, with its last status if none is given. -/
def exitWith (s : Session) : List Text → Session
  | [] => s.exit s.status
  | t :: _ =>
    if !t.isEmpty && t.all Byte.isDigit then s.exit (Text.natValue t)
    else (s.complain (ascii "exit: Illegal number: " ++ t) 2).exit 2

def sleep (s : Session) (args : List Text) : Session :=
  { s with clock := args.foldl (fun time t => time + milliseconds t) s.clock, status := 0 }

/-- Commands that are also programs. -/
def programs : List (String × (Session → List Text → Session)) :=
  [("echo", echo), ("printf", printf), ("true", fun s _ => s.done 0), ("false", fun s _ => s.done 1),
    ("sleep", sleep), ("kill", kill), ("cat", copyInput),
    ("test", fun s args => s.done (if test args then 0 else 1)),
    ("[", fun s args => s.done (if test args.dropLast then 0 else 1))]

/-- Commands that only the shell knows. -/
def builtins : List (String × (Session → List Text → Session)) :=
  let nothing (s : Session) (_ : List Text) : Session := s.done 0
  [(":", nothing), ("exit", exitWith), ("wait", wait), ("trap", setTrap), ("set", setOptions),
    ("break", fun s args => s.leave args false), ("continue", fun s args => s.leave args true),
    ("read", fun s args => s.readLine (args.headD [])),
    ("unset", fun s args => args.foldl (fun s n => s.bind n []) (s.done 0)),
    ("cd", nothing), ("export", nothing), ("umask", nothing), ("ulimit", nothing)]

/-- Why a command is not found, in front of which some text may stand. -/
def notFound (s : Session) (start name : Text) : Session :=
  if name == ascii "/dev/null" then s.complain (start ++ name ++ ascii ": Permission denied") 126
  else s.complain (start ++ name ++ ascii ": not found") 127

/-- A command in one of some tables, on expanded words. -/
def command (s : Session) (table : List (String × (Session → List Text → Session))) (start name : Text)
    (args : List Text) : Session :=
  match table.find? (ascii ·.1 == name) with
  | some entry => entry.2 s args
  | none => s.notFound start name

end Session
end TagFormula.Host.Shell
