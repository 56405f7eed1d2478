import TagFormula.Text.Basic

/-!
Child processes as their caller sees them. A process is described by what it does on a clock that
starts with it; waiting for it with a time limit gives a result. Which programs there are is left to
the machine.
-/

namespace TagFormula.Job

/-- How a process ends. -/
inductive Ending where
  | exited (code : Nat)
  | signaled (signal : Nat)
  deriving DecidableEq, Repr

/-- What a process does; times are milliseconds from its start. -/
structure Behaviour where
  /-- Output, in the order of time. -/
  writes : List (Nat × Text)
  /-- Files that it makes. -/
  files : List (Nat × Text)
  /-- When the last process that holds the output has closed it. -/
  released : Nat
  ended : Nat
  ending : Ending

/-- What the caller learns. -/
structure Result where
  exitCode : Nat
  timedOut : Bool
  signaled : Bool
  output : Text
  deriving DecidableEq, Repr

def Result.ok (r : Result) : Bool := !r.timedOut && !r.signaled && r.exitCode = 0

/-- The exit code of a process that a signal ends. -/
def signalCode (signal : Nat) : Nat := 128 + signal

/-- The signal that ends a process at its time limit. -/
def killSignal : Nat := 9

namespace Behaviour

/-- A process that writes some output at once and exits. -/
def immediate (output : Text) (code : Nat) : Behaviour :=
  ⟨if output.isEmpty then [] else [(0, output)], [], 0, 0, .exited code⟩

/-- Whether a time is within the limit; no positive limit is none. -/
def within (limit : Int) (time : Nat) : Bool := limit ≤ 0 || (time : Int) < limit

/-- The process with its whole group killed at the time limit. -/
def cutAt (b : Behaviour) (limit : Int) : Behaviour where
  writes := b.writes.filter fun w => within limit w.1
  files := b.files.filter fun f => within limit f.1
  released := if within limit b.released then b.released else limit.toNat
  ended := if within limit b.ended then b.ended else limit.toNat
  ending := if within limit b.ended then b.ending else .signaled killSignal

/-- Waits until the output is closed and the process has ended, or the limit is reached. -/
def wait (b : Behaviour) (limit : Int) : Result :=
  let timedOut := !(within limit b.released && within limit b.ended)
  let seen := b.cutAt limit
  let output := (seen.writes.map (·.2)).flatten
  match seen.ending with
  | .exited code => ⟨code, timedOut, false, output⟩
  | .signaled signal => ⟨signalCode signal, timedOut, !timedOut, output⟩

end Behaviour

/-- The programs of a machine: what a command does, or the system's words if it cannot be executed. -/
abbrev Programs := List Text → Except Text Behaviour

/-- The child that a command starts. Arguments end at their first zero byte. A child that cannot execute
its command says so and exits. -/
def Programs.start (programs : Programs) (argv : List Text) : Behaviour :=
  let args := argv.map Text.upToZero
  match programs args with
  | .ok behaviour => behaviour
  | .error reason => .immediate (ascii "exec " ++ args.headD [] ++ ascii " failed: " ++ reason ++ ascii "\n") 127

/-- Why a command was not started. -/
inductive StartFault where
  | emptyCommand
  deriving DecidableEq, Repr

def StartFault.message : StartFault → Text
  | .emptyCommand => ascii "run_process: empty command"

/-- Starts a command and waits for it, with a limit in milliseconds if that is positive. -/
def run (programs : Programs) (argv : List Text) (limit : Int) : Except StartFault Result :=
  if argv.isEmpty then .error .emptyCommand else .ok ((programs.start argv).wait limit)

end TagFormula.Job
