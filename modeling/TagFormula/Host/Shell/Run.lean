import TagFormula.Host.Shell.Session

/-! Running a script, and what the caller of the shell observes of it. -/

namespace TagFormula.Host.Shell

namespace Session

/-- Takes over what a job in the background does. Its descriptors are those that its own
redirections give it. -/
def addBackground (s job : Session) (holdsPipe : Bool) : Session :=
  let released := if holdsPipe then job.releasedAt else job.heldByOthers
  let number := ownProcess + 1 + s.jobs.length
  { s with
    writes := job.writes
    jobs := s.jobs ++ [⟨number, released, job.clock, job.finalStatus⟩]
    status := 0 }

/-- Takes over what a child has done that was waited for. -/
def addChild (s child : Session) : Session :=
  { s with
    clock := child.clock
    input := child.input
    writes := child.writes
    passed := child.passed
    held := max s.held child.heldByOthers
    status := child.finalStatus }

/-- Takes over what a subshell has done. A signal that it sends to the shell ends both. -/
def addSubshell (s sub : Session) : Session :=
  match sub.ending with
  | some (.signaled n) => { s.addChild sub with ending := some (.signaled n) }
  | _ => s.addChild sub

/-- Takes over what another shell has done, and says so if a signal has ended that. -/
def addShell (s shell : Session) : Session :=
  match shell.ending with
  | some (.signaled n) => ((s.addChild shell).write 2 (obituary n)).done (Job.signalCode n)
  | _ => s.addChild shell

/-- A session for a subshell: jobs and traps belong to the shell that has them. -/
def subshell (s : Session) : Session := { s with jobs := [], held := 0, letGo := none, traps := [] }

/-- A session for another shell with its parameters. -/
def another (s : Session) (arguments : List Text) : Session :=
  { s.subshell with arguments := arguments, bindings := .empty, strict := false, status := 0 }

/-- Ends a session that its last command leaves with a failure, if failures end it. -/
def checked (s : Session) : Session :=
  if s.strict && s.status != 0 && !s.isOver then s.exit s.status else s

/-- Goes back to the strictness of another session, behind a command whose failure is foreseen. -/
def asStrictAs (s before : Session) : Session := { s with strict := before.strict }

/-- The descriptors of a command are redirected before it starts. -/
def redirectsOf : Command → List Redirect
  | .simple _ _ redirects => redirects
  | .group _ _ redirects => redirects
  | _ => []

/-- Whether a loop goes on behind a round, and the session in which it does. -/
def leaveRound (s : Session) : Bool × Session :=
  match s.ending, s.leaving with
  | some _, _ => (false, s)
  | none, none => (true, s)
  | none, some l =>
    if l.loops ≤ 1 then (l.goesOn, { s with leaving := none })
    else (false, { s with leaving := some ⟨l.loops - 1, l.goesOn⟩ })

mutual
/-- Runs a command, with a bound on how deep commands and rounds of loops may nest. -/
def run : Nat → Command → Session → Session
  | 0, _, s => s
  | fuel + 1, c, s =>
    if s.isOver then s
    else
      match c with
      | .nothing => s
      | .simple assignments words redirects =>
        match words.flatMap s.expandWord with
        | [] => (s.assign assignments).done 0
        | name :: args =>
          let inner := s.redirectAll redirects
          let after :=
            if name == ascii "exec" then runInPlace fuel args inner
            else (runWords fuel name args inner).restore s
          runDue fuel after.checked
      | .sequence a b => run fuel b (run fuel a s)
      | .both a b =>
        let s := (run fuel a { s with strict := false }).asStrictAs s
        if s.status = 0 then run fuel b s else s
      | .either a b =>
        let s := (run fuel a { s with strict := false }).asStrictAs s
        if s.status = 0 then s else run fuel b s
      | .negated a =>
        let s := (run fuel a { s with strict := false }).asStrictAs s
        if s.isOver then s else s.done (if s.status = 0 then 1 else 0)
      | .pipe a b =>
        let left := run fuel a { s.subshell with out := .next, passed := [] }
        let right := run fuel b { s.subshell with input := left.passed, writes := left.writes }
        (s.addSubshell { right with
          clock := max left.clock right.clock
          held := max left.heldByOthers right.held }).checked
      | .background a =>
        s.addBackground (run fuel a s.subshell) (s.redirectAll (redirectsOf a)).holdsPipe
      | .group isSubshell a redirects =>
        if isSubshell then
          (s.addSubshell (run fuel a (s.redirectAll redirects).subshell)).checked
        else (run fuel a (s.redirectAll redirects)).restore s
      | .choice a yes no =>
        let s := (run fuel a { s with strict := false }).asStrictAs s
        if s.status = 0 then run fuel yes s else run fuel no (s.done 0)
      | .loop untilTrue a body => runLoop fuel untilTrue a body (s.done 0)
      | .each name words body => runEach fuel name (words.flatMap s.expandWord) body (s.done 0)

/-- Runs a command that is given by expanded words. -/
def runWords : Nat → Text → List Text → Session → Session
  | 0, _, _, s => s
  | fuel + 1, name, args, s =>
    if name == ascii "sh" then s.addShell (runShell fuel name args s)
    else if name == ascii "eval" then
      match parse (Text.joinWith (ascii " ") args) with
      | some c => run fuel c s
      | none => s.complain (ascii "Syntax error") 2
    else if name == ascii "command" then
      match args with
      | name :: args => runWords fuel name args s
      | [] => s.done 0
    else s.command (programs ++ builtins) [] name args

/-- Runs a command in place of the shell; without one, the redirections stay. -/
def runInPlace : Nat → List Text → Session → Session
  | 0, _, s => s
  | fuel + 1, args, s =>
    match args with
    | [] =>
      let letGo := if s.holdsPipe then s.letGo else some (s.letGo.getD s.clock)
      { s with letGo := letGo, status := 0 }
    | name :: rest =>
      let after :=
        if name == ascii "sh" then
          let shell := runShell fuel name rest s
          { s.addChild shell with ending := shell.ending }
        else s.command programs (ascii "exec: ") name rest
      if after.ending.isSome then after else after.exit after.status

/-- Runs another shell on the script behind `-c`, with the parameters behind that. -/
def runShell : Nat → Text → List Text → Session → Session
  | 0, _, _, s => s
  | fuel + 1, name, args, s =>
    match args with
    | flag :: script :: rest =>
      let shell := s.another (if rest.isEmpty then [name] else rest)
      if flag != ascii "-c" then shell
      else
        match parse script with
        | some c => runExitTrap fuel (run fuel c shell)
        | none => (shell.complain (ascii "Syntax error") 2).exit 2
    | [flag] =>
      let shell := s.another [name]
      if flag != ascii "-c" then shell
      else (shell.write 2 (name ++ ascii ": 0: -c requires an argument\n")).exit 2
    | [] => s.another [name]

/-- Runs what is set for the end of a shell, which keeps its status. -/
def runExitTrap : Nat → Session → Session
  | 0, s => s
  | fuel + 1, s =>
    match s.ending, (s.trap? 0).bind parse with
    | some (.signaled _), _ => s
    | _, none => s
    | _, some c =>
      let code := s.finalStatus
      let after := run fuel c { s with ending := none, leaving := none, traps := [], status := code }
      if after.ending.isSome then after else after.exit code

/-- Runs the actions of traps that are due. -/
def runDue : Nat → Session → Session
  | 0, s => s
  | fuel + 1, s =>
    match s.due with
    | [] => s
    | action :: rest =>
      let status := s.status
      let s := { s with due := rest }
      match parse action with
      | none => s
      | some c =>
        let s := run fuel c s
        runDue fuel (if s.isOver then s else s.done status)

def runLoop : Nat → Bool → Command → Command → Session → Session
  | 0, _, _, _, s => s
  | fuel + 1, untilTrue, a, body, s =>
    let last := s.status
    let s := (run fuel a { s with strict := false }).asStrictAs s
    if s.isOver then s
    else if (s.status = 0) == untilTrue then s.done last
    else
      match leaveRound (run fuel body s) with
      | (true, s) => runLoop fuel untilTrue a body s
      | (false, s) => s

def runEach : Nat → Text → List Text → Command → Session → Session
  | 0, _, _, _, s => s
  | _ + 1, _, [], _, s => s
  | fuel + 1, name, t :: rest, body, s =>
    match leaveRound (run fuel body (s.bind name t)) with
    | (true, s) => runEach fuel name rest body s
    | (false, s) => s
end

/-- What the caller of a shell can observe of a session that is over. -/
def behaviour (s : Session) : Job.Behaviour where
  writes := s.writes.reverse.mergeSort fun a b => a.1 ≤ b.1
  files := []
  released := s.releasedAt
  ended := s.clock
  ending := s.ending.getD (.exited s.status)

end Session

/-- How many rounds and levels a script may take. -/
def maxFuel : Nat := 100000

/-- Runs a shell by its name on arguments such as `-c` and a script. -/
def execute (name : Text) (args : List Text) : Job.Behaviour :=
  (Session.runShell maxFuel name args (.start [name])).behaviour

end TagFormula.Host.Shell
