import Variability.Condition
import Variability.Fault
import Variability.FileTree.Edit
import Variability.Log
import Variability.Text.Utf8

/-
  Jobs that run programs and change files.

  A job that fails leaves what it did before. One that was
  cancelled fails as soon as it would run a program.

  Main definitions:
    * `Call`
    * `Workspace`
    * `Job`
    * `Job.run`
    * `Job.runChecked`
-/

namespace Variability

------------------------------------------------------------
-- Programs
------------------------------------------------------------

/- A call of a program. -/
structure Call where
  program : String
  arguments : List String
  directory : Path
  /- The variables that are set for the program. -/
  environment : List (String × String)
  deriving DecidableEq, Repr

namespace Call

/- The call as it is shown in messages. -/
def text (c : Call) : String :=
  " ".intercalate (c.program :: c.arguments)

/- The texts that the program is given. -/
def texts (c : Call) : List String :=
  c.program :: c.arguments ++
    c.environment.flatMap fun (name, value) => [name, value]

/-
  The files that the program may be, the first choice first. A
  bare name is looked for in the directories of a search path.
-/
def candidates (searchPath : List Path) (c : Call) : List Path :=
  let file (p : Path) := (c.directory.join p).normalize
  if c.program.contains '/' then
    [file ⟨c.program⟩]
  else if c.program.isEmpty then
    []
  else
    searchPath.map fun directory => file (directory.join ⟨c.program⟩)

end Call

/- What a program that ran leaves behind, in bytes. -/
structure Outcome where
  /- There is none if the program was stopped by a signal. -/
  exitCode : Option Int
  output : List UInt8
  complaint : List UInt8
  deriving DecidableEq, Repr, Inhabited

/- What a program does when it is called. -/
abbrev Program := Call → StateM FileTree Outcome

/- What a program that ran wrote, as text. -/
structure Report where
  exitCode : Option Int
  output : String
  complaint : String
  deriving DecidableEq, Repr, Inhabited

namespace Report

/- The texts of an outcome, with a mark for each mistake in them. -/
def ofOutcome (o : Outcome) : Report where
  exitCode := o.exitCode
  output := Utf8.decodeLossy o.output
  complaint := Utf8.decodeLossy o.complaint

/- Whether the program did what it was asked for. -/
def succeeded (r : Report) : Bool :=
  r.exitCode == some 0

end Report

------------------------------------------------------------
-- Workspaces
------------------------------------------------------------

/- What jobs work on. -/
structure Workspace where
  files : FileTree := {}
  space : Space := .empty
  log : Log := []
  cancelled : Bool := false
  /- The programs that can be called, by their files. -/
  programs : List (Path × Program) := []
  /- Where programs are that are called by bare names. -/
  searchPath : List Path := []
  /- The calls so far, the last one first. -/
  calls : List Call := []

namespace Workspace

/- The program that a call is for, with its file. -/
def program? (w : Workspace) (c : Call) : Option (Path × Program) :=
  (c.candidates w.searchPath).findSome? fun p =>
    w.programs.find? (·.1.same p)

/- The calls of a program from the first on, which are forgotten then. -/
def takeCalls (w : Workspace) (program : Path) :
    List Call × Workspace :=
  let (these, others) :=
    w.calls.partition fun c => (w.program? c).any (·.1.same program)
  (these.reverse, { w with calls := others })

end Workspace

/- A computation in a workspace that may fail on the way. -/
abbrev Job := ExceptT Fault (StateM Workspace)

namespace Job

/- Log some records. -/
def record (records : Log) : Job Unit :=
  modify fun w => { w with log := w.log ++ records }

/- Change the files, with a path to blame for a failure. -/
def edit {α : Type} (p : Path) (x : InTree α) : Job α :=
  fun w =>
    match x w.files with
    | (.ok a, files) => (.ok a, { w with files })
    | (.error e, files) => (.error (.file p e), { w with files })

/- Look at the files, with a path to blame for a failure. -/
def look
    {α : Type}
    (p : Path)
    (f : FileTree → Except FileError α) :
    Job α := do
  match f (← get).files with
  | .ok a => return a
  | .error e => throw (.file p e)

/- Fail if the job was cancelled. -/
def check : Job Unit := do
  if (← get).cancelled then
    throw .interrupted

/- The program that a call is for, in a directory that is there. -/
def programOf (w : Workspace) (c : Call) : Except FileError Program :=
  if c.texts.any (·.contains '\x00') then
    .error .invalidInput
  else
    match w.files.status c.directory with
    | .error e => .error e
    | .ok .directory =>
        match w.program? c with
        | some (_, program) => .ok program
        | none => .error .notFound
    | .ok _ => .error .notADirectory

/- Call a program. A failure of the program is no failure of the job. -/
def run (c : Call) : Job Report := do
  check
  let w ← get
  match programOf w c with
  | .error e => throw (.file c.directory e)
  | .ok program =>
      let (outcome, files) := program c w.files
      set { w with files, calls := c :: w.calls }
      return .ofOutcome outcome

/- Call a program that must not fail. -/
def runChecked (c : Call) : Job Report := do
  let report ← run c
  if report.succeeded then
    return report
  else
    throw (.program c.text report.exitCode)

end Job

end Variability
