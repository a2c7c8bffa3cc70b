import Variability.Command
import Variability.FileTree
import Variability.JsonText.Token

/-
  How far a composition has come, and why a job fails.

  Main definitions:
    * `Stage`
    * `Fault`
    * `Fault.message`
-/

namespace Variability

------------------------------------------------------------
-- Stages
------------------------------------------------------------

/- The stages of a composition in their order, and its failure. -/
inductive Stage where
  | initialized
  | sourceCopied
  | configWritten
  | prepared
  | resolved
  | generated
  | composed
  | failed
  deriving DecidableEq, Repr, Inhabited

/- The name of a stage. -/
def Stage.text : Stage → String
  | .initialized => "Initialized"
  | .sourceCopied => "SourceCopied"
  | .configWritten => "ConfigWritten"
  | .prepared => "PreparedForDependencyDetection"
  | .resolved => "DependenciesResolved"
  | .generated => "FilesGenerated"
  | .composed => "Composed"
  | .failed => "Failed"

------------------------------------------------------------
-- Failures
------------------------------------------------------------

/- The causes of failures. -/
inductive Fault where
  /- A text is malformed at an offset in bytes, if it is known. -/
  | unreadable
      (context : String)
      (offset : Option Nat)
      (problem : String)
  /- The compiler did not tell what a file includes. -/
  | unresolved
      (file : Path)
      (exitCode : Option Int)
      (complaint : String)
  /- A program failed. -/
  | program (command : String) (exitCode : Option Int)
  /- A path could not be worked on. -/
  | file (path : Path) (cause : FileError)
  | json (flaw : JsonText.Flaw)
  | interrupted
  /- A step was taken at the wrong stage. -/
  | stage (actual expected : Stage)
  | unsupported (what : String)
  deriving DecidableEq, Repr

namespace Fault

/- The written form of an exit code. -/
def exitCodeText : Option Int → String
  | some code => "Some(" ++ toString code ++ ")"
  | none => "None"

/- The message of a failure. -/
def message : Fault → String
  | .unreadable context offset problem =>
      let place :=
        match offset with
        | some n => " at offset " ++ toString n
        | none => ""
      "could not parse " ++ context ++ place ++ ": " ++ problem
  | .unresolved unit exitCode _ =>
      "dependency resolution for " ++ unit.text ++
        " failed with exit code " ++ exitCodeText exitCode
  | .program command exitCode =>
      "\x60" ++ command ++ "\x60 failed with exit code " ++
        exitCodeText exitCode
  | .file path cause =>
      "I/O error on " ++ path.text ++ ": " ++ cause.message
  | .json .malformed => "malformed JSON"
  | .json .mismatched => "JSON of another form"
  | .json .truncated => "truncated JSON"
  | .interrupted => "interrupted"
  | .stage actual expected =>
      "composer is in state " ++ actual.text ++ ", expected " ++
        expected.text
  | .unsupported what => "unsupported: " ++ what

/- The failure to read the commands of a text. -/
def ofCommands (e : Command.ReadError) : Fault :=
  .unreadable "command" (some e.offset) e.message

/- The failure to find a system by its name. -/
def unknownSystem (name : String) : Fault :=
  .unsupported ("system \x60" ++ name ++ "\x60")

end Fault

end Variability
