import Variability.Command
import Variability.Dict
import Variability.Log
import Variability.Path
import Variability.Text.Line
import Variability.Text.Word

/-
  Compiler calls in the trace of a build.

  A trace is what a dry run of the build prints. Commands that
  call a known compiler are kept with the flags that matter for
  preprocessing; announcements of directories by nested builds
  give each call its working directory.

  Main definitions:
    * `Invocation`
    * `Invocation.ofArguments`
    * `Trace.invocations`
-/

namespace Variability

------------------------------------------------------------
-- Calls
------------------------------------------------------------

/- A compiler call with the flags that matter for preprocessing. -/
structure Invocation where
  compiledFiles : List String := []
  includePaths : List String := []
  systemIncludePaths : List String := []
  includes : List String := []
  defines : Dict String String := []
  /- The innermost directory that was announced. -/
  workingDirectory : Option Path := none
  deriving DecidableEq, Repr, Inhabited

/- Whether a name, perhaps behind a target, is a known compiler. -/
def isCompiler (name : String) : Bool :=
  ["", "x86_64-linux-gnu-"].any fun target =>
    match Text.after? target name with
    | some rest => rest == "gcc" || rest == "g++"
    | none => false

/- The endings of files that are compiled. -/
def sourceEndings : List String :=
  [".c", ".C", ".cc", ".cpp", ".cxx", ".c++"]

/-
  Whether an argument names a file to compile. A hyphen starts
  a flag, and before the ending there is at least a character.
-/
def isSourceFile (argument : String) : Bool :=
  match argument.toList with
  | [] => false
  | c :: rest =>
      c ≠ '-' && !rest.contains '\n' &&
        sourceEndings.any fun ending =>
          ending.toList.isSuffixOf rest

namespace Invocation

------------------------------------------------------------
-- Flags
------------------------------------------------------------

/- Options that change the search for includes and are not supported. -/
def unsupportedOptions : List String :=
  ["-iquote", "-idirafter", "-I-", "-iwithprefix",
    "-iwithprefixbefore"]

/- Options whose operand is the next argument. -/
def operandOptions : List String :=
  ["-I", "-isystem", "-include"]

/- A definition without a value gets the empty value. -/
def completeDefine (define : String) : String :=
  if define.toList.contains '=' then define else define ++ "="

/-
  Keep the arguments that are understood, each include
  directory and definition in its full form, and list the
  options that are not supported. All other arguments are
  dropped, so that a flag of unknown arity shifts nothing.
-/
def filterFlags : List String → List String × List String
  | [] => ([], [])
  | arg :: rest =>
      if unsupportedOptions.contains arg then
        let (kept, unsupported) :=
          filterFlags (rest.drop (if arg = "-I-" then 0 else 1))
        (kept, arg :: unsupported)
      else if operandOptions.contains arg then
        let (kept, unsupported) := filterFlags (rest.drop 1)
        (arg :: rest.take 1 ++ kept, unsupported)
      else if arg = "-D" then
        let (kept, unsupported) := filterFlags (rest.drop 1)
        let defines :=
          (rest.take 1).map fun d => completeDefine ("-D" ++ d)
        (defines ++ kept, unsupported)
      else
        let (kept, unsupported) := filterFlags rest
        match Text.after? "-I" arg with
        | some path => ("-I" :: path :: kept, unsupported)
        | none =>
            if (Text.after? "-D" arg).isSome then
              (completeDefine arg :: kept, unsupported)
            else if isSourceFile arg then
              (arg :: kept, unsupported)
            else
              (kept, unsupported)
  termination_by arguments => arguments.length
  decreasing_by
    all_goals
      simp only [List.length_cons, List.length_drop]
      omega

@[simp]
theorem filterFlags_nil : filterFlags [] = ([], []) := by
  rw [filterFlags]

/- The name and the value of a definition, split at the first `=`. -/
def splitDefine (define : String) : String × String :=
  let cs := define.toList
  ( String.ofList (cs.takeWhile (· ≠ '=')),
    String.ofList ((cs.dropWhile (· ≠ '=')).drop 1) )

/- Add one argument that is no option with an operand. -/
def addPlain (call : Invocation) (arg : String) : Invocation :=
  match Text.after? "-D" arg with
  | some define =>
      let (name, value) := splitDefine define
      { call with defines := call.defines.insert name value }
  | none =>
      { call with compiledFiles := call.compiledFiles ++ [arg] }

/- Read filtered arguments into a call. -/
def readFlags (call : Invocation) : List String → Invocation
  | "-I" :: path :: rest =>
      readFlags
        { call with includePaths := call.includePaths ++ [path] }
        rest
  | "-isystem" :: path :: rest =>
      readFlags
        { call with
          systemIncludePaths := call.systemIncludePaths ++ [path] }
        rest
  | "-include" :: file :: rest =>
      readFlags
        { call with includes := call.includes ++ [file] }
        rest
  | arg :: rest =>
      if operandOptions.contains arg then
        readFlags call rest
      else
        readFlags (call.addPlain arg) rest
  | [] => call

theorem readFlags_cons
    {call : Invocation}
    {arg : String}
    {rest : List String}
    (hOption : arg ∉ operandOptions) :
    readFlags call (arg :: rest) =
      readFlags (call.addPlain arg) rest := by
  rw [readFlags]
  · simp [hOption]
  all_goals
    rintro _ _ rfl
    exact absurd (by decide) hOption

/- The call with the given arguments, and what is to be logged. -/
def ofArguments
    (arguments : List String)
    (workingDirectory : Option Path) :
    Invocation × Log :=
  let (kept, unsupported) := filterFlags arguments
  let log :=
    if unsupported.isEmpty then
      []
    else
      [.warning
        ("Ignoring unsupported include options: " ++
          ", ".intercalate unsupported)]
  (readFlags { workingDirectory } kept, log)

end Invocation

namespace Trace

------------------------------------------------------------
-- Directories
------------------------------------------------------------

/- Whether a word announces a message of a nested build. -/
def isNestedBuild (word : String) : Bool :=
  match Text.dropPrefix? "make[".toList word.toList with
  | none => false
  | some rest =>
      let digits := rest.takeWhile Text.isDigit
      !digits.isEmpty && rest.drop digits.length == "]:".toList

/- What a command of the trace means. -/
inductive Step where
  | enter (directory : Path)
  | leave (directory : Path)
  | unknownMessage
  | compile (arguments : List String)
  | other

/- Read a command. -/
def Step.ofCommand : List String → Step
  | [] => .other
  | name :: arguments =>
      if !arguments.isEmpty && isNestedBuild name then
        match arguments with
        | "Entering" :: _ :: directory :: _ => .enter ⟨directory⟩
        | "Leaving" :: _ :: directory :: _ => .leave ⟨directory⟩
        | _ => .unknownMessage
      else if isCompiler name then
        .compile arguments
      else
        .other

/- What has been found so far, with the directories entered, innermost first. -/
structure Progress where
  directories : List Path := []
  calls : List Invocation := []
  log : Log := []

/- Take one command. -/
def Progress.step (p : Progress) (command : List String) : Progress :=
  let words := " ".intercalate command
  match Step.ofCommand command with
  | .other => p
  | .enter directory =>
      { p with directories := directory :: p.directories }
  | .leave directory =>
      let matched :=
        match p.directories with
        | [] => false
        | innermost :: _ => innermost.same directory
      { p with
        directories := p.directories.drop 1
        log :=
          if matched then
            p.log
          else
            p.log ++ [.warning ("Mismatched make path: " ++ words)] }
  | .unknownMessage =>
      { p with
        log :=
          p.log ++ [.warning ("Ignoring make information: " ++ words)] }
  | .compile arguments =>
      let (call, log) :=
        Invocation.ofArguments arguments p.directories.head?
      { p with calls := p.calls ++ [call], log := p.log ++ log }

/- All compiler calls of a trace in order, and what is to be logged. -/
def invocations
    (trace : String) :
    Except Command.ReadError (List Invocation × Log) := do
  let commands ← Command.parse trace
  let p := commands.foldl Progress.step {}
  return (p.calls, p.log)

end Trace

end Variability
