import Variability.Expression.Evaluation
import Variability.FileTree
import Variability.Log
import Variability.Preprocessor.Directive
import Variability.Token.Lexer

/-
  Preprocessing a file for all configurations at once.

  Every branch is followed that some configuration can take,
  and every line is given the condition under which it is
  reached. Text between directives is not looked into.

  Main definitions:
    * `Preprocessor.State`
    * `Preprocessor.process`
    * `Preprocessor.run`
-/

namespace Variability

namespace Preprocessor

------------------------------------------------------------
-- Settings and State
------------------------------------------------------------

/- What stays the same while files are preprocessed. -/
structure Settings where
  tree : FileTree
  /- Where files are looked for, in this order. -/
  includePaths : List Path
  systemIncludePaths : List Path
  /- How many files may be included inside each other. -/
  maxDepth : Nat
  /- Macros that stay open, whatever directives say. -/
  isFree : String → Bool

/- What files change for those that follow. -/
structure State where
  space : Space
  definitions : Definitions
  /- The files that are not read again. -/
  once : List Path
  log : Log

/- The state before the first file. -/
def State.start (space : Space) : State :=
  ⟨space, [], [], []⟩

/- A computation that preprocesses. -/
abbrev Run := StateM State

/- Build a condition from the definitions in force. -/
def build {α : Type} (f : Definitions → InSpace α) : Run α :=
  fun ⟨space, definitions, once, log⟩ =>
    let (a, space) := f definitions space
    (a, ⟨space, definitions, once, log⟩)

/- Log a warning. -/
def warn (text : String) : Run Unit :=
  modify fun ⟨space, definitions, once, log⟩ =>
    ⟨space, definitions, once, log ++ [.warning text]⟩

/- Record what a directive says about a macro. -/
def decide
    (name : String)
    (definition : Option Macro)
    (c : Condition) :
    Run Unit :=
  modify fun ⟨space, definitions, once, log⟩ =>
    let (definitions, space) :=
      definitions.record name definition c space
    ⟨space, definitions, once, log⟩

/- Do not read a file again. -/
def markOnce (path : Path) : Run Unit :=
  modify fun ⟨space, definitions, once, log⟩ =>
    ⟨space, definitions, path.normalize :: once, log⟩

------------------------------------------------------------
-- Branches
------------------------------------------------------------

/- An open group of branches. -/
structure Frame where
  /- The condition of the group. -/
  outer : Condition
  /- Where one of the tests so far held. -/
  taken : Condition
  /- The condition of the branch that is read. -/
  active : Condition
  deriving DecidableEq, Repr

/- The condition of the branch that is read. -/
def current (base : Condition) (stack : List Frame) : Condition :=
  match stack with
  | [] => base
  | frame :: _ => frame.active

/- The condition that a test asks for. -/
def testCondition
    (s : Settings)
    (word : String)
    (arguments : List Token) :
    Run Condition :=
  match Test.ofWord word arguments with
  | .expression tokens =>
      build fun definitions =>
        Evaluator.condition ⟨definitions, s.isFree⟩ tokens
  | .definedness name positive =>
      build fun definitions => do
        let c ← definitions.whetherDefined name
        return if positive then c else -c
  | .unnamed text => build fun _ => Condition.verbatim text

/-
  Whether a name guards its file against a second inclusion: at
  the start of the file, nothing was said about the name before.
-/
def isGuard
    (s : Settings)
    (definitions : Definitions)
    (name : String) :
    Bool :=
  !s.isFree name && !definitions.contains name

/- The test of an opening; `first` on the first line of its file. -/
def openingCondition
    (s : Settings)
    (first : Bool)
    (word : String)
    (arguments : List Token) :
    Run Condition := do
  match first && word == "ifndef", arguments.head? with
  | true, some guard =>
      if ← build fun definitions =>
          pure (isGuard s definitions guard.text) then
        return .one
      else
        testCondition s word arguments
  | _, _ => testCondition s word arguments

/- Open a group of branches. -/
def openGroup
    (s : Settings)
    (first : Bool)
    (outer : Condition)
    (word : String)
    (arguments : List Token) :
    Run Frame := do
  if outer = .zero then
    return ⟨outer, .one, .zero⟩
  else
    let c ← openingCondition s first word arguments
    let active ← build fun _ => Condition.and outer c
    return ⟨outer, c, active⟩

/- The next branch of a group. -/
def nextBranch
    (s : Settings)
    (frame : Frame)
    (word : String)
    (arguments : List Token) :
    Run Frame := do
  let left ← build fun _ => Condition.and frame.outer (-frame.taken)
  if left = .zero then
    return { frame with active := .zero }
  else
    let c ← testCondition s word arguments
    let active ← build fun _ => Condition.and left c
    let taken ← build fun _ => Condition.or frame.taken c
    return { frame with taken, active }

/- The last branch of a group. -/
def lastBranch (frame : Frame) : Run Frame := do
  let active ← build fun _ => Condition.and frame.outer (-frame.taken)
  return { frame with taken := .one, active }

------------------------------------------------------------
-- Directives
------------------------------------------------------------

/- Define a macro unless it stays open. -/
def define
    (s : Settings)
    (arguments : List Token)
    (c : Condition) :
    Run Unit :=
  match Macro.parse arguments with
  | some (name, m) =>
      if s.isFree name then pure () else decide name (some m) c
  | none => pure ()

/- Undefine a macro unless it stays open. -/
def undefine
    (s : Settings)
    (arguments : List Token)
    (c : Condition) :
    Run Unit :=
  match arguments with
  | t :: _ => if s.isFree t.text then pure () else decide t.text none c
  | [] => pure ()

/- What directives are read with. -/
structure Context where
  settings : Settings
  path : Path
  /- The condition of the file. -/
  base : Condition
  /- Read a file that is included under a condition. -/
  follow : List Token → Condition → Run Unit

/- Follow a directive that opens or closes no branch. -/
def effect
    (x : Context)
    (c : Condition) :
    Directive → Run Unit
  | .define arguments => define x.settings arguments c
  | .undefine arguments => undefine x.settings arguments c
  | .inclusion arguments => x.follow arguments c
  | .once => markOnce x.path
  | _ => pure ()

/- Follow a directive, and give the groups that are open then. -/
def directive
    (x : Context)
    (first : Bool)
    (stack : List Frame)
    (d : Directive) :
    Run (List Frame) := do
  let c := current x.base stack
  match d, stack with
  | .opening word arguments, _ =>
      return (← openGroup x.settings first c word arguments) :: stack
  | .alternative word arguments, frame :: outer =>
      return (← nextBranch x.settings frame word arguments) :: outer
  | .alternative word _, [] =>
      warn ("#" ++ word ++ " without #if in " ++ x.path.text)
      return []
  | .otherwise, frame :: outer =>
      return (← lastBranch frame) :: outer
  | .otherwise, [] =>
      warn ("#else without #if in " ++ x.path.text)
      return []
  | .closing, _ :: outer => return outer
  | .closing, [] =>
      warn ("#endif without #if in " ++ x.path.text)
      return []
  | d, stack =>
      if c ≠ .zero then
        effect x c d
      return stack

/-
  Read logical lines, and give for each of them its last
  physical line and the condition under which it is reached.
-/
def readLines
    (x : Context)
    (first : Bool)
    (stack : List Frame) :
    List (List Token) → Run (List (Nat × Condition))
  | [] => do
      if ¬ stack.isEmpty then
        warn (toString stack.length ++
          " unterminated conditional(s) at end of " ++ x.path.text)
      return []
  | line :: rest => do
      let c := current x.base stack
      let stack ←
        match Directive.ofLine line with
        | some d => directive x first stack d
        | none => pure stack
      let reached ← readLines x false stack rest
      return ((line.getLast?.map (·.endLine)).getD 0, c) :: reached

------------------------------------------------------------
-- Inclusions
------------------------------------------------------------

/- The file that an inclusion leads to. -/
def find?
    (s : Settings)
    (path : Path)
    (i : IncludeName) :
    Option Path :=
  let name : Path := ⟨i.name⟩
  if name.isAbsolute then
    if s.tree.isFile name then some name.normalize else none
  else
    let beside := if i.beside then path.parent?.toList else []
    let directories := beside ++ s.includePaths ++ s.systemIncludePaths
    ((directories.map (·.join name)).find? s.tree.isFile).map
      Path.normalize

/- Whether a file is not to be read again. -/
def isDone (path : Path) : Run Bool :=
  fun ⟨space, definitions, once, log⟩ =>
    (once.any path.same, ⟨space, definitions, once, log⟩)

/- Read the file that an inclusion leads to by `process`. -/
def readIncluded
    (s : Settings)
    (process : Path → String → Condition → Run Unit)
    (path : Path)
    (i : IncludeName)
    (c : Condition) :
    Run Unit := do
  match find? s path i with
  | none => pure ()
  | some file =>
      if ← isDone file then
        pure ()
      else
        match s.tree.readLossy file with
        | .ok text => process file text c
        | .error e =>
            warn ("Could not read " ++ file.text ++ ": " ++ e.message)

/- The warning that a file is not included. -/
def tooDeep (s : Settings) (path : Path) (i : IncludeName) : Run Unit :=
  warn ("Include depth limit " ++ toString s.maxDepth ++
    " reached in " ++ path.text ++ ", not following " ++ i.name)

/-
  Preprocess the text of a file under a condition, with at most
  `depth` files inside each other below it.
-/
def process
    (s : Settings)
    (depth : Nat)
    (path : Path)
    (text : String)
    (base : Condition) :
    Run (List (Nat × Condition)) :=
  let follow (arguments : List Token) (c : Condition) : Run Unit :=
    match IncludeName.ofTokens? arguments with
    | none => pure ()
    | some i =>
        match depth with
        | 0 => tooDeep s path i
        | depth + 1 =>
            readIncluded s
              (fun file text c => do
                let _ ← process s depth file text c)
              path i c
  readLines ⟨s, path, base, follow⟩ true []
    (Token.logicalLines (Token.tokenize text))

/- Preprocess a text for what it defines. -/
def inject (s : Settings) (path : Path) (text : String) : Run Unit := do
  let _ ← process s s.maxDepth path text .one

------------------------------------------------------------
-- Main Files
------------------------------------------------------------

/-
  The conditions of all physical lines up to the last logical
  line, of which the first `done` are known. Lines without
  tokens belong to the next line that has some.
-/
def perLine (done : Nat) : List (Nat × Condition) → List Condition
  | [] => []
  | (last, c) :: rest =>
      List.replicate (last - done) c ++ perLine (max done last) rest

/- The conditions of the lines of a file, from the first line on. -/
def run
    (s : Settings)
    (path : Path) :
    Run (Except FileError (List Condition)) := do
  match s.tree.readLossy path with
  | .error e => return .error e
  | .ok text =>
      let reached ← process s s.maxDepth path text .one
      return .ok (perLine 0 reached)

/- The macros that compilers define by themselves. -/
def builtinMacros : String :=
  "#define __STDC__ 1
#define __STDC_VERSION__ 201112L
#define __STDC_HOSTED__ 1
#define __GNUC__ 4
#define __GNUC_MINOR__ 2
#define __GNUC_PATCHLEVEL__ 1
#define __CHAR_BIT__ 8
#define __SIZEOF_INT__ 4
#define __SIZEOF_LONG__ 8
#define __SIZEOF_POINTER__ 8
#define __LP64__ 1
#define __x86_64__ 1
#define __linux__ 1
#define __linux 1
#define __unix__ 1
#define __ORDER_LITTLE_ENDIAN__ 1234
#define __ORDER_BIG_ENDIAN__ 4321
#define __BYTE_ORDER__ __ORDER_LITTLE_ENDIAN__
"

/- Define the macros that compilers define by themselves. -/
def injectBuiltins (s : Settings) : Run Unit :=
  inject s ⟨"<builtin>"⟩ builtinMacros

end Preprocessor

end Variability
