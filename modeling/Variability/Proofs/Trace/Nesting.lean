import Variability.Proofs.Command.Reader
import Variability.Proofs.Trace.Flags

/-
  Directories of nested builds.

  A nested build says which directory it enters, and later that
  it leaves it, so the commands of a trace are nested blocks. A
  call is made in the directory of the innermost block around
  it. Blocks without calls can be taken out. This holds if every
  message with a verb for entering or leaving is about a
  directory, as others with enough words are taken for one.

  Main declarations:
    * `Trace.Nest`
    * `Trace.IsStray`
    * `Trace.gains_foldl`
    * `Trace.invocations_by_nesting`
-/

namespace Variability

namespace Trace

------------------------------------------------------------
-- Messages
------------------------------------------------------------

/- A message that a directory is entered or left. -/
def IsAnnouncement (command : List String) : Prop :=
  ∃ build verb directory,
    isNestedBuild build = true ∧ verb ∈ ["Entering", "Leaving"] ∧
      command = [build, verb, "directory", directory]

/- A message of another form that has the verb of an announcement and enough words. -/
def IsStray (command : List String) : Prop :=
  ¬ IsAnnouncement command ∧
    ∃ build verb what word more,
      isNestedBuild build = true ∧ verb ∈ ["Entering", "Leaving"] ∧
        command = build :: verb :: what :: word :: more

/- The call of a compiler that a command is. -/
def call?
    (directory : Option Path) :
    List String → Option Invocation
  | [] => none
  | name :: arguments =>
      if isCompiler name then
        some (Invocation.ofArguments arguments directory).1
      else
        none

/- A command that calls a compiler. -/
def IsCall (command : List String) : Prop :=
  ∃ name arguments,
    isCompiler name = true ∧ command = name :: arguments

theorem call?_eq_none
    {command : List String}
    (hCall : ¬ IsCall command)
    (directory : Option Path) :
    call? directory command = none := by
  cases command with
  | nil => rfl
  | cons name arguments =>
      rw [call?, if_neg]
      intro hCompiler
      exact hCall ⟨name, arguments, hCompiler, rfl⟩

------------------------------------------------------------
-- Blocks
------------------------------------------------------------

/- The commands of a trace by the blocks of nested builds. -/
inductive Nest where
  | done
  | command (words : List String) (rest : Nest)
  | block
      (build directory : String)
      (inside : Nest)
      (build' : String)
      (rest : Nest)

namespace Nest

def commands : Nest → List (List String)
  | done => []
  | command words rest => words :: rest.commands
  | block build directory inside build' rest =>
      [build, "Entering", "directory", directory] ::
        (inside.commands ++
          [build', "Leaving", "directory", directory] ::
            rest.commands)

/- All calls in order, each in the directory of the innermost block around it. -/
def calls (around : Option Path) : Nest → List Invocation
  | done => []
  | command words rest =>
      (call? around words).toList ++ rest.calls around
  | block _ directory inside _ rest =>
      inside.calls (some ⟨directory⟩) ++ rest.calls around

/- Nested builds announce the blocks, and nothing else is announced. -/
def IsProper : Nest → Prop
  | done => True
  | command words rest => ¬ IsAnnouncement words ∧ rest.IsProper
  | block build _ inside build' rest =>
      isNestedBuild build = true ∧ isNestedBuild build' = true ∧
        inside.IsProper ∧ rest.IsProper

theorem calls_eq_nil
    {nest : Nest}
    (hCalls : ∀ command ∈ nest.commands, ¬ IsCall command)
    (around : Option Path) :
    nest.calls around = [] := by
  induction nest generalizing around with
  | done => rfl
  | command words rest ih =>
      rw [commands, List.forall_mem_cons] at hCalls
      rw [calls, call?_eq_none hCalls.1, ih hCalls.2]
      rfl
  | block build directory inside build' rest ihInside ihRest =>
      rw [commands, List.forall_mem_cons, List.forall_mem_append,
        List.forall_mem_cons] at hCalls
      rcases hCalls with ⟨-, hInside, -, hRest⟩
      rw [calls, ihInside hInside, ihRest hRest]
      rfl

end Nest

------------------------------------------------------------
-- Steps
------------------------------------------------------------

variable {p q r : Progress}
variable {gained gained' : List Invocation}
variable {command : List String}

/- More calls are found, and the directories are as before. -/
structure Progress.Gains
    (p q : Progress)
    (gained : List Invocation) : Prop where
  directories : q.directories = p.directories
  calls : q.calls = p.calls ++ gained

theorem Progress.Gains.trans
    (hFirst : p.Gains q gained)
    (hSecond : q.Gains r gained') :
    p.Gains r (gained ++ gained') := by
  constructor
  · rw [hSecond.directories, hFirst.directories]
  · rw [hSecond.calls, hFirst.calls, List.append_assoc]

/- No compiler is called like a nested build. -/
theorem isCompiler_of_isNestedBuild
    {name : String}
    (hBuild : isNestedBuild name = true) :
    isCompiler name = false := by
  have hEach :
      ∀ target ∈ ["", "x86_64-linux-gnu-"],
        ∀ rest ∈ ["gcc", "g++"],
          isNestedBuild (target ++ rest) = false := by
    decide
  rw [isCompiler, List.any_eq_false]
  intro target hTarget
  cases hAfter : Text.after? target name with
  | none => simp
  | some rest =>
      dsimp only
      intro hRest
      have hMem : rest ∈ ["gcc", "g++"] := by
        simpa using hRest
      have hOther := hEach target hTarget rest hMem
      rw [← Text.eq_append_of_after? hAfter, hBuild] at hOther
      cases hOther

/- A message with another verb, or with too few words, is passed over. -/
theorem ofCommand_message
    {build : String}
    {words : List String}
    (hBuild : isNestedBuild build = true)
    (hAnnouncement : ¬ IsAnnouncement (build :: words))
    (hStray : ¬ IsStray (build :: words)) :
    Step.ofCommand (build :: words) = .unknownMessage ∨
      Step.ofCommand (build :: words) = .other := by
  have hShort (verb what word : String) (more : List String)
      (hWords : words = verb :: what :: word :: more) :
      verb ∉ ["Entering", "Leaving"] := by
    rintro hVerb
    exact hStray
      ⟨hAnnouncement, build, verb, what, word, more, hBuild, hVerb,
        congrArg (build :: ·) hWords⟩
  unfold Step.ofCommand
  dsimp only
  rw [hBuild, isCompiler_of_isNestedBuild hBuild]
  cases words with
  | nil => exact Or.inr rfl
  | cons verb words =>
      left
      rw [if_pos (by rfl)]
      split
      · rename_i what word more hWords
        exact absurd (by simp) (hShort _ _ _ _ hWords)
      · rename_i what word more hWords
        exact absurd (by simp) (hShort _ _ _ _ hWords)
      · rfl

/- A command outside announcements adds the call that it is. -/
theorem gains_command
    (hAnnouncement : ¬ IsAnnouncement command)
    (hStray : ¬ IsStray command)
    (p : Progress) :
    p.Gains (p.step command)
      (call? p.directories.head? command).toList := by
  cases command with
  | nil => exact ⟨rfl, (List.append_nil _).symm⟩
  | cons name arguments =>
      cases hBuild : isNestedBuild name with
      | true =>
          rw [call?, isCompiler_of_isNestedBuild hBuild, Progress.step]
          rcases ofCommand_message hBuild hAnnouncement hStray with
            hStep | hStep <;>
            rw [hStep] <;>
            exact ⟨rfl, (List.append_nil _).symm⟩
      | false =>
          unfold Progress.step Step.ofCommand
          dsimp only
          rw [call?, hBuild, Bool.and_false]
          cases isCompiler name with
          | true => exact ⟨rfl, rfl⟩
          | false => exact ⟨rfl, (List.append_nil _).symm⟩

/- What is gained inside a block is gained in its directory, which is left behind it. -/
theorem gains_block
    {build build' directory : String}
    (hBuild : isNestedBuild build = true)
    (hBuild' : isNestedBuild build' = true)
    (hInside :
      Progress.Gains
        (p.step [build, "Entering", "directory", directory]) q
        gained) :
    p.Gains (q.step [build', "Leaving", "directory", directory])
      gained := by
  have hEnter :
      Step.ofCommand [build, "Entering", "directory", directory] =
        .enter ⟨directory⟩ := by
    rw [Step.ofCommand, hBuild]
    rfl
  have hLeave :
      Step.ofCommand [build', "Leaving", "directory", directory] =
        .leave ⟨directory⟩ := by
    rw [Step.ofCommand, hBuild']
    rfl
  rcases hInside with ⟨hDirectories, hCalls⟩
  rw [Progress.step, hEnter] at hDirectories hCalls
  rw [Progress.step, hLeave]
  constructor
  · dsimp only
    rw [hDirectories]
    rfl
  · exact hCalls

------------------------------------------------------------
-- Runs
------------------------------------------------------------

/- Nested commands leave the directories as they are and add their calls. -/
theorem gains_foldl
    {nest : Nest}
    (hProper : nest.IsProper)
    (hStray : ∀ command ∈ nest.commands, ¬ IsStray command)
    (p : Progress) :
    p.Gains (nest.commands.foldl Progress.step p)
      (nest.calls p.directories.head?) := by
  induction nest generalizing p with
  | done => exact ⟨rfl, (List.append_nil _).symm⟩
  | command words rest ih =>
      rw [Nest.commands, List.forall_mem_cons] at hStray
      have hFirst := gains_command hProper.1 hStray.1 p
      have hRest := ih hProper.2 hStray.2 (p.step words)
      rw [hFirst.directories] at hRest
      exact hFirst.trans hRest
  | block build directory inside build' rest ihInside ihRest =>
      rw [Nest.commands, List.forall_mem_cons,
        List.forall_mem_append, List.forall_mem_cons] at hStray
      rcases hStray with ⟨-, hStrayInside, -, hStrayRest⟩
      rcases hProper with
        ⟨hBuild, hBuild', hProperInside, hProperRest⟩
      have hInside :=
        ihInside hProperInside hStrayInside
          (p.step [build, "Entering", "directory", directory])
      have hHead :
          (p.step
            [build, "Entering", "directory",
              directory]).directories.head? =
            some ⟨directory⟩ := by
        rw [Progress.step, Step.ofCommand, hBuild]
        rfl
      rw [hHead] at hInside
      have hBlock := gains_block hBuild hBuild' hInside
      have hRest := ihRest hProperRest hStrayRest
        ((inside.commands.foldl Progress.step
          (p.step
            [build, "Entering", "directory", directory])).step
          [build', "Leaving", "directory", directory])
      rw [hBlock.directories] at hRest
      rw [Nest.commands, List.foldl_cons, List.foldl_append,
        List.foldl_cons]
      exact hBlock.trans hRest

/- Neither the directories nor the calls depend on what was logged. -/
theorem gains_step_congr
    (hSame : p.Gains q [])
    (command : List String) :
    (p.step command).Gains (q.step command) [] := by
  rcases hSame with ⟨hDirectories, hCalls⟩
  rw [List.append_nil] at hCalls
  rw [Progress.step, Progress.step]
  cases Step.ofCommand command <;>
    constructor <;>
    simp [hDirectories, hCalls]

theorem gains_foldl_congr
    (hSame : p.Gains q [])
    (commands : List (List String)) :
    (commands.foldl Progress.step p).Gains
      (commands.foldl Progress.step q) [] := by
  induction commands generalizing p q with
  | nil => exact hSame
  | cons command commands ih =>
      exact ih (gains_step_congr hSame command)

theorem invocations_of_parse
    {trace : String}
    {commands : List (List String)}
    (hParse : Command.parse trace = .ok commands) :
    invocations trace =
      .ok
        ((commands.foldl Progress.step {}).calls,
          (commands.foldl Progress.step {}).log) := by
  rw [invocations, hParse]
  rfl

/-
  The calls of a nested trace are its calls of compilers, each in
  the directory of the innermost block around it, and a part that
  is nested in itself and calls no compiler can be taken out.
-/
theorem invocations_by_nesting
    {trace : String}
    {nest : Nest}
    (hProper : nest.IsProper)
    (hParse : Command.parse trace = .ok nest.commands)
    (hStray : ∀ command ∈ nest.commands, ¬ IsStray command) :
    (∃ log, invocations trace = .ok (nest.calls none, log)) ∧
      ∀ (front back : List (List String)) (block : Nest)
        (shorter : String),
        nest.commands = front ++ block.commands ++ back →
        block.IsProper →
        (∀ command ∈ block.commands, ¬ IsCall command) →
        Command.parse shorter = .ok (front ++ back) →
        ∃ log, invocations shorter = .ok (nest.calls none, log) := by
  have hCalls :
      (nest.commands.foldl Progress.step {}).calls =
        nest.calls none :=
    (gains_foldl hProper hStray {}).calls
  refine ⟨⟨_, hCalls ▸ invocations_of_parse hParse⟩, ?_⟩
  intro front back block shorter hCommands hBlock hNone hShorter
  have hStrayBlock (command : List String)
      (hMem : command ∈ block.commands) : ¬ IsStray command := by
    apply hStray
    rw [hCommands]
    simp [hMem]
  have hGains :=
    gains_foldl hBlock hStrayBlock (front.foldl Progress.step {})
  rw [block.calls_eq_nil hNone] at hGains
  have hSame := (gains_foldl_congr hGains back).calls
  rw [List.append_nil, ← List.foldl_append, ← List.foldl_append,
    ← List.foldl_append, ← List.append_assoc, ← hCommands,
    hCalls] at hSame
  exact ⟨_, hSame ▸ invocations_of_parse hShorter⟩

/- A build inside another one; the inner one only prints something. -/
def innerBuild (rest : Nest) : Nest :=
  .block "make[2]:" "b" (.command ["echo", "gcc"] .done) "make[2]:"
    rest

def outerBuild : Nest :=
  .command ["gcc", "a.c"]
    (.block "make[1]:" "/x y"
      (.command ["make[1]:", "Nothing", "to", "be", "done."]
        (innerBuild (.command ["gcc", "b.c"] .done)))
      "make[1]:" (.command ["gcc", "c.c"] .done))

def outerTrace : String :=
  "gcc a.c\n" ++
    "make[1]: Entering directory '/x y'\n" ++
    "make[1]: Nothing to be done.\n" ++
    "make[2]: Entering directory 'b'\n" ++
    "echo gcc\n" ++
    "make[2]: Leaving directory 'b'\n" ++
    "gcc b.c\n" ++
    "make[1]: Leaving directory '/x y'\n" ++
    "gcc c.c\n"

/- The trace without the inner build. -/
def shortTrace : String :=
  "gcc a.c\n" ++
    "make[1]: Entering directory '/x y'\n" ++
    "make[1]: Nothing to be done.\n" ++
    "gcc b.c\n" ++
    "make[1]: Leaving directory '/x y'\n" ++
    "gcc c.c\n"

set_option maxRecDepth 5000 in
theorem parse_outerTrace :
    Command.parse outerTrace = .ok outerBuild.commands := by
  unfold outerTrace
  rw [Command.parse_eq]
  simp only [String.toList_append, String.reduceToList]
  rfl

set_option maxRecDepth 5000 in
theorem parse_shortTrace :
    Command.parse shortTrace =
      .ok (outerBuild.commands.take 3 ++
        outerBuild.commands.drop 6) := by
  unfold shortTrace
  rw [Command.parse_eq]
  simp only [String.toList_append, String.reduceToList]
  rfl

theorem not_isAnnouncement_of_ne
    {command : List String}
    (hThird : command[2]? ≠ some "directory") :
    ¬ IsAnnouncement command := by
  rintro ⟨build, verb, directory, -, -, rfl⟩
  exact hThird rfl

/- A command with one of the verbs is not stray if it has the form of an announcement. -/
theorem not_isStray_of_form
    {command : List String}
    (hForm :
      command[1]? ∈ [some "Entering", some "Leaving"] →
        command[2]? = some "directory" ∧ command.length = 4) :
    ¬ IsStray command := by
  rintro ⟨hOther, build, verb, what, word, more, hBuild, hVerb, rfl⟩
  have hSecond :
      some verb ∈ [some "Entering", some "Leaving"] := by
    simpa using hVerb
  rcases hForm hSecond with ⟨hThird, hLength⟩
  cases hThird
  have hMore : more = [] := by simpa using hLength
  subst hMore
  exact hOther ⟨build, verb, word, hBuild, hVerb, rfl⟩

theorem isNestedBuild_make :
    isNestedBuild "make[1]:" = true ∧
      isNestedBuild "make[2]:" = true := by
  decide +kernel

theorem isProper_innerBuild
    {rest : Nest}
    (hRest : rest.IsProper) :
    (innerBuild rest).IsProper :=
  ⟨isNestedBuild_make.2, isNestedBuild_make.2,
    ⟨not_isAnnouncement_of_ne (by decide), trivial⟩, hRest⟩

theorem isProper_outerBuild : outerBuild.IsProper := by
  have hCall (file : String) : ¬ IsAnnouncement ["gcc", file] :=
    not_isAnnouncement_of_ne (by simp)
  exact
    ⟨hCall "a.c", isNestedBuild_make.1, isNestedBuild_make.1,
      ⟨not_isAnnouncement_of_ne (by decide),
        isProper_innerBuild ⟨hCall "b.c", trivial⟩⟩,
      hCall "c.c", trivial⟩

theorem invocations_by_nesting_innerBuild :
    outerBuild.IsProper ∧
      Command.parse outerTrace = .ok outerBuild.commands ∧
      (∀ command ∈ outerBuild.commands, ¬ IsStray command) ∧
      (∃ log,
        invocations outerTrace = .ok (outerBuild.calls none, log)) ∧
      (outerBuild.calls none).map (·.workingDirectory) =
        [none, some ⟨"/x y"⟩, none] ∧
      ∃ log,
        invocations shortTrace =
          .ok (outerBuild.calls none, log) := by
  have hForm :
      ∀ command ∈ outerBuild.commands,
        command[1]? ∈ [some "Entering", some "Leaving"] →
          command[2]? = some "directory" ∧
            command.length = 4 := by
    decide
  have hStray (command : List String)
      (hMem : command ∈ outerBuild.commands) : ¬ IsStray command :=
    not_isStray_of_form (hForm command hMem)
  have hNested :=
    invocations_by_nesting isProper_outerBuild parse_outerTrace
      hStray
  refine
    ⟨isProper_outerBuild, parse_outerTrace, hStray, hNested.1,
      by decide +kernel, ?_⟩
  refine
    hNested.2 (outerBuild.commands.take 3)
      (outerBuild.commands.drop 6) (innerBuild .done) shortTrace
      (by decide) (isProper_innerBuild trivial) ?_
      parse_shortTrace
  have hEcho :
      ∀ command ∈ (innerBuild .done).commands,
        ∀ name ∈ command.head?, isCompiler name = false := by
    decide
  rintro command hMem ⟨name, arguments, hCompiler, rfl⟩
  rw [hEcho _ hMem name rfl] at hCompiler
  cases hCompiler

------------------------------------------------------------
-- Unknown Directories
------------------------------------------------------------

/- A message that no directory is known, and a call behind it. -/
def unknownDirectory : Nest :=
  .command ["make[1]:", "Entering", "an", "unknown", "directory"]
    (.command ["gcc", "a.c"] .done)

def unknownTrace : String :=
  "make[1]: Entering an unknown directory\ngcc a.c\n"

/- The fourth word is taken for the directory, so the call is made in it. -/
theorem not_nested_unknownDirectory :
    unknownDirectory.IsProper ∧
      Command.parse unknownTrace = .ok unknownDirectory.commands ∧
      (unknownDirectory.calls none).map (·.workingDirectory) =
        [none] ∧
      ¬ ∃ log,
        invocations unknownTrace =
          .ok (unknownDirectory.calls none, log) := by
  have hRun :
      (invocations unknownTrace).map
          (·.1.map (·.workingDirectory)) =
        .ok [some ⟨"unknown"⟩] := by
    decide +kernel
  have hNone :
      (unknownDirectory.calls none).map (·.workingDirectory) =
        [none] := by
    decide +kernel
  refine
    ⟨⟨not_isAnnouncement_of_ne (by decide),
        not_isAnnouncement_of_ne (by decide), trivial⟩,
      by decide +kernel, hNone, ?_⟩
  rintro ⟨log, hNested⟩
  rw [hNested] at hRun
  have hSame := hNone.symm.trans (Except.ok.inj hRun)
  cases hSame

end Trace

end Variability
