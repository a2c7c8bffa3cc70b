import Variability.Proofs.Dict.Entries
import Variability.Proofs.Trace.Flags

/-
  Arguments of compiler calls, scanned once.

  A scan takes the arguments from left to right. All it knows of
  those behind it is the option that waits for its operand, and
  the next argument is this operand, whatever it looks like.
  Filtering the arguments and reading what is left takes two
  passes, yet the call is the one that this scan tells, and the
  passes agree on what is an operand.

  Main declarations:
    * `Invocation.scan`
    * `Invocation.readAs_scan`
    * `Invocation.ofArguments_by_scan`
-/

namespace Variability

namespace Invocation

------------------------------------------------------------
-- What Arguments Mean
------------------------------------------------------------

/- What is taken from the argument behind an option. -/
inductive Operand where
  | includePath
  | systemIncludePath
  | forcedInclude
  | define
  | ignored
  deriving DecidableEq, Repr

/- What arguments tell about a call. -/
inductive Flag where
  | includePath (path : String)
  | systemIncludePath (path : String)
  | forcedInclude (path : String)
  | define (name value : String)
  | file (path : String)
  | unsupported (arg : String)
  deriving DecidableEq, Repr

namespace Flag

def includePath? : Flag → Option String
  | .includePath path => some path
  | _ => none

def systemIncludePath? : Flag → Option String
  | .systemIncludePath path => some path
  | _ => none

def forcedInclude? : Flag → Option String
  | .forcedInclude path => some path
  | _ => none

def file? : Flag → Option String
  | .file path => some path
  | _ => none

def unsupported? : Flag → Option String
  | .unsupported arg => some arg
  | _ => none

/- The value that is given to a name. -/
def valueOf? (name : String) : Flag → Option String
  | .define name' value => if name = name' then some value else none
  | _ => none

/- A definition, where one without a value gets the empty value. -/
def ofDefine (text : String) : Flag :=
  .define (splitDefine text).1 (splitDefine text).2

end Flag

/- What the operand of an option means. -/
def Operand.flags : Operand → String → List Flag
  | .includePath, path => [.includePath path]
  | .systemIncludePath, path => [.systemIncludePath path]
  | .forcedInclude, path => [.forcedInclude path]
  | .define, value => [Flag.ofDefine value]
  | .ignored, _ => []

/- The options with an operand. Of those not supported, `-I-` has none. -/
def operand? : String → Option Operand
  | "-I" => some .includePath
  | "-isystem" => some .systemIncludePath
  | "-include" => some .forcedInclude
  | "-D" => some .define
  | "-iquote" => some .ignored
  | "-idirafter" => some .ignored
  | "-iwithprefix" => some .ignored
  | "-iwithprefixbefore" => some .ignored
  | _ => none

/- What an argument that is no operand means by itself. -/
def meaning (arg : String) : List Flag :=
  if arg ∈ unsupportedOptions then
    [.unsupported arg]
  else if (operand? arg).isSome then
    []
  else
    match Text.after? "-I" arg, Text.after? "-D" arg with
    | some path, _ => [.includePath path]
    | none, some text => [Flag.ofDefine text]
    | none, none => if isSourceFile arg then [.file arg] else []

------------------------------------------------------------
-- One Scan
------------------------------------------------------------

/- What arguments mean, where an option may wait for its operand. -/
def scan : Option Operand → List String → List Flag
  | _, [] => []
  | some operand, value :: rest =>
      operand.flags value ++ scan none rest
  | none, arg :: rest => meaning arg ++ scan (operand? arg) rest

/- The option that waits for its operand after some arguments. -/
def awaited : Option Operand → List String → Option Operand
  | waiting, [] => waiting
  | some _, _ :: rest => awaited none rest
  | none, arg :: rest => awaited (operand? arg) rest

theorem scan_append
    (waiting : Option Operand)
    (front back : List String) :
    scan waiting (front ++ back) =
      scan waiting front ++ scan (awaited waiting front) back := by
  induction front generalizing waiting with
  | nil => cases waiting <;> rfl
  | cons arg front ih =>
      cases waiting <;>
        rw [List.cons_append, scan, scan, awaited, ih,
          List.append_assoc]

/- The forms of an argument that are understood. -/
def IsRecognized (arg : String) : Prop :=
  (operand? arg).isSome = true ∨
    "-I".toList <+: arg.toList ∨
    "-D".toList <+: arg.toList ∨
    isSourceFile arg = true

/- The scan goes on past another argument as if it were not there. -/
theorem scan_cons_of_not_isRecognized
    {arg : String}
    (hArg : ¬ IsRecognized arg)
    (rest : List String) :
    scan none (arg :: rest) = scan none rest := by
  simp only [IsRecognized, not_or, Bool.not_eq_true,
    ← Text.after?_eq_none_iff] at hArg
  rcases hArg with ⟨hOperand, hInclude, hDefine, hFile⟩
  have hSupported : arg ∉ unsupportedOptions := by
    have hEach :
        ∀ option ∈ unsupportedOptions,
          (operand? option).isSome = true ∨
            Text.after? "-I" option ≠ none := by
      decide
    intro hMem
    rcases hEach arg hMem with hSome | hSome
    · rw [hOperand] at hSome
      cases hSome
    · exact hSome hInclude
  have hMeaning : meaning arg = [] := by
    simp [meaning, hSupported, hOperand, hInclude, hDefine, hFile]
  have hNone : operand? arg = none := by
    simpa using hOperand
  rw [scan, hMeaning, hNone, List.nil_append]

------------------------------------------------------------
-- The Two Passes
------------------------------------------------------------

variable {arg value : String}
variable {rest : List String}
variable {operand : Operand}
variable {flags flags' : List Flag}

/- Add what one flag tells. -/
def add (call : Invocation) : Flag → Invocation
  | .includePath path =>
      { call with includePaths := call.includePaths ++ [path] }
  | .systemIncludePath path =>
      { call with
        systemIncludePaths := call.systemIncludePaths ++ [path] }
  | .forcedInclude path =>
      { call with includes := call.includes ++ [path] }
  | .define name value =>
      { call with defines := call.defines.insert name value }
  | .file path =>
      { call with compiledFiles := call.compiledFiles ++ [path] }
  | .unsupported _ => call

/- The two passes over the arguments come to these flags. -/
structure ReadAs
    (arguments : List String)
    (flags : List Flag) : Prop where
  read :
    ∀ call : Invocation,
      call.readFlags (filterFlags arguments).1 = flags.foldl add call
  unsupported :
    (filterFlags arguments).2 = flags.filterMap Flag.unsupported?

theorem readAs_nil : ReadAs [] [] := by
  constructor <;> simp [readFlags]

/-
  What becomes of an option with an operand: both are kept and
  read, it is a definition, or it is listed as not supported.
-/
theorem operand?_cases
    (hOperand : operand? arg = some operand) :
    (arg ∈ operandOptions ∧
        ∀ (call : Invocation) (value : String) (rest : List String),
          call.readFlags (arg :: value :: rest) =
            ((operand.flags value).foldl add call).readFlags rest) ∨
      (arg = "-D" ∧ operand = .define) ∨
      (arg ∈ unsupportedOptions ∧ arg ≠ "-I-" ∧
        operand = .ignored) := by
  unfold operand? at hOperand
  split at hOperand <;> cases hOperand
  case h_1 | h_2 | h_3 =>
    refine Or.inl ⟨by decide, fun call value rest => ?_⟩
    rw [readFlags]
    rfl
  case h_4 => exact Or.inr (Or.inl ⟨rfl, rfl⟩)
  all_goals exact Or.inr (Or.inr (by decide))

theorem operand?_eq_none
    (hOperand : operand? arg = none) :
    arg ∉ operandOptions ∧ arg ≠ "-D" ∧
      (arg ∈ unsupportedOptions → arg = "-I-") := by
  have hEach :
      ∀ option ∈ "-D" :: options,
        operand? option = none → option = "-I-" := by
    decide
  refine ⟨fun hMem => ?_, ?_, fun hMem => ?_⟩
  · have hOption :=
      hEach arg (List.mem_cons_of_mem _ (List.mem_append_right _ hMem))
        hOperand
    rw [hOption] at hMem
    revert hMem
    decide
  · rintro rfl
    cases hOperand
  · exact
      hEach arg (List.mem_cons_of_mem _ (List.mem_append_left _ hMem))
        hOperand

theorem completeDefine_append
    (text : String) :
    completeDefine ("-D" ++ text) = "-D" ++ completeDefine text := by
  by_cases hValue : '=' ∈ text.toList <;>
    simp [completeDefine, hValue, String.append_assoc]

/- A definition is split in the same way before its value is filled in. -/
theorem splitDefine_completeDefine
    (text : String) :
    splitDefine (completeDefine text) = splitDefine text := by
  by_cases hValue : '=' ∈ text.toList
  · simp [completeDefine, hValue]
  · have hBefore : ∀ c ∈ text.toList, (c ≠ '=' : Bool) = true := by
      intro c hc
      simpa using ne_of_mem_of_not_mem hc hValue
    have hComplete : completeDefine text = text ++ "=" ++ "" := by
      simp [completeDefine, hValue]
    have hText : text.toList = text.toList ++ [] := by simp
    rw [hComplete, splitDefine_eq hValue, splitDefine, hText,
      List.takeWhile_append_of_pos hBefore,
      List.dropWhile_append_of_pos hBefore]
    simp

theorem readFlags_define
    (call : Invocation)
    (text : String)
    (rest : List String) :
    call.readFlags (completeDefine ("-D" ++ text) :: rest) =
      (call.add (Flag.ofDefine text)).readFlags rest := by
  have hAfter :
      Text.after? "-D" (completeDefine ("-D" ++ text)) =
        some (completeDefine text) := by
    rw [completeDefine_append, Text.after?_append]
  have hOption : completeDefine ("-D" ++ text) ∉ operandOptions := by
    intro hMem
    refine not_mem_options_of_define ?_
      (List.mem_append_right unsupportedOptions hMem)
    rw [hAfter]
    rfl
  rw [readFlags_cons hOption, addPlain, hAfter]
  dsimp only
  rw [splitDefine_completeDefine]
  rfl

/- Arguments of which something is kept that is read as flags. -/
theorem ReadAs.append
    {arguments : List String}
    (kept : List String)
    (flags : List Flag)
    (hFilter :
      filterFlags arguments =
        (kept ++ (filterFlags rest).1,
          flags.filterMap Flag.unsupported? ++ (filterFlags rest).2))
    (hRead :
      ∀ (call : Invocation) (more : List String),
        call.readFlags (kept ++ more) =
          (flags.foldl add call).readFlags more)
    (hRest : ReadAs rest flags') :
    ReadAs arguments (flags ++ flags') := by
  refine ⟨fun call => ?_, ?_⟩
  · rw [hFilter, hRead, hRest.read, List.foldl_append]
  · rw [hFilter, hRest.unsupported, List.filterMap_append]

/- An option that is not supported is listed, and its operand is gone. -/
theorem ReadAs.unsupportedOption
    (hOption : arg ∈ unsupportedOptions)
    (hRest : ReadAs (rest.drop (if arg = "-I-" then 0 else 1)) flags) :
    ReadAs (arg :: rest) (.unsupported arg :: flags) := by
  refine hRest.append [] [.unsupported arg] ?_ fun _ _ => rfl
  rw [filterFlags]
  simp [hOption, Flag.unsupported?]

theorem unsupported_flags
    (operand : Operand)
    (value : String) :
    (operand.flags value).filterMap Flag.unsupported? = [] := by
  cases operand <;> rfl

/- At the end of the arguments there is no operand to take. -/
theorem ReadAs.lastOption
    (hOption : arg ∈ "-D" :: operandOptions) :
    ReadAs [arg] [] := by
  rcases List.mem_cons.mp hOption with rfl | hOption
  · have hFilter : filterFlags ["-D"] = ([], []) := by
      simp [filterFlags, unsupportedOptions, operandOptions]
    constructor <;> simp [hFilter, readFlags]
  · have hFilter : filterFlags [arg] = ([arg], []) := by
      have hSupported : arg ∉ unsupportedOptions := by
        revert arg
        decide
      simp [filterFlags, hOption, hSupported]
    have hRead (call : Invocation) : call.readFlags [arg] = call := by
      rw [readFlags]
      · simp [hOption, readFlags]
      all_goals
        intro _ _ _ hRest
        cases hRest
    constructor <;> simp [hFilter, hRead]

/- The operand of an option is the argument behind it, if there is one. -/
theorem ReadAs.option
    (hOperand : operand? arg = some operand)
    (hRest : ReadAs (rest.drop 1) (scan none (rest.drop 1))) :
    ReadAs (arg :: rest) (meaning arg ++ scan (some operand) rest) := by
  rcases operand?_cases hOperand with
    ⟨hOption, hRead⟩ | ⟨rfl, rfl⟩ | ⟨hOption, hHyphen, rfl⟩
  · have hMeaning :
        ∀ option ∈ operandOptions, meaning option = [] := by
      decide
    rw [hMeaning arg hOption, List.nil_append]
    cases rest with
    | nil => exact ReadAs.lastOption (List.mem_cons_of_mem _ hOption)
    | cons value rest =>
        refine
          hRest.append [arg, value] (operand.flags value) ?_
            (hRead · value)
        rw [filterFlags_operand hOption, unsupported_flags]
        rfl
  · have hMeaning : meaning "-D" = [] := by decide
    rw [hMeaning, List.nil_append]
    cases rest with
    | nil => exact ReadAs.lastOption List.mem_cons_self
    | cons value rest =>
        refine
          hRest.append [completeDefine ("-D" ++ value)]
            [Flag.ofDefine value] ?_ fun call more =>
              readFlags_define call value more
        rw [filterFlags]
        rfl
  · have hMeaning : meaning arg = [.unsupported arg] := by
      rw [meaning, if_pos hOption]
    have hScan :
        scan (some .ignored) rest = scan none (rest.drop 1) := by
      cases rest <;> rfl
    rw [hMeaning, hScan]
    refine ReadAs.unsupportedOption hOption ?_
    rwa [if_neg hHyphen]

/- What is kept of an argument without an operand, and what it means. -/
theorem understood_cases
    (hOption : arg ∉ unsupportedOptions)
    (hOperand : operand? arg = none) :
    (∃ path,
        understood arg = ["-I", path] ∧
          meaning arg = [.includePath path]) ∨
      (∃ text,
        understood arg = [completeDefine ("-D" ++ text)] ∧
          meaning arg = [Flag.ofDefine text]) ∨
      (isSourceFile arg = true ∧ understood arg = [arg] ∧
        meaning arg = [.file arg]) ∨
      (understood arg = [] ∧ meaning arg = []) := by
  have hNone : (operand? arg).isSome = false := by rw [hOperand]; rfl
  rw [understood, meaning, if_neg hOption, hNone]
  cases hInclude : Text.after? "-I" arg with
  | some path => exact Or.inl ⟨path, rfl, rfl⟩
  | none =>
      cases hDefine : Text.after? "-D" arg with
      | some text =>
          rw [Text.eq_append_of_after? hDefine]
          exact Or.inr (Or.inl ⟨text, rfl, rfl⟩)
      | none =>
          cases hFile : isSourceFile arg with
          | true => exact Or.inr (Or.inr (Or.inl ⟨rfl, rfl, rfl⟩))
          | false => exact Or.inr (Or.inr (Or.inr ⟨rfl, rfl⟩))

/- An argument without an operand is read by itself. -/
theorem ReadAs.plain
    (hOperand : operand? arg = none)
    (hRest : ReadAs rest flags) :
    ReadAs (arg :: rest) (meaning arg ++ flags) := by
  rcases operand?_eq_none hOperand with
    ⟨hOption, hDefine, hUnsupported⟩
  by_cases hSupported : arg ∈ unsupportedOptions
  · rw [meaning, if_pos hSupported]
    refine ReadAs.unsupportedOption hSupported ?_
    rwa [if_pos (hUnsupported hSupported)]
  · have hPlain : arg ∉ options := by
      simp [options, hSupported, hOption]
    have hCases := understood_cases hSupported hOperand
    have hNone :
        (meaning arg).filterMap Flag.unsupported? = [] := by
      rcases hCases with
        ⟨_, -, hMeaning⟩ | ⟨_, -, hMeaning⟩ | ⟨-, -, hMeaning⟩ |
          ⟨-, hMeaning⟩ <;>
        rw [hMeaning] <;> rfl
    refine
      hRest.append (understood arg) (meaning arg) ?_
        fun call more => ?_
    · rw [filterFlags_cons hPlain hDefine, hNone]
      rfl
    · rcases hCases with
        ⟨path, hKept, hMeaning⟩ | ⟨text, hKept, hMeaning⟩ |
          ⟨hFile, hKept, hMeaning⟩ | ⟨hKept, hMeaning⟩
      · rw [hKept, hMeaning, List.cons_append, List.cons_append,
          readFlags]
        rfl
      · rw [hKept, hMeaning]
        exact readFlags_define call text more
      · rw [hKept, hMeaning, List.singleton_append,
          readFlags_cons hOption, addPlain_file hFile]
        rfl
      · rw [hKept, hMeaning]
        rfl

/-
  The two passes over the arguments tell what one scan tells. The
  invariant holds of the arguments without the first one as well,
  which may be the operand of an option that comes before them.
-/
theorem readAs_scan
    (arguments : List String) :
    ReadAs arguments (scan none arguments) ∧
      ReadAs (arguments.drop 1) (scan none (arguments.drop 1)) := by
  induction arguments with
  | nil => exact ⟨readAs_nil, readAs_nil⟩
  | cons arg rest ih =>
      rcases ih with ⟨hRest, hTail⟩
      refine ⟨?_, hRest⟩
      cases hOperand : operand? arg with
      | some operand =>
          rw [scan, hOperand]
          exact ReadAs.option hOperand hTail
      | none =>
          rw [scan, hOperand]
          exact hRest.plain hOperand

/- Arguments that are scanned alike make the same call and log. -/
theorem ofArguments_congr
    {arguments arguments' : List String}
    (hScan : scan none arguments = scan none arguments')
    (directory : Option Path) :
    ofArguments arguments directory =
      ofArguments arguments' directory := by
  rcases readAs_scan arguments with ⟨⟨hRead, hUnsupported⟩, -⟩
  rcases readAs_scan arguments' with ⟨⟨hRead', hUnsupported'⟩, -⟩
  simp only [ofArguments, hRead, hRead', hUnsupported,
    hUnsupported', hScan]

------------------------------------------------------------
-- The Call
------------------------------------------------------------

/-
  The call that flags make: files and directories in the order of
  their flags, and for each name the value that came last.
-/
structure IsMadeOf
    (call : Invocation)
    (flags : List Flag) : Prop where
  compiledFiles : call.compiledFiles = flags.filterMap Flag.file?
  includePaths :
    call.includePaths = flags.filterMap Flag.includePath?
  systemIncludePaths :
    call.systemIncludePaths =
      flags.filterMap Flag.systemIncludePath?
  includes : call.includes = flags.filterMap Flag.forcedInclude?
  ordered : call.defines.IsOrdered
  defines :
    ∀ name,
      call.defines.find? name =
        flags.reverse.findSome? (Flag.valueOf? name)

theorem IsMadeOf.add
    {call : Invocation}
    (hCall : call.IsMadeOf flags)
    (flag : Flag) :
    (call.add flag).IsMadeOf (flags ++ [flag]) := by
  rcases hCall with
    ⟨hFiles, hPaths, hSystemPaths, hIncludes, hOrdered, hDefines⟩
  refine ⟨?_, ?_, ?_, ?_, ?_, fun name => ?_⟩
  · cases flag <;>
      simp [Invocation.add, Flag.file?, List.filterMap_cons, hFiles]
  · cases flag <;>
      simp [Invocation.add, Flag.includePath?, List.filterMap_cons,
        hPaths]
  · cases flag <;>
      simp [Invocation.add, Flag.systemIncludePath?,
        List.filterMap_cons, hSystemPaths]
  · cases flag <;>
      simp [Invocation.add, Flag.forcedInclude?,
        List.filterMap_cons, hIncludes]
  · cases flag with
    | define name value => exact hOrdered.insert name value
    | _ => exact hOrdered
  · rw [List.reverse_append, List.reverse_singleton,
      List.singleton_append, List.findSome?_cons, ← hDefines]
    cases flag with
    | define name' value =>
        rw [Invocation.add, Dict.find?_insert, Flag.valueOf?]
        by_cases hName : name = name' <;> simp [hName]
    | _ => rfl

theorem isMadeOf_foldl
    (flags : List Flag)
    (directory : Option Path) :
    IsMadeOf
      (flags.foldl Invocation.add { workingDirectory := directory })
      flags := by
  induction flags using List.reverseRecOn with
  | nil => exact ⟨rfl, rfl, rfl, rfl, List.Pairwise.nil, fun _ => rfl⟩
  | append_singleton flags flag ih =>
      rw [List.foldl_append]
      exact ih.add flag

/-
  A call is made of what one scan of its arguments from left to
  right tells. An argument that is not understood changes neither
  the call nor the log, unless it is the operand of an option.
-/
theorem ofArguments_by_scan
    (arguments : List String)
    (directory : Option Path) :
    IsMadeOf (ofArguments arguments directory).1
        (scan none arguments) ∧
      ∀ front arg back,
        arguments = front ++ back →
        awaited none front = none →
        ¬ IsRecognized arg →
        ofArguments (front ++ arg :: back) directory =
          ofArguments arguments directory := by
  constructor
  · rw [ofArguments]
    dsimp only
    rw [(readAs_scan arguments).1.read]
    exact isMadeOf_foldl _ directory
  · rintro front arg back rfl hAwaited hArg
    apply ofArguments_congr
    rw [scan_append, scan_append, hAwaited,
      scan_cons_of_not_isRecognized hArg]

/- A forced file is no file to compile, and the flag behind it goes unnoticed. -/
theorem ofArguments_by_scan_otherFlag :
    ofArguments ["-include", "boot.c", "-Wall", "code.c"] none =
        ofArguments ["-include", "boot.c", "code.c"] none ∧
      (ofArguments ["-include", "boot.c", "code.c"]
        none).1.compiledFiles = ["code.c"] := by
  have hScan :=
    ofArguments_by_scan ["-include", "boot.c", "code.c"] none
  constructor
  · refine
      hScan.2 ["-include", "boot.c"] "-Wall" ["code.c"] rfl rfl ?_
    rw [IsRecognized]
    decide
  · rw [hScan.1.compiledFiles]
    decide

end Invocation

end Variability
