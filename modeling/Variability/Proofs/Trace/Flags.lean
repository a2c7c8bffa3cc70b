import Variability.Proofs.Dict.Ordered
import Variability.Trace

/-
  Flags of compiler calls.

  Filtering takes the arguments of a call from the front, an
  option with its operand at once, and so does reading. What one
  flag adds to a call does not depend on those behind it.

  Main declarations:
    * `Invocation.filterFlags_operand`
    * `Invocation.readFlags_operand`
-/

namespace Variability

------------------------------------------------------------
-- Starts of Texts
------------------------------------------------------------

namespace Text

theorem after?_append
    (start s : String) :
    after? start (start ++ s) = some s := by
  simp [after?, dropPrefix?]

theorem after?_eq_none_iff
    {start s : String} :
    after? start s = none ↔ ¬ start.toList <+: s.toList := by
  simp [after?, dropPrefix?]

/- A text is its start with what is behind it. -/
theorem eq_append_of_after?
    {start s behind : String}
    (hAfter : after? start s = some behind) :
    s = start ++ behind := by
  rw [after?, Option.map_eq_some_iff] at hAfter
  rcases hAfter with ⟨cs, hDrop, rfl⟩
  rw [dropPrefix?] at hDrop
  split at hDrop
  · rename_i hPrefix
    cases hDrop
    rw [List.isPrefixOf_iff_prefix] at hPrefix
    rw [← String.toList_inj, String.toList_append,
      String.toList_ofList]
    exact (List.prefix_iff_eq_append.mp hPrefix).symm
  · cases hDrop

theorem after?_eq_some_iff
    {start s behind : String} :
    after? start s = some behind ↔ s = start ++ behind := by
  constructor
  · exact eq_append_of_after?
  · rintro rfl
    exact after?_append start behind

end Text

namespace Invocation

variable {arg file option name value path : String}
variable {rest : List String}

------------------------------------------------------------
-- Filtering
------------------------------------------------------------

/- Keep more arguments in front of those that are kept. -/
def keeping
    (arguments : List String)
    (filtered : List String × List String) :
    List String × List String :=
  (arguments ++ filtered.1, filtered.2)

/- The arguments that are options by themselves. -/
def options : List String :=
  unsupportedOptions ++ operandOptions

theorem not_mem_options_of_after?
    (hAfter : Text.after? "-I" arg ∉ [none, some "", some "-"]) :
    arg ∉ options := by
  have hEach :
      ∀ option ∈ options,
        Text.after? "-I" option ∈ [none, some "", some "-"] := by
    decide
  exact fun hMem => hAfter (hEach arg hMem)

theorem not_mem_options_of_define
    (hDefine : (Text.after? "-D" arg).isSome = true) :
    arg ∉ options := by
  have hEach :
      ∀ option ∈ options,
        (Text.after? "-D" option).isSome = false := by
    decide
  intro hMem
  rw [hEach arg hMem] at hDefine
  cases hDefine

theorem not_mem_options_of_isSourceFile
    (hFile : isSourceFile file = true) :
    file ∉ options := by
  have hEach :
      ∀ option ∈ options, isSourceFile option = false := by
    decide
  intro hMem
  rw [hEach file hMem] at hFile
  cases hFile

/- A file that is compiled does not start like a flag. -/
theorem after?_of_isSourceFile
    (hFile : isSourceFile file = true)
    (flag : String)
    (hFlag : flag.toList.head? = some '-') :
    Text.after? flag file = none := by
  rw [Text.after?_eq_none_iff]
  intro hPrefix
  have hHead : file.toList.head? = some '-' := by
    rcases hPrefix with ⟨behind, hFileText⟩
    rw [← hFileText, List.head?_append, hFlag]
    rfl
  rw [isSourceFile] at hFile
  cases hText : file.toList with
  | nil => simp [hText] at hFile
  | cons c rest => simp_all

theorem filterFlags_operand
    (hOption : option ∈ operandOptions) :
    filterFlags (option :: value :: rest) =
      keeping [option, value] (filterFlags rest) := by
  have hSupported : option ∉ unsupportedOptions := by
    revert option
    decide
  rw [filterFlags]
  simp [hOption, hSupported, keeping]

/- What is kept of an argument that is no option by itself. -/
def understood (arg : String) : List String :=
  match Text.after? "-I" arg with
  | some path => ["-I", path]
  | none =>
      if (Text.after? "-D" arg).isSome then
        [completeDefine arg]
      else if isSourceFile arg then
        [arg]
      else
        []

theorem filterFlags_cons
    (hOption : arg ∉ options)
    (hDefine : arg ≠ "-D") :
    filterFlags (arg :: rest) =
      keeping (understood arg) (filterFlags rest) := by
  rw [options, List.mem_append, not_or] at hOption
  rw [filterFlags, understood]
  simp only [List.contains_iff_mem, hOption.1, hOption.2, hDefine,
    if_false]
  cases Text.after? "-I" arg with
  | some path => rfl
  | none =>
      cases (Text.after? "-D" arg).isSome with
      | true => rfl
      | false => cases isSourceFile arg <;> rfl

theorem filterFlags_include
    (hNonempty : path ≠ "")
    (hHyphen : path ≠ "-") :
    filterFlags (("-I" ++ path) :: rest) =
      keeping ["-I", path] (filterFlags rest) := by
  have hAfter := Text.after?_append "-I" path
  rw [filterFlags_cons, understood, hAfter]
  · apply not_mem_options_of_after?
    simp [hAfter, hNonempty, hHyphen]
  · intro hDefine
    rw [hDefine] at hAfter
    cases hAfter

/- A name and a value as they are defined on a command line. -/
def defineFlag (name value : String) : String :=
  "-D" ++ name ++ "=" ++ value

theorem after?_defineFlag
    (name value : String) :
    Text.after? "-D" (defineFlag name value) =
      some (name ++ "=" ++ value) := by
  rw [defineFlag, String.append_assoc, String.append_assoc,
    Text.after?_append, String.append_assoc]

theorem filterFlags_define :
    filterFlags (defineFlag name value :: rest) =
      keeping [defineFlag name value] (filterFlags rest) := by
  have hAfter := after?_defineFlag name value
  have hInclude : Text.after? "-I" (defineFlag name value) = none := by
    simp [Text.after?_eq_none_iff, defineFlag]
  have hComplete :
      completeDefine (defineFlag name value) =
        defineFlag name value := by
    simp [completeDefine, defineFlag]
  rw [filterFlags_cons, understood, hInclude, hAfter, hComplete]
  · rfl
  · exact not_mem_options_of_define (by rw [hAfter]; rfl)
  · intro hDefine
    have hLength := congrArg (·.toList.length) hDefine
    simp [defineFlag] at hLength

theorem filterFlags_file
    (hFile : isSourceFile file = true) :
    filterFlags (file :: rest) =
      keeping [file] (filterFlags rest) := by
  have hInclude := after?_of_isSourceFile hFile "-I" (by decide)
  have hDefine := after?_of_isSourceFile hFile "-D" (by decide)
  rw [filterFlags_cons, understood, hInclude, hDefine, hFile]
  · rfl
  · exact not_mem_options_of_isSourceFile hFile
  · rintro rfl
    cases hFile

------------------------------------------------------------
-- Reading
------------------------------------------------------------

variable {call : Invocation}

theorem splitDefine_eq
    (hName : '=' ∉ name.toList)
    (value : String) :
    splitDefine (name ++ "=" ++ value) = (name, value) := by
  have hBefore : ∀ c ∈ name.toList, (c ≠ '=' : Bool) = true := by
    intro c hc
    simpa using ne_of_mem_of_not_mem hc hName
  have hText :
      (name ++ "=" ++ value).toList =
        name.toList ++ '=' :: value.toList := by
    simp
  rw [splitDefine, hText, List.takeWhile_append_of_pos hBefore,
    List.dropWhile_append_of_pos hBefore]
  simp

theorem addPlain_define
    (hName : '=' ∉ name.toList)
    (value : String)
    (call : Invocation) :
    call.addPlain (defineFlag name value) =
      { call with
        defines := Dict.insert name value call.defines } := by
  rw [addPlain, after?_defineFlag]
  dsimp only
  rw [splitDefine_eq hName]

theorem addPlain_file
    (hFile : isSourceFile file = true)
    (call : Invocation) :
    call.addPlain file =
      { call with
        compiledFiles := call.compiledFiles ++ [file] } := by
  have hDefine := after?_of_isSourceFile hFile "-D" (by decide)
  rw [addPlain, hDefine]

------------------------------------------------------------
-- Flags in a Row
------------------------------------------------------------

variable {flags flags' : List String}
variable {add add' : Invocation → Invocation}

/- Flags that do this to a call, whatever stands before and behind them. -/
def Adds
    (flags : List String)
    (add : Invocation → Invocation) : Prop :=
  ∃ kept,
    (∀ rest,
      filterFlags (flags ++ rest) =
        keeping kept (filterFlags rest)) ∧
    ∀ call rest,
      readFlags call (kept ++ rest) = readFlags (add call) rest

theorem adds_nil : Adds [] id :=
  ⟨[], fun _ => rfl, fun _ _ => rfl⟩

theorem Adds.append
    (hFirst : Adds flags add)
    (hRest : Adds flags' add') :
    Adds (flags ++ flags') (add' ∘ add) := by
  rcases hFirst with ⟨kept, hKept, hAdd⟩
  rcases hRest with ⟨kept', hKept', hAdd'⟩
  refine ⟨kept ++ kept', fun rest => ?_, fun call rest => ?_⟩
  · rw [List.append_assoc, hKept, hKept', keeping, keeping,
      keeping, List.append_assoc]
  · rw [List.append_assoc, hAdd, hAdd']
    rfl

/- Flags of many things, where each thing's flags put it into the call. -/
theorem Adds.flatMap
    {α : Type}
    {xs : List α}
    {flagsOf : α → List String}
    {put : List α → Invocation → Invocation}
    (hNil : ∀ call, put [] call = call)
    (hCons :
      ∀ x xs call, put (x :: xs) call = put xs (put [x] call))
    (hEach : ∀ x ∈ xs, Adds (flagsOf x) (put [x])) :
    Adds (xs.flatMap flagsOf) (put xs) := by
  induction xs with
  | nil =>
      rw [funext hNil]
      exact adds_nil
  | cons x xs ih =>
      have hRest := ih fun y hy => hEach y (List.mem_cons_of_mem x hy)
      rw [funext (hCons x xs)]
      exact (hEach x List.mem_cons_self).append hRest

/- Flags of a whole call. -/
theorem Adds.ofArguments_eq
    (hAdds : Adds flags add)
    (directory : Option Path) :
    ofArguments flags directory =
      (add { workingDirectory := directory }, []) := by
  rcases hAdds with ⟨kept, hKept, hAdd⟩
  have hFilter := hKept []
  have hRead := hAdd { workingDirectory := directory } []
  rw [List.append_nil, filterFlags_nil, keeping, List.append_nil]
    at hFilter
  rw [List.append_nil] at hRead
  rw [ofArguments, hFilter]
  dsimp only
  rw [hRead, readFlags]
  rfl

------------------------------------------------------------
-- Flags of One Kind
------------------------------------------------------------

/- A call with more directories to search. -/
def withIncludePaths
    (paths : List String)
    (call : Invocation) : Invocation :=
  { call with includePaths := call.includePaths ++ paths }

def withSystemIncludePaths
    (paths : List String)
    (call : Invocation) : Invocation :=
  { call with
    systemIncludePaths := call.systemIncludePaths ++ paths }

/- A call that forces more files. -/
def withIncludes
    (files : List String)
    (call : Invocation) : Invocation :=
  { call with includes := call.includes ++ files }

/- A call with more definitions, the last one of a name being valid. -/
def withDefines
    (defines : List (String × String))
    (call : Invocation) : Invocation :=
  { call with
    defines :=
      defines.foldl (fun d e => Dict.insert e.1 e.2 d)
        call.defines }

theorem adds_includePaths
    {paths : List String}
    (hEach : ∀ path ∈ paths, path ≠ "" ∧ path ≠ "-") :
    Adds (paths.map ("-I" ++ ·)) (withIncludePaths paths) := by
  rw [List.map_eq_flatMap]
  refine
    Adds.flatMap (by simp [withIncludePaths])
      (by simp [withIncludePaths]) fun path hPath => ?_
  rcases hEach path hPath with ⟨hNonempty, hHyphen⟩
  refine ⟨["-I", path],
    fun _ => filterFlags_include hNonempty hHyphen,
    fun call rest => ?_⟩
  rw [List.cons_append, List.cons_append, readFlags]
  rfl

theorem adds_systemIncludePaths
    (paths : List String) :
    Adds (paths.flatMap fun path => ["-isystem", path])
      (withSystemIncludePaths paths) := by
  refine
    Adds.flatMap (by simp [withSystemIncludePaths])
      (by simp [withSystemIncludePaths]) fun path _ => ?_
  refine ⟨["-isystem", path],
    fun _ => filterFlags_operand (by decide), fun call rest => ?_⟩
  rw [List.cons_append, List.cons_append, readFlags]
  rfl

theorem adds_includes
    (files : List String) :
    Adds (files.flatMap fun file => ["-include", file])
      (withIncludes files) := by
  refine
    Adds.flatMap (by simp [withIncludes])
      (by simp [withIncludes]) fun file _ => ?_
  refine ⟨["-include", file],
    fun _ => filterFlags_operand (by decide), fun call rest => ?_⟩
  rw [List.cons_append, List.cons_append, readFlags]
  rfl

theorem adds_defines
    {defines : List (String × String)}
    (hNames : ∀ e ∈ defines, '=' ∉ e.1.toList) :
    Adds (defines.map fun e => defineFlag e.1 e.2)
      (withDefines defines) := by
  rw [List.map_eq_flatMap]
  refine
    Adds.flatMap (by simp [withDefines]) (by simp [withDefines])
      fun e he => ?_
  refine ⟨[defineFlag e.1 e.2], fun _ => filterFlags_define,
    fun call rest => ?_⟩
  have hOption : defineFlag e.1 e.2 ∉ operandOptions := by
    intro hMem
    refine not_mem_options_of_define ?_
      (List.mem_append_right unsupportedOptions hMem)
    rw [after?_defineFlag]
    rfl
  rw [List.singleton_append, readFlags_cons hOption,
    addPlain_define (hNames e he)]
  rfl

theorem adds_file
    (hFile : isSourceFile file = true) :
    Adds [file] fun call =>
      { call with
        compiledFiles := call.compiledFiles ++ [file] } := by
  refine ⟨[file], fun _ => filterFlags_file hFile,
    fun call rest => ?_⟩
  have hOption : file ∉ operandOptions := fun hMem =>
    not_mem_options_of_isSourceFile hFile
      (List.mem_append_right unsupportedOptions hMem)
  rw [List.singleton_append, readFlags_cons hOption,
    addPlain_file hFile]

/- Flags that are not understood are dropped. -/
theorem adds_dropped
    (hOption : arg ∉ options)
    (hDefine : arg ≠ "-D")
    (hDropped : understood arg = []) :
    Adds [arg] id := by
  refine ⟨[], fun rest => ?_, fun _ _ => rfl⟩
  rw [List.singleton_append, filterFlags_cons hOption hDefine,
    hDropped]

------------------------------------------------------------
-- Definitions
------------------------------------------------------------

/- The definitions of a call are a map, and each name ends where its value is set. -/
structure HasNames (call : Invocation) : Prop where
  ordered : call.defines.IsOrdered
  names : ∀ e ∈ call.defines, '=' ∉ e.1.toList

theorem not_mem_splitDefine
    (define : String) :
    '=' ∉ (splitDefine define).1.toList := by
  rw [splitDefine, String.toList_ofList]
  intro hMem
  simpa using List.all_eq_true.mp (List.all_takeWhile) _ hMem

theorem HasNames.addPlain
    (hCall : call.HasNames)
    (arg : String) :
    (call.addPlain arg).HasNames := by
  rw [Invocation.addPlain]
  split
  · rename_i define hDefine
    refine ⟨hCall.ordered.insert _ _, fun e he => ?_⟩
    rcases e with ⟨key, value⟩
    rcases Dict.mem_insert he with
      ⟨-, rfl | ⟨-, old, hOld⟩⟩ | hOld
    · exact not_mem_splitDefine define
    · exact hCall.names (key, old) hOld
    · exact hCall.names _ hOld
  · exact ⟨hCall.ordered, hCall.names⟩

theorem HasNames.readFlags
    (hCall : call.HasNames)
    (arguments : List String) :
    (call.readFlags arguments).HasNames := by
  fun_induction Invocation.readFlags call arguments with
  | case1 call path rest ih => exact ih ⟨hCall.ordered, hCall.names⟩
  | case2 call path rest ih => exact ih ⟨hCall.ordered, hCall.names⟩
  | case3 call path rest ih => exact ih ⟨hCall.ordered, hCall.names⟩
  | case4 call arg rest _ _ _ _ ih => exact ih hCall
  | case5 call arg rest _ _ _ _ ih => exact ih (hCall.addPlain arg)
  | case6 call => exact hCall

theorem workingDirectory_readFlags
    (call : Invocation)
    (arguments : List String) :
    (call.readFlags arguments).workingDirectory =
      call.workingDirectory := by
  have hPlain (call : Invocation) (arg : String) :
      (call.addPlain arg).workingDirectory =
        call.workingDirectory := by
    rw [Invocation.addPlain]
    split <;> rfl
  fun_induction Invocation.readFlags call arguments <;>
    simp_all

theorem hasNames_ofArguments
    (arguments : List String)
    (directory : Option Path) :
    (ofArguments arguments directory).1.HasNames := by
  have hNone :
      HasNames { workingDirectory := directory } :=
    ⟨List.Pairwise.nil, nofun⟩
  exact hNone.readFlags _

theorem workingDirectory_ofArguments
    (arguments : List String)
    (directory : Option Path) :
    (ofArguments arguments directory).1.workingDirectory =
      directory :=
  workingDirectory_readFlags _ _

end Invocation

namespace Trace

/- The calls of a trace are made of the arguments of its commands. -/
theorem exists_of_mem_foldl
    {commands : List (List String)}
    {p : Progress}
    {call : Invocation}
    (hMem : call ∈ (commands.foldl Progress.step p).calls) :
    call ∈ p.calls ∨
      ∃ arguments directory,
        call = (Invocation.ofArguments arguments directory).1 := by
  induction commands generalizing p with
  | nil => exact Or.inl hMem
  | cons command commands ih =>
      rcases ih hMem with hStep | hNew
      · rw [Progress.step] at hStep
        cases hCommand : Step.ofCommand command with
        | compile arguments =>
            simp only [hCommand, List.mem_append,
              List.mem_singleton] at hStep
            rcases hStep with hOld | hNew
            · exact Or.inl hOld
            · exact Or.inr ⟨arguments, _, hNew⟩
        | _ =>
            rw [hCommand] at hStep
            exact Or.inl hStep
      · exact Or.inr hNew

theorem hasNames_of_mem_invocations
    {trace : String}
    {calls : List Invocation}
    {log : Log}
    {call : Invocation}
    (hTrace : invocations trace = .ok (calls, log))
    (hMem : call ∈ calls) :
    call.HasNames := by
  rw [invocations] at hTrace
  cases hParse : Command.parse trace with
  | error e =>
      rw [hParse] at hTrace
      cases hTrace
  | ok commands =>
      rw [hParse] at hTrace
      cases hTrace
      rcases exists_of_mem_foldl hMem with
        hNone | ⟨arguments, directory, rfl⟩
      · cases hNone
      · exact Invocation.hasNames_ofArguments arguments directory

end Trace

end Variability
