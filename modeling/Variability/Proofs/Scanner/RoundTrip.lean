import Variability.Proofs.Command.Quoting
import Variability.Proofs.Path.Naming
import Variability.Proofs.Trace.Flags
import Variability.Scanner

/-
  The call that asks a compiler is one of the trace's calls.

  Written as a line of a trace, the flags that a compiler is asked
  with are read back as one call, and that call as one inclusion.
  It is the one asked about if the inclusion's paths name the same
  when they are seen from the source tree. The paths of calls made
  in absolute directories do.

  Main declarations:
    * `Scanner.reread`
    * `Scanner.Survives`
    * `Scanner.reread_iff`
-/

namespace Variability

namespace Scanner

variable {i : Inclusion}
variable {call : Invocation}
variable {source buildDir : Path}

------------------------------------------------------------
-- The Line
------------------------------------------------------------

/- The line of a trace that asks about a file. -/
def traceLine (i : Inclusion) : String :=
  " ".intercalate ("gcc" :: (arguments i).map Command.quote)

/- What the line is taken for, if it is read from the source tree. -/
def reread
    (i : Inclusion)
    (source : Path) :
    Except Command.ReadError (List Inclusion) := do
  let (calls, _) ← Trace.invocations (traceLine i)
  return calls.flatMap
    (Inclusion.ofInvocation · source source)

theorem spells_gcc : Command.Spells "gcc" "gcc" where
  starts := ⟨'g', ['c', 'c'], rfl, by decide⟩
  reads offset tail hTail :=
    ⟨offset + 3, Command.readArgument_over hTail⟩

/- The line is one command, without the arguments that are empty. -/
theorem parse_traceLine
    (i : Inclusion) :
    Command.parse (traceLine i) =
      .ok ["gcc" :: (arguments i).filter (· ≠ "")] := by
  have hSpells :
      List.Forall₂ Command.Spells
        ("gcc" :: (arguments i).map Command.quote)
        ("gcc" :: arguments i) :=
    .cons spells_gcc (Command.spells_map_quote _)
  have hParse := Command.hasCommands_line hSpells 0
  have hName : "gcc" ≠ "" := by decide
  rw [List.filter_cons_of_pos (by simp [hName]),
    List.filter_cons_of_pos (by simp), List.filter_nil] at hParse
  exact hParse

theorem ofCommand_gcc
    (arguments : List String) :
    Trace.Step.ofCommand ("gcc" :: arguments) =
      .compile arguments := by
  have hNested : Trace.isNestedBuild "gcc" = false := by decide
  have hCompiler : isCompiler "gcc" = true := by decide
  simp [Trace.Step.ofCommand, hNested, hCompiler]

/- The one call of the line, made in no directory that was announced. -/
theorem invocations_traceLine
    (i : Inclusion) :
    Trace.invocations (traceLine i) =
      .ok
        ([(Invocation.ofArguments
            ((arguments i).filter (· ≠ "")) none).1],
          (Invocation.ofArguments
            ((arguments i).filter (· ≠ "")) none).2) := by
  have hStep :
      Trace.Progress.step {}
          ("gcc" :: (arguments i).filter (· ≠ "")) =
        { calls :=
            [(Invocation.ofArguments
              ((arguments i).filter (· ≠ "")) none).1],
          log :=
            (Invocation.ofArguments
              ((arguments i).filter (· ≠ "")) none).2 } := by
    rw [Trace.Progress.step, ofCommand_gcc]
    rfl
  rw [Trace.invocations, parse_traceLine]
  change Except.ok (α := List Invocation × Log)
    ((Trace.Progress.step {} _).calls,
      (Trace.Progress.step {} _).log) = _
  rw [hStep]

theorem reread_eq
    (i : Inclusion)
    (source : Path) :
    reread i source =
      .ok (Inclusion.ofInvocation
        (Invocation.ofArguments
          ((arguments i).filter (· ≠ "")) none).1
        source source) := by
  rw [reread, invocations_traceLine]
  exact congrArg Except.ok (List.append_nil _)

------------------------------------------------------------
-- The Flags
------------------------------------------------------------

/-
  What a compiler's flags tell apart: every path names a file or
  the tree as it is seen from the tree, and each name that is
  defined ends where its value is set.
-/
structure Survives (source : Path) (i : Inclusion) : Prop where
  file : source.IsNamed i.file
  forced : ∀ p ∈ i.forced, source.IsNamed p
  includePaths : ∀ p ∈ i.includePaths, source.IsNamed p
  systemIncludePaths :
    ∀ p ∈ i.systemIncludePaths, source.IsNamed p
  names : ∀ e ∈ i.defines, '=' ∉ e.1.toList

/- No argument is empty if no path is. -/
theorem ne_empty_of_mem_arguments
    (hSurvives : Survives source i)
    {arg : String}
    (hMem : arg ∈ arguments i) :
    arg ≠ "" := by
  simp only [arguments, List.mem_append, List.mem_map,
    List.mem_flatMap, List.mem_cons, List.not_mem_nil,
    or_false] at hMem
  rcases hMem with
    (((⟨p, hp, rfl⟩ | ⟨p, hp, rfl | rfl⟩) | ⟨e, he, rfl⟩) |
      ⟨p, hp, rfl | rfl⟩) | rfl | rfl | rfl
  · simp
  · decide
  · exact (hSurvives.systemIncludePaths p hp).nonempty
  · simp
  · decide
  · exact (hSurvives.forced p hp).nonempty
  · decide
  · decide
  · exact hSurvives.file.nonempty

/- The call that is read back if no path is empty. -/
def secondCall (i : Inclusion) : Invocation where
  compiledFiles := [i.file.text]
  includePaths := i.includePaths.map (·.text)
  systemIncludePaths := i.systemIncludePaths.map (·.text)
  includes := i.forced.map (·.text)
  defines := i.defines

theorem ofArguments_arguments
    (hSurvives : Survives source i)
    (hOrdered : i.defines.IsOrdered)
    (hFile : isSourceFile i.file.text = true)
    (hHyphen : ⟨"-"⟩ ∉ i.includePaths) :
    Invocation.ofArguments (arguments i) none =
      (secondCall i, []) := by
  have hPaths :
      ∀ path ∈ i.includePaths.map (·.text),
        path ≠ "" ∧ path ≠ "-" := by
    intro path hPath
    rcases List.mem_map.mp hPath with ⟨p, hp, rfl⟩
    refine ⟨(hSurvives.includePaths p hp).nonempty, ?_⟩
    rintro hText
    exact hHyphen (hText ▸ hp)
  have hQuestion : Invocation.Adds ["-M", "-MG"] id :=
    (Invocation.adds_dropped (by decide) (by decide)
        (by decide)).append
      (Invocation.adds_dropped (by decide) (by decide)
        (by decide))
  have hAdds :=
    ((((Invocation.adds_includePaths hPaths).append
      (Invocation.adds_systemIncludePaths
        (i.systemIncludePaths.map (·.text)))).append
      (Invocation.adds_defines hSurvives.names)).append
      (Invocation.adds_includes (i.forced.map (·.text)))).append
      (hQuestion.append (Invocation.adds_file hFile))
  have hFlags :
      arguments i =
        (i.includePaths.map (·.text)).map ("-I" ++ ·) ++
            (i.systemIncludePaths.map (·.text)).flatMap
              (fun path => ["-isystem", path]) ++
            i.defines.map
              (fun e => Invocation.defineFlag e.1 e.2) ++
            (i.forced.map (·.text)).flatMap
              (fun file => ["-include", file]) ++
          (["-M", "-MG"] ++ [i.file.text]) := by
    simp [arguments, Invocation.defineFlag, List.flatMap_map]
  have hDefines := hOrdered.ofList_eq
  rw [Dict.ofList_eq] at hDefines
  rw [hFlags, hAdds.ofArguments_eq none]
  simp [Invocation.withIncludePaths,
    Invocation.withSystemIncludePaths, Invocation.withDefines,
    Invocation.withIncludes, secondCall, hDefines]

------------------------------------------------------------
-- The Paths
------------------------------------------------------------

/- An inclusion as it is made: of reduced paths, with a set of forced files and a map. -/
structure IsMade (i : Inclusion) : Prop where
  file : i.file.normalize = i.file
  forced : ∀ p ∈ i.forced, p.IsReduced
  forcedOrdered : Path.IsOrderedSet i.forced
  includePaths : ∀ p ∈ i.includePaths, p.IsReduced
  systemIncludePaths : ∀ p ∈ i.systemIncludePaths, p.IsReduced
  defines : i.defines.IsOrdered

/- A path of a call as it is seen from the source tree. -/
def seen
    (call : Invocation)
    (buildDir source : Path)
    (text : String) : Path :=
  Path.rebase ⟨text⟩ (call.workingDirectory.getD buildDir) source

/- The parts of an inclusion that a call makes. -/
theorem exists_of_mem_ofInvocation
    (hMem : i ∈ Inclusion.ofInvocation call buildDir source) :
    ∃ file, i =
      { file := (seen call buildDir source file).normalize
        forced :=
          Path.orderedSet
            (call.includes.map (seen call buildDir source))
        defines := call.defines
        includePaths :=
          call.includePaths.map (seen call buildDir source)
        systemIncludePaths :=
          call.systemIncludePaths.map
            (seen call buildDir source) } := by
  rcases List.mem_map.mp hMem with ⟨file, -, rfl⟩
  exact ⟨file, rfl⟩

theorem isMade_of_mem
    (hOrdered : call.defines.IsOrdered)
    (hMem : i ∈ Inclusion.ofInvocation call buildDir source) :
    IsMade i := by
  rcases exists_of_mem_ofInvocation hMem with ⟨file, rfl⟩
  have hEach (texts : List String) :
      ∀ p ∈ texts.map (seen call buildDir source),
        p.IsReduced := by
    intro p hp
    rcases List.mem_map.mp hp with ⟨text, -, rfl⟩
    exact Path.isReduced_rebase _ _ _
  constructor <;> dsimp only
  · exact Path.normalize_normalize _
  · exact fun p hp => hEach _ p (Path.mem_of_mem_orderedSet hp)
  · exact Path.isOrderedSet_orderedSet _
  · exact hEach call.includePaths
  · exact hEach call.systemIncludePaths
  · exact hOrdered

/- What a call in an absolute directory includes is told apart by its flags. -/
theorem survives_of_mem
    (hSource : source.normalize = source)
    (hAbsolute : source.isAbsolute = true)
    (hBase :
      (call.workingDirectory.getD buildDir).isAbsolute = true)
    (hNames : ∀ e ∈ call.defines, '=' ∉ e.1.toList)
    (hMem : i ∈ Inclusion.ofInvocation call buildDir source)
    (hFile : i.file.text ≠ "") :
    Survives source i := by
  rcases exists_of_mem_ofInvocation hMem with ⟨file, rfl⟩
  have hEach (texts : List String) :
      ∀ p ∈ texts.map (seen call buildDir source),
        source.IsNamed p := by
    intro p hp
    rcases List.mem_map.mp hp with ⟨text, -, rfl⟩
    exact Path.isNamed_rebase hSource hAbsolute hBase _
  have hFollows :
      source.FollowsConvention
        (seen call buildDir source file).normalize :=
    Path.followsConvention_rebase hSource hAbsolute hBase ⟨file⟩
  dsimp only at hFile
  constructor <;> dsimp only
  · exact
      hFollows.isNamed hSource
        (Path.isNormal_components_normalize _) hFile
  · exact fun p hp => hEach _ p (Path.mem_of_mem_orderedSet hp)
  · exact hEach call.includePaths
  · exact hEach call.systemIncludePaths
  · exact hNames

theorem rebase_texts
    {ps : List Path}
    (hSource : source.normalize = source)
    (hAbsolute : source.isAbsolute = true)
    (hReduced : ∀ p ∈ ps, p.IsReduced)
    (hNamed : ∀ p ∈ ps, source.IsNamed p) :
    (ps.map (·.text)).map
        (fun text => Path.rebase ⟨text⟩ source source) = ps := by
  rw [List.map_map]
  conv => rhs; rw [← List.map_id ps]
  exact List.map_congr_left fun p hp =>
    Path.rebase_eq_self hSource hAbsolute (hReduced p hp)
      (hNamed p hp)

/- Seen from the tree, the second call is one of the same inclusion. -/
theorem ofInvocation_secondCall
    (hSource : source.normalize = source)
    (hAbsolute : source.isAbsolute = true)
    (hMade : IsMade i)
    (hSurvives : Survives source i) :
    Inclusion.ofInvocation (secondCall i) source source = [i] := by
  have hFile :=
    Path.rebase_eq_self hSource hAbsolute (Or.inl hMade.file)
      hSurvives.file
  have hForced :=
    rebase_texts hSource hAbsolute hMade.forced hSurvives.forced
  have hIncludePaths :=
    rebase_texts hSource hAbsolute hMade.includePaths
      hSurvives.includePaths
  have hSystemIncludePaths :=
    rebase_texts hSource hAbsolute hMade.systemIncludePaths
      hSurvives.systemIncludePaths
  change
    [Inclusion.make (Path.rebase i.file source source)
      (Path.orderedSet ((i.forced.map (·.text)).map
        fun text => Path.rebase ⟨text⟩ source source))
      i.defines
      ((i.includePaths.map (·.text)).map
        fun text => Path.rebase ⟨text⟩ source source)
      ((i.systemIncludePaths.map (·.text)).map
        fun text => Path.rebase ⟨text⟩ source source)] = [i]
  rw [hFile, hForced, hIncludePaths, hSystemIncludePaths,
    Path.orderedSet_eq_self hMade.forcedOrdered, Inclusion.make,
    hMade.file]

------------------------------------------------------------
-- The Round Trip
------------------------------------------------------------

/-
  The flags of an inclusion that was made against the source tree
  are read back as that inclusion alone, exactly if they survive.
  They do if it is one of a trace's call in an absolute directory.
-/
theorem reread_iff
    (hSource : source.normalize = source)
    (hAbsolute : source.isAbsolute = true)
    (hOrdered : call.defines.IsOrdered)
    (hMem : i ∈ Inclusion.ofInvocation call buildDir source)
    (hFile : isSourceFile i.file.text = true)
    (hHyphen : ⟨"-"⟩ ∉ i.includePaths) :
    (reread i source = .ok [i] ↔ Survives source i) ∧
      ((call.workingDirectory.getD buildDir).isAbsolute = true →
        (∃ trace calls log,
          Trace.invocations trace = .ok (calls, log) ∧
            call ∈ calls) →
        reread i source = .ok [i]) := by
  have hNonempty : i.file.text ≠ "" := by
    intro hText
    rw [hText] at hFile
    cases hFile
  have hBack (hSurvives : Survives source i) :
      reread i source = .ok [i] := by
    have hFilter :
        (arguments i).filter (· ≠ "") = arguments i :=
      List.filter_eq_self.mpr fun arg hArg => by
        simpa using ne_empty_of_mem_arguments hSurvives hArg
    have hMade := isMade_of_mem hOrdered hMem
    rw [reread_eq, hFilter,
      ofArguments_arguments hSurvives hMade.defines hFile hHyphen,
      ofInvocation_secondCall hSource hAbsolute hMade hSurvives]
  refine ⟨⟨fun hReread => ?_, hBack⟩, ?_⟩
  · rw [reread_eq] at hReread
    injection hReread with hOne
    have hNames :=
      Invocation.hasNames_ofArguments
        ((arguments i).filter (· ≠ "")) none
    refine
      survives_of_mem hSource hAbsolute ?_ hNames.names
        (hOne ▸ List.mem_singleton_self i) hNonempty
    rw [Invocation.workingDirectory_ofArguments]
    exact hAbsolute
  · rintro hBase ⟨trace, calls, log, hTrace, hCall⟩
    have hNames := Trace.hasNames_of_mem_invocations hTrace hCall
    exact hBack
      (survives_of_mem hSource hAbsolute hBase hNames.names hMem
        hNonempty)

/- A call in an absolute directory. -/
def searchingTrace : String :=
  "gcc -I inc -DX=1 -include k.h ../a.c\n"

def searchingCall : Invocation :=
  { compiledFiles := ["../a.c"], includePaths := ["inc"],
    includes := ["k.h"], defines := [("X", "1")] }

def searching : Inclusion :=
  { file := ⟨"a.c"⟩, forced := [⟨"b/k.h"⟩],
    defines := [("X", "1")], includePaths := [⟨"b/inc"⟩] }

theorem reread_searching :
    searching ∈
        Inclusion.ofInvocation searchingCall ⟨"/s/b"⟩ ⟨"/s"⟩ ∧
      reread searching ⟨"/s"⟩ = .ok [searching] := by
  have hCall :
      Inclusion.ofInvocation searchingCall ⟨"/s/b"⟩ ⟨"/s"⟩ =
        [searching] := by
    decide
  have hMem :
      searching ∈
        Inclusion.ofInvocation searchingCall ⟨"/s/b"⟩ ⟨"/s"⟩ :=
    hCall ▸ List.mem_singleton_self searching
  have hTrace :
      Trace.invocations searchingTrace =
        .ok ([searchingCall], []) := by
    decide +kernel
  have hOrdered : searchingCall.defines.IsOrdered :=
    List.pairwise_singleton _ _
  have hSource : (⟨"/s"⟩ : Path).normalize = ⟨"/s"⟩ := by
    decide
  have hKept :=
    reread_iff hSource (by decide) hOrdered hMem (by decide)
      (by decide)
  exact
    ⟨hMem, hKept.2 (by decide)
      ⟨searchingTrace, [searchingCall], [], hTrace,
        List.mem_singleton_self searchingCall⟩⟩

------------------------------------------------------------
-- A Relative Directory
------------------------------------------------------------

/- A nested build that names its directory by a relative path. -/
def nestedTrace : String :=
  "make[1]: Entering directory 'b'\ngcc ../../x.c\n"

def nestedCall : Invocation :=
  { compiledFiles := ["../../x.c"],
    workingDirectory := some ⟨"b"⟩ }

def nested : Inclusion :=
  { file := ⟨"../x.c"⟩ }

/-
  The directory is not resolved, so the file keeps a step up that
  the source tree's own directory takes away once more.
-/
theorem not_reread_nested :
    Trace.invocations nestedTrace = .ok ([nestedCall], []) ∧
      Inclusion.ofInvocation nestedCall ⟨"/s"⟩ ⟨"/s"⟩ =
        [nested] ∧
      (⟨"/s"⟩ : Path).normalize = ⟨"/s"⟩ ∧
      (⟨"/s"⟩ : Path).isAbsolute = true ∧
      isSourceFile nested.file.text = true ∧
      ⟨"-"⟩ ∉ nested.includePaths ∧
      reread nested ⟨"/s"⟩ = .ok [{ file := ⟨"/x.c"⟩ }] ∧
      reread nested ⟨"/s"⟩ ≠ .ok [nested] := by
  have hReread :
      reread nested ⟨"/s"⟩ = .ok [{ file := ⟨"/x.c"⟩ }] := by
    decide +kernel
  refine
    ⟨by decide +kernel, by decide +kernel, by decide +kernel,
      by decide, by decide, by decide, hReread, ?_⟩
  rw [hReread]
  simp [nested]

end Scanner

end Variability
