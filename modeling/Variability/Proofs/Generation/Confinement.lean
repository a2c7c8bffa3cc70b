import Variability.Proofs.Generation.Filling
import Variability.Proofs.Scanner.Answers

/-
  Where the files of a variant come from and go to.

  Files inside the source tree are named relative to it and all
  others by absolute paths. The files of compiler calls are; the
  prerequisites in the answers of a scanner are taken as they are
  written, so whether all dependencies are named so depends on
  them. If they are, what is generated from them stays in the
  output tree, and nothing else than the source tree is copied.

  Main declarations:
    * `Scanner.follows_given_iff`
    * `Scanner.resolve_confined_iff`
-/

namespace Variability

------------------------------------------------------------
-- Headers
------------------------------------------------------------

namespace Path

/- The last part of a text goes on with a character that is no slash. -/
theorem exists_splitSlash_concat
    {c : Char}
    (hc : c ≠ '/')
    (s : List Char) :
    ∃ parts part, splitSlash (s ++ [c]) = parts ++ [part ++ [c]] := by
  induction s with
  | nil =>
      refine ⟨[], [], ?_⟩
      rw [List.nil_append, splitSlash_cons hc]
      rfl
  | cons d s ih =>
      rcases ih with ⟨parts, part, hParts⟩
      by_cases hd : d = '/'
      · refine ⟨[] :: parts, part, ?_⟩
        rw [List.cons_append, splitSlash, if_pos hd, hParts]
        rfl
      · rw [List.cons_append, splitSlash_cons hd, hParts]
        cases parts with
        | nil => exact ⟨[], d :: part, rfl⟩
        | cons first parts =>
            exact ⟨(d :: first) :: parts, part, rfl⟩

/- A path whose text ends in an ordinary character ends in a name. -/
theorem components_normalize_ne_nil
    {p : Path}
    {c : Char}
    {s : List Char}
    (hText : p.text.toList = s ++ [c])
    (hSlash : c ≠ '/')
    (hDot : c ≠ '.') :
    p.normalize.components ≠ [] := by
  rcases exists_splitSlash_concat hSlash s with
    ⟨parts, part, hParts⟩
  have hLast :
      component? (part ++ [c]) =
        some (.name (String.ofList (part ++ [c]))) := by
    unfold component?
    split
    · simp_all
    · rename_i hEq
      have hEnd := congrArg List.getLast? hEq
      simp [hDot] at hEnd
    · rename_i hEq
      have hEnd := congrArg List.getLast? hEq
      simp [hDot] at hEnd
    · rfl
  rw [components_normalize, components, hText, componentsOf_eq,
    partsOf, hParts, List.filterMap_append, ← List.append_assoc]
  simp [hLast, normalizeComponents, pushComponent]

end Path

namespace MakeRule

/- A header has a name of its own, whatever leads to it. -/
theorem components_ne_nil_of_isHeader
    {q : String}
    (hHeader : isHeader q = true) :
    (⟨q⟩ : Path).normalize.components ≠ [] := by
  rw [isHeader, Bool.and_eq_true] at hHeader
  rcases List.any_eq_true.mp hHeader.2 with
    ⟨ending, hEnding, hSuffix⟩
  rcases List.isSuffixOf_iff_suffix.mp hSuffix with
    ⟨before, hText⟩
  have hLast : ∃ s c, ending.toList = s ++ [c] ∧
      c ≠ '/' ∧ c ≠ '.' := by
    simp only [headerEndings, List.mem_cons, List.not_mem_nil,
      or_false] at hEnding
    rcases hEnding with rfl | rfl | rfl | rfl | rfl
    · exact ⟨['.'], 'h', rfl, by decide, by decide⟩
    · exact ⟨['.'], 'H', rfl, by decide, by decide⟩
    · exact ⟨['.', 'h', 'p'], 'p', rfl, by decide, by decide⟩
    · exact ⟨['.', 'h', 'x'], 'x', rfl, by decide, by decide⟩
    · exact ⟨['.', 'h', '+'], '+', rfl, by decide, by decide⟩
  rcases hLast with ⟨s, c, hEq, hSlash, hDot⟩
  rw [hEq, ← List.append_assoc] at hText
  exact
    Path.components_normalize_ne_nil hText.symm hSlash hDot

/- A prerequisite is named as the rule names it, in its normal form. -/
theorem file_dependency
    (i : Inclusion)
    (q : String) :
    (dependency i q).file = (⟨q⟩ : Path).normalize := by
  unfold dependency
  split <;> rfl

end MakeRule

------------------------------------------------------------
-- Resolving
------------------------------------------------------------

namespace Scanner

variable {scanner : Scanner}
variable {sourceDir : Path}
variable {w w' : Workspace}
variable {deps : List Dependency}
variable {compiled : List Inclusion}
variable {answers : List (Inclusion × String)}

theorem mem_given_iff
    (d : Dependency) :
    d ∈ given compiled answers ↔
      (∃ i ∈ compiled, .compiled i = d) ∨
        ∃ answer ∈ answers,
          ∃ q ∈ MakeRule.prerequisites answer.2,
            MakeRule.dependency answer.1 q = d := by
  rw [given, List.mem_append, List.mem_map, List.mem_flatMap]
  simp only [MakeRule.dependencies, List.mem_map]

/- Files of compiler calls on a source tree. -/
def AreCalled
    (sourceDir : Path)
    (compiled : List Inclusion) : Prop :=
  ∀ i ∈ compiled, ∃ call buildDir,
    i ∈ Inclusion.ofInvocation call buildDir sourceDir

/-
  The file of a call is rebased, so it follows the convention
  unless it starts with a step up.
-/
theorem follows_file_iff
    (hRoot : sourceDir.normalize = sourceDir)
    (hAbsolute : sourceDir.isAbsolute = true)
    {call : Invocation}
    {buildDir : Path}
    {i : Inclusion}
    (hMem : i ∈ Inclusion.ofInvocation call buildDir sourceDir) :
    sourceDir.FollowsConvention i.file ↔
      i.file.components.head? ≠ some .up := by
  rcases List.mem_map.mp hMem with ⟨file, -, rfl⟩
  simp only [Inclusion.make]
  exact
    Path.followsConvention_rebase_iff hRoot hAbsolute ⟨file⟩
      (call.workingDirectory.getD buildDir)

/- All files that are given are in their normal form. -/
theorem normalize_given
    (hCalled : AreCalled sourceDir compiled)
    {d : Dependency}
    (hMem : d ∈ given compiled answers) :
    d.file.normalize = d.file := by
  rcases (mem_given_iff d).mp hMem with
    ⟨i, hi, rfl⟩ | ⟨answer, -, q, -, rfl⟩
  · rcases hCalled i hi with ⟨call, buildDir, hFile⟩
    exact Inclusion.normalize_file hFile
  · rw [MakeRule.file_dependency]
    exact Path.normalize_normalize _

theorem isNormal_given
    (hCalled : AreCalled sourceDir compiled)
    {d : Dependency}
    (hMem : d ∈ given compiled answers) :
    Path.IsNormal d.file.components :=
  Path.isNormal_of_normalize_eq (normalize_given hCalled hMem)

/-
  What is given follows the convention if no file of a call
  starts with a step up and every prerequisite is proper.
-/
theorem follows_given_iff
    (hRoot : sourceDir.normalize = sourceDir)
    (hAbsolute : sourceDir.isAbsolute = true)
    (hCalled : AreCalled sourceDir compiled) :
    (∀ d ∈ given compiled answers,
        sourceDir.FollowsConvention d.file) ↔
      (∀ i ∈ compiled, i.file.components.head? ≠ some .up) ∧
        ∀ answer ∈ answers,
          ∀ q ∈ MakeRule.prerequisites answer.2,
            sourceDir.IsProper (⟨q⟩ : Path).normalize := by
  have hRootNormal := Path.isNormal_of_normalize_eq hRoot
  have hFollows : ∀ d ∈ given compiled answers,
      (sourceDir.FollowsConvention d.file ↔
        sourceDir.IsProper d.file) := fun d hMem =>
    Path.followsConvention_iff hRootNormal
      (isNormal_given hCalled hMem)
  refine ⟨fun hAll => ⟨fun i hi => ?_, fun answer ha q hq => ?_⟩,
    fun ⟨hFiles, hRules⟩ d hMem => ?_⟩
  · have hMem : .compiled i ∈ given compiled answers :=
      (mem_given_iff _).mpr (Or.inl ⟨i, hi, rfl⟩)
    exact ((hFollows _ hMem).mp (hAll _ hMem)).head?_ne
  · have hMem :
        MakeRule.dependency answer.1 q ∈
          given compiled answers :=
      (mem_given_iff _).mpr (Or.inr ⟨answer, ha, q, hq, rfl⟩)
    have hProper := (hFollows _ hMem).mp (hAll _ hMem)
    rwa [MakeRule.file_dependency] at hProper
  · rcases (mem_given_iff d).mp hMem with
      ⟨i, hi, rfl⟩ | ⟨answer, ha, q, hq, rfl⟩
    · rcases hCalled i hi with ⟨call, buildDir, hFile⟩
      have hIff := follows_file_iff hRoot hAbsolute hFile
      exact hIff.mpr (hFiles i hi)
    · rw [hFollows _ hMem, MakeRule.file_dependency]
      exact hRules answer ha q hq

/- A file inside that follows the convention can be generated. -/
theorem isPlaced_of_follows
    (hRoot : sourceDir.normalize = sourceDir)
    (hCalled : AreCalled sourceDir compiled)
    {d : Dependency}
    (hMem : d ∈ given compiled answers)
    (hFollows : sourceDir.FollowsConvention d.file)
    (hHere : d.isExternal = false) :
    Generation.IsPlaced d := by
  have hRootNormal := Path.isNormal_of_normalize_eq hRoot
  have hNormal := isNormal_given hCalled hMem
  have hProper :=
    (Path.followsConvention_iff hRootNormal hNormal).mp hFollows
  have hNames := hProper.names hNormal hHere
  cases d with
  | compiled i => exact hNames
  | header p =>
      refine ⟨hNames, ?_⟩
      rcases (mem_given_iff _).mp hMem with
        ⟨i, -, hOther⟩ | ⟨answer, -, q, -, hEq⟩
      · cases hOther
      · have hHeader : isHeader q = true := by
          unfold MakeRule.dependency at hEq
          split at hEq
          · assumption
          · cases hEq
        have hFile := MakeRule.file_dependency answer.1 q
        rw [hEq] at hFile
        change p = _ at hFile
        rw [hFile]
        exact MakeRule.components_ne_nil_of_isHeader hHeader

/-
  The dependencies of a source tree follow the convention if and
  only if no file of a call starts with a step up and the scanner
  names every prerequisite properly. Then generating only fills
  the output tree, from files of the source tree, whatever the
  order is in which the dependencies are taken.
-/
theorem resolve_confined_iff
    (hRoot : sourceDir.normalize = sourceDir)
    (hAbsolute : sourceDir.isAbsolute = true)
    (hCalled : AreCalled sourceDir compiled)
    (hRun :
      resolve scanner sourceDir compiled w = (.ok deps, w')) :
    ∃ answers,
      rules scanner sourceDir compiled w = (.ok answers, w') ∧
        ((∀ d ∈ deps, sourceDir.FollowsConvention d.file) ↔
          (∀ i ∈ compiled,
              i.file.components.head? ≠ some .up) ∧
            ∀ answer ∈ answers,
              ∀ q ∈ MakeRule.prerequisites answer.2,
                sourceDir.IsProper (⟨q⟩ : Path).normalize) ∧
        ((∀ d ∈ deps, sourceDir.FollowsConvention d.file) →
          ∀ ds destination, ds.Perm deps →
            Generation.FillsOnly sourceDir destination
              (Generation.generate ds sourceDir
                destination)) := by
  rcases resolve_eq_ok hRun with
    ⟨answers, hAnswers, hGiven, hKept⟩
  have hRootNormal := Path.isNormal_of_normalize_eq hRoot
  refine
    ⟨answers, hAnswers, ?_, fun hFollows ds destination hPerm => ?_⟩
  · rw [← follows_given_iff hRoot hAbsolute hCalled]
    refine ⟨fun hFollows d hMem => ?_, fun hFollows d hd =>
      hFollows d (hGiven d hd)⟩
    rcases hKept d hMem with ⟨d', hd', hComponents⟩
    have hProper :=
      (Path.followsConvention_iff hRootNormal
        (isNormal_given hCalled (hGiven d' hd'))).mp
        (hFollows d' hd')
    rw [Path.followsConvention_iff hRootNormal
      (isNormal_given hCalled hMem)]
    exact (Path.isProper_congr hComponents).mp hProper
  · refine Generation.fillsOnly_generate fun d hd hHere => ?_
    have hMem := hPerm.subset hd
    exact
      isPlaced_of_follows hRoot hCalled (hGiven d hMem)
        (hFollows d hMem) hHere

------------------------------------------------------------
-- Prerequisites Inside and Outside
------------------------------------------------------------

/- A scanner that has one answer for all files. -/
def answering (rule : String) : Scanner :=
  fun _ _ => pure rule

/- A source tree with one file, which is compiled. -/
def oneCall : Invocation :=
  { compiledFiles := ["a.c"] }

def oneFile : Inclusion :=
  { file := ⟨"a.c"⟩ }

def oneSource : Workspace where
  files := {
    entries := [(["src"], .directory), (["src", "a.c"], .file [])] }

theorem exists?_oneSource :
    oneSource.files.exists?
      ((⟨"/src"⟩ : Path).join oneFile.file) = true := by
  have hPair :
      FileTree.IsPair ((⟨"/src"⟩ : Path).join oneFile.file)
        "src" "a.c" := by
    constructor <;> decide
  rw [FileTree.exists?, hPair.status_file rfl rfl]
  rfl

theorem resolve_oneFile (rule : String) :
    resolve (answering rule) ⟨"/src"⟩ [oneFile] oneSource =
      (.ok ((MakeRule.dependencies oneFile rule).foldl
        Dependency.insert [.compiled oneFile]), oneSource) := by
  rw [resolve, resolveFrom,
    Job.bind_of_ok (Job.check_apply rfl), Job.get_bind_apply,
    exists?_oneSource, if_pos rfl]
  rfl

theorem rules_oneFile (rule : String) :
    rules (answering rule) ⟨"/src"⟩ [oneFile] oneSource =
      (.ok [(oneFile, rule)], oneSource) := by
  rw [rules, Job.bind_of_ok (Job.check_apply rfl),
    Job.get_bind_apply, exists?_oneSource, if_pos rfl]
  rfl

theorem ofInvocation_oneCall :
    Inclusion.ofInvocation oneCall ⟨"/src"⟩ ⟨"/src"⟩ =
      [oneFile] := by
  decide

/- A header inside and one outside, each named properly. -/
theorem confined_properRule :
    ∃ deps,
      resolve (answering "a.o: a.c b.h /usr/c.h\n") ⟨"/src"⟩
          [oneFile] oneSource = (.ok deps, oneSource) ∧
        (∀ d ∈ deps, (⟨"/src"⟩ : Path).FollowsConvention d.file) ∧
        ∀ ds destination, ds.Perm deps →
          Generation.FillsOnly ⟨"/src"⟩ destination
            (Generation.generate ds ⟨"/src"⟩ destination) := by
  have hCalled : AreCalled ⟨"/src"⟩ [oneFile] := by
    intro i hi
    rw [← ofInvocation_oneCall] at hi
    exact ⟨oneCall, ⟨"/src"⟩, hi⟩
  have hRun := resolve_oneFile "a.o: a.c b.h /usr/c.h\n"
  rcases resolve_confined_iff (by decide +kernel)
      (by decide +kernel) hCalled hRun with
    ⟨answers, hAnswers, hIff, hConfined⟩
  rw [rules_oneFile] at hAnswers
  cases hAnswers
  have hFiles :
      ∀ i ∈ [oneFile], i.file.components.head? ≠ some .up := by
    decide
  have hProper :
      ∀ q ∈ MakeRule.prerequisites "a.o: a.c b.h /usr/c.h\n",
        (⟨"/src"⟩ : Path).IsProper (⟨q⟩ : Path).normalize := by
    decide +kernel
  have hFollows :=
    hIff.mpr ⟨hFiles, fun answer hMem => by
      rw [List.mem_singleton.mp hMem]
      exact hProper⟩
  exact ⟨_, hRun, hFollows, hConfined hFollows⟩

/-
  A header that is reached by a step up lies outside, and its
  path stays relative.
-/
theorem not_follows_stepUp :
    Inclusion.ofInvocation oneCall ⟨"/src"⟩ ⟨"/src"⟩ =
        [oneFile] ∧
      ∃ deps,
        resolve (answering "a.o: a.c ../x.h\n") ⟨"/src"⟩
            [oneFile] oneSource = (.ok deps, oneSource) ∧
          ∃ d ∈ deps,
            ¬ (⟨"/src"⟩ : Path).FollowsConvention d.file ∧
              ¬ (⟨"/src"⟩ : Path).LiesIn d.file ∧
                d.isExternal = false := by
  have hOutside : ¬ (⟨"/src"⟩ : Path).LiesIn ⟨"../x.h"⟩ := by
    rw [Path.LiesIn]
    decide +kernel
  refine
    ⟨ofInvocation_oneCall, _,
      resolve_oneFile "a.o: a.c ../x.h\n", .header ⟨"../x.h"⟩,
      by decide +kernel, fun hFollows => ?_, hOutside, rfl⟩
  have hAbsolute := hFollows.outside hOutside
  exact absurd hAbsolute (by decide)

end Scanner

end Variability
