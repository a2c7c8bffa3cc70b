import Variability.Generation
import Variability.Proofs.FileTree.Writing
import Variability.Proofs.Inclusion.ComposedPath
import Variability.Proofs.Text.FileLines
import Mathlib

/-
  Lines of generated files and lines of their originals.

  A generated file is its original behind a preamble. The number
  that is recorded for it counts directives, so line by line it
  leads back to the original if and only if every directive takes
  one line. One with a line feed in its text takes more.

  Main declarations:
    * `Inclusion.IsUnbroken`
    * `Inclusion.preambleLines_eq_iff`
    * `SourceMap.MapsLines`
    * `Generation.mapsLines_writeCompiled_iff`
-/

namespace Variability

------------------------------------------------------------
-- Preambles
------------------------------------------------------------

/- How many line feeds a text has. -/
def breaks (s : String) : Nat :=
  s.toList.count '\n'

theorem breaks_append
    (s t : String) :
    breaks (s ++ t) = breaks s + breaks t := by
  rw [breaks, String.toList_append, List.count_append]
  rfl

theorem breaks_join
    (texts : List String) :
    breaks (String.join texts) = (texts.map breaks).sum := by
  induction texts with
  | nil => rfl
  | cons s texts ih =>
      rw [String.join_cons, breaks_append, ih, List.map_cons,
        List.sum_cons]

theorem breaks_eq_zero_iff
    (s : String) :
    breaks s = 0 ↔ '\n' ∉ s.toList :=
  List.count_eq_zero

/- Texts that have one break more each. -/
theorem sum_map_add_one
    {α : Type}
    (f : α → Nat)
    (xs : List α) :
    (xs.map fun x => f x + 1).sum =
      (xs.map f).sum + xs.length := by
  rw [List.sum_map_add, List.map_const', List.sum_replicate]
  exact congrArg ((xs.map f).sum + ·) (Nat.mul_one xs.length)

namespace Inclusion

variable {i : Inclusion}

/- Every directive is written on one line. -/
structure IsUnbroken (i : Inclusion) : Prop where
  defines :
    ∀ define ∈ i.defines,
      '\n' ∉ define.1.toList ∧ '\n' ∉ define.2.toList
  forced :
    ∀ p ∈ i.forced, '\n' ∉ (i.forcedPath p).text.toList

/- How many lines are in front of the original. -/
def preambleLines (i : Inclusion) : Nat :=
  (fileLines (Utf8.encode i.preamble)).length

theorem breaks_defineLine
    (name value : String) :
    breaks (defineLine name value) =
      breaks name + breaks value + 1 := by
  simp only [defineLine, breaks_append]
  have hDirective : breaks "#define " = 0 := by decide
  have hSpace : breaks " " = 0 := by decide
  have hFeed : breaks "\n" = 1 := by decide
  omega

theorem breaks_includeLine
    (p : Path) :
    breaks (includeLine p) = breaks p.text + 1 := by
  simp only [includeLine, breaks_append]
  have hDirective : breaks "#include \"" = 0 := by decide
  have hFeed : breaks "\"\n" = 1 := by decide
  omega

theorem isFinished_join
    {texts : List String}
    (hTexts : ∀ s ∈ texts, IsFinished (Utf8.encode s)) :
    IsFinished (Utf8.encode (String.join texts)) := by
  induction texts with
  | nil => exact Or.inl (Utf8.encode_eq "")
  | cons s texts ih =>
      rw [String.join_cons, Utf8.encode_append]
      exact
        (hTexts s List.mem_cons_self).append
          (ih fun t ht => hTexts t (List.mem_cons_of_mem s ht))

/- No line of a preamble goes on in the original. -/
theorem isFinished_preamble (i : Inclusion) :
    IsFinished (Utf8.encode i.preamble) := by
  rw [preamble, Utf8.encode_append]
  apply IsFinished.append
  · apply isFinished_join
    intro s hs
    rcases List.mem_map.mp hs with ⟨⟨name, value⟩, -, rfl⟩
    exact Utf8.isFinished_encode _
  · apply isFinished_join
    intro s hs
    rcases List.mem_map.mp hs with ⟨p, -, rfl⟩
    have hEnd : "\"\n" = "\"" ++ "\n" := rfl
    rw [includeLine, hEnd, ← String.append_assoc]
    exact Utf8.isFinished_encode _

/- A preamble has a line for each directive, and more for breaks. -/
theorem preambleLines_eq (i : Inclusion) :
    i.preambleLines =
      i.addedLines +
        ((i.defines.map fun d => breaks d.1 + breaks d.2).sum +
          (i.forced.map fun p =>
            breaks (i.forcedPath p).text).sum) := by
  have hDefines :
      (i.defines.map fun d =>
        breaks (defineLine d.1 d.2)).sum =
      (i.defines.map fun d => breaks d.1 + breaks d.2).sum +
        i.defines.length := by
    simp only [breaks_defineLine]
    exact sum_map_add_one _ i.defines
  have hForced :
      (i.forced.map fun p =>
        breaks (includeLine (i.forcedPath p))).sum =
      (i.forced.map fun p => breaks (i.forcedPath p).text).sum +
        i.forced.length := by
    simp only [breaks_includeLine]
    exact sum_map_add_one _ i.forced
  have hCount : i.preambleLines = breaks i.preamble := by
    rw [preambleLines, length_fileLines i.isFinished_preamble,
      Utf8.count_encode]
    rfl
  rw [hCount, preamble, breaks_append, breaks_join, breaks_join,
    List.map_map, List.map_map, addedLines]
  have hSplit := congrArg₂ (· + ·) hDefines hForced
  simp only [Function.comp_def] at hSplit ⊢
  omega

theorem addedLines_le (i : Inclusion) :
    i.addedLines ≤ i.preambleLines :=
  i.preambleLines_eq ▸ Nat.le_add_right _ _

/- So the recorded number is right if and only if nothing is broken. -/
theorem preambleLines_eq_iff (i : Inclusion) :
    i.preambleLines = i.addedLines ↔ i.IsUnbroken := by
  rw [preambleLines_eq, Nat.add_eq_left, Nat.add_eq_zero_iff,
    List.sum_eq_zero_iff_forall_eq_nat,
    List.sum_eq_zero_iff_forall_eq_nat]
  simp only [List.forall_mem_map, Nat.add_eq_zero_iff,
    breaks_eq_zero_iff]
  exact ⟨fun ⟨hDefines, hForced⟩ => ⟨hDefines, hForced⟩,
    fun ⟨hDefines, hForced⟩ => ⟨hDefines, hForced⟩⟩

/- The file that is generated from an original. -/
def generated (i : Inclusion) (content : List UInt8) : List UInt8 :=
  Utf8.encode i.preamble ++ content

/- Its lines are those of the preamble, then those of the original. -/
theorem line?_generated
    (i : Inclusion)
    (content : List UInt8)
    (n : Nat) :
    line? (i.generated content) n =
      if n ≤ i.preambleLines then
        line? (Utf8.encode i.preamble) n
      else
        line? content (n - i.preambleLines) :=
  line?_append i.isFinished_preamble content n

theorem isSome_line?_preamble
    (i : Inclusion)
    (n : Nat) :
    (line? (Utf8.encode i.preamble) n).isSome = true ↔
      1 ≤ n ∧ n ≤ i.preambleLines :=
  isSome_line?_iff _ n

end Inclusion

------------------------------------------------------------
-- Source Maps
------------------------------------------------------------

namespace SourceMap

variable {m : SourceMap}
variable {i : Inclusion}
variable {content : List UInt8}

/-
  A map leads from a generated file back to its original, line
  by line.
-/
structure MapsLines
    (m : SourceMap)
    (i : Inclusion)
    (content : List UInt8) : Prop where
  /- Nothing is found for lines of the preamble, and only for them. -/
  preamble :
    ∀ n text, line? (i.generated content) n = some text →
      (m.unmarked ⟨i.composedPath, n⟩ = none ↔
        (line? (Utf8.encode i.preamble) n).isSome = true)
  /- What is found is the line of the original that stands there. -/
  original :
    ∀ n text l, line? (i.generated content) n = some text →
      m.unmarked ⟨i.composedPath, n⟩ = some l →
        l.file = i.file ∧ n = i.preambleLines + l.line ∧
          line? content l.line = some text
  /- Every line of the original is found once. -/
  once :
    ∀ k text, line? content k = some text →
      ∃! n, (line? (i.generated content) n).isSome = true ∧
        m.unmarked ⟨i.composedPath, n⟩ = some ⟨i.file, k⟩

/- What a map finds that has the recorded number. -/
def Records (m : SourceMap) (i : Inclusion) : Prop :=
  ∀ n, m.unmarked ⟨i.composedPath, n⟩ =
    if i.addedLines < n then
      some ⟨i.file, n - i.addedLines⟩
    else
      none

theorem records_of_find?_eq
    (hFile : i.file.normalize = i.file)
    (hFound :
      Dict.find? i.composedPath m.generation =
        some ⟨i.file, i.addedLines⟩) :
    m.Records i := by
  intro n
  have hComposed :=
    i.isNormal_composedPath (Path.isNormal_of_normalize_eq hFile)
  have hComponents := Path.components_normalize_eq hComposed
  rw [unmarked]
  dsimp only
  rw [Path.find?_congr hComponents, hFound]
  dsimp only
  rw [Location.make, hFile]

/- Where no directive is broken the lines agree. -/
theorem Records.mapsLines
    (hRecords : m.Records i)
    (hLines : i.preambleLines = i.addedLines)
    (content : List UInt8) :
    m.MapsLines i content where
  preamble := fun n text hText => by
    have hLine : 1 ≤ n := by
      apply ((isSome_line?_iff (i.generated content) n).mp _).1
      rw [hText]
      rfl
    rw [hRecords, i.isSome_line?_preamble, hLines]
    split <;> simp <;> omega
  original := fun n text l hText hFound => by
    rw [hRecords] at hFound
    split at hFound
    · rename_i hBehind
      cases hFound
      rw [i.line?_generated, hLines,
        if_neg (Nat.not_le.mpr hBehind)] at hText
      exact ⟨rfl, by simp only; omega, hText⟩
    · cases hFound
  once := fun k text hText => by
    have hLine : 1 ≤ k := by
      apply ((isSome_line?_iff content k).mp _).1
      rw [hText]
      rfl
    refine ExistsUnique.intro (i.preambleLines + k) ⟨?_, ?_⟩ ?_
    · rw [i.line?_generated, if_neg (by omega),
        Nat.add_sub_cancel_left, hText]
      rfl
    · rw [hRecords, hLines, if_pos (by omega),
        Nat.add_sub_cancel_left]
    · rintro n ⟨-, hFound⟩
      rw [hRecords] at hFound
      split at hFound
      · cases hFound
        omega
      · cases hFound

/-
  The recorded number is never too high, and where it is too low
  the last line of the preamble is taken for one of the original.
-/
theorem Records.mapsLines_iff
    (hRecords : m.Records i)
    (content : List UInt8) :
    m.MapsLines i content ↔ i.IsUnbroken := by
  rw [← i.preambleLines_eq_iff]
  refine ⟨fun hMaps => ?_, fun hLines => ?_⟩
  · rcases Nat.eq_or_lt_of_le i.addedLines_le with hSame | hLess
    · exact hSame.symm
    have hLast :
        (line? (Utf8.encode i.preamble)
          i.preambleLines).isSome = true := by
      rw [i.isSome_line?_preamble]
      omega
    rcases Option.isSome_iff_exists.mp hLast with ⟨text, hText⟩
    have hGenerated :
        line? (i.generated content) i.preambleLines =
          some text := by
      rw [i.line?_generated, if_pos (Nat.le_refl _), hText]
    have hNone := (hMaps.preamble _ text hGenerated).mpr hLast
    rw [hRecords, if_pos hLess] at hNone
    cases hNone
  · exact hRecords.mapsLines hLines content

end SourceMap

------------------------------------------------------------
-- Generating
------------------------------------------------------------

namespace Generation

variable {source destination : Path}
variable {i : Inclusion}
variable {w w' : Workspace}
variable {made : Path × Origin}

/- What writing a compiled file leaves and records. -/
theorem writeCompiled_eq_ok
    (hRun :
      writeCompiled source destination i w = (.ok made, w')) :
    ∃ content,
      w.files.read source = .ok content ∧
        w'.files.read (destination.join i.composedPath) =
          .ok (i.generated content) ∧
        made = (i.composedPath, ⟨i.file, i.addedLines⟩) := by
  rcases Job.bind_eq_ok hRun with ⟨content, w₁, hLook, hRest⟩
  rcases Job.bind_eq_ok hRest with ⟨_, w₂, hEdit, hMade⟩
  rcases Job.look_eq_ok hLook with ⟨hRead, rfl⟩
  cases hMade
  exact
    ⟨content, hRead,
      FileTree.read_write (Job.edit_eq_ok hEdit).1, rfl⟩

/-
  A generated file leads back to its original line by line if
  and only if no directive in front of it is broken.
-/
theorem mapsLines_writeCompiled_iff
    {call : Invocation}
    {buildDir sourceDir : Path}
    (hMem : i ∈ Inclusion.ofInvocation call buildDir sourceDir)
    (hRun :
      writeCompiled source destination i w = (.ok made, w'))
    {m : SourceMap}
    (hFound : Dict.find? made.1 m.generation = some made.2) :
    ∃ content,
      w.files.read source = .ok content ∧
        w'.files.read (destination.join i.composedPath) =
          .ok (i.generated content) ∧
        made.1 = i.composedPath ∧
        (m.MapsLines i content ↔ i.IsUnbroken) := by
  rcases writeCompiled_eq_ok hRun with
    ⟨content, hRead, hWritten, rfl⟩
  have hRecords :=
    SourceMap.records_of_find?_eq
      (Inclusion.normalize_file hMem) hFound
  exact
    ⟨content, hRead, hWritten, rfl,
      hRecords.mapsLines_iff content⟩

/-
  A compiled file is written where its original can be read and
  its target can be written.
-/
theorem writeCompiled_apply
    {content : List UInt8}
    {names : Names}
    (hRead : w.files.read source = .ok content)
    (hTarget :
      w.files.fileToWrite (destination.join i.composedPath) =
        .ok names) :
    writeCompiled source destination i w =
      (.ok (i.composedPath, ⟨i.file, i.addedLines⟩),
        { w with
          files :=
            w.files.withFile names (i.generated content) }) := by
  have hLook :
      Job.look source (·.read source) w = (.ok content, w) := by
    rw [Job.look, Job.get_bind_apply, hRead]
    rfl
  have hWrite :
      FileTree.write (destination.join i.composedPath)
          (i.generated content) w.files =
        (.ok (),
          w.files.withFile names (i.generated content)) := by
    rw [FileTree.write, Job.get_bind_apply, hTarget]
    rfl
  rw [writeCompiled, Job.bind_of_ok hLook, Job.bind_apply,
    Job.edit, ← Inclusion.generated, hWrite]
  rfl

------------------------------------------------------------
-- Definitions on One Line and on Two
------------------------------------------------------------

/- A build that defines a macro in its only call. -/
def definingTrace (value : String) : String :=
  "gcc -DX=\"" ++ value ++ "\" a.c\n"

def definingCall (value : String) : Invocation :=
  { compiledFiles := ["a.c"], defines := [("X", value)] }

def definingInclusion (value : String) : Inclusion :=
  { file := ⟨"a.c"⟩, defines := [("X", value)] }

/- The only file of the project. -/
def shortFile : List UInt8 :=
  Utf8.encode "int x;\n"

/- A source tree with that file, and an empty output tree. -/
def shortTree : FileTree where
  entries :=
    [(["out"], .directory), (["src"], .directory),
      (["src", "a.c"], .file shortFile)]

theorem read_shortTree :
    shortTree.read ⟨"/src/a.c"⟩ = .ok shortFile := by
  have hPair :
      FileTree.IsPair ⟨"/src/a.c"⟩ "src" "a.c" := by
    constructor <;> decide
  rw [FileTree.read, hPair.status_file rfl rfl]

/- The map of a build that generates the file. -/
def shortMap (made : Path × Origin) : SourceMap where
  generation := [made]
  sourceDir := ⟨"/src"⟩
  markers := []

theorem find?_shortMap
    (made : Path × Origin) :
    Dict.find? made.1 (shortMap made).generation =
      some made.2 :=
  Path.find?_singleton made.1 made.2

theorem records_shortMap
    (hFile : i.file.normalize = i.file) :
    (shortMap (i.composedPath, ⟨i.file, i.addedLines⟩)).Records
      i :=
  SourceMap.records_of_find?_eq hFile
    (find?_shortMap (i.composedPath, ⟨i.file, i.addedLines⟩))

/- The name of the generated file, without and with a line feed. -/
def nameOnOneLine : String :=
  "a-e6cda2bd306d6aa01c99195f9f386bf8" ++
    "0fcfc2de980053c7b26f2127479c2ec4.c"

def nameOnTwoLines : String :=
  "a-9c9601690bf9e8703a8fb50ce39cbd4d" ++
    "dde955cb47051827dc9106faa89f6675.c"

theorem fileToWrite_oneLine :
    shortTree.fileToWrite
        ((⟨"/out"⟩ : Path).join
          (definingInclusion "1").composedPath) =
      .ok ["out", nameOnOneLine] := by
  have hPath :
      (⟨"/out"⟩ : Path).join
          (definingInclusion "1").composedPath =
        ⟨"/out/" ++ nameOnOneLine⟩ := by
    decide +kernel
  have hPair :
      FileTree.IsPair ⟨"/out/" ++ nameOnOneLine⟩ "out"
        nameOnOneLine := by
    constructor <;> decide
  have hFree :
      shortTree.entry? ["out", nameOnOneLine] = none := by
    decide
  rw [hPath]
  exact hPair.fileToWrite_vacant rfl hFree

theorem fileToWrite_twoLines :
    shortTree.fileToWrite
        ((⟨"/out"⟩ : Path).join
          (definingInclusion "1\n2").composedPath) =
      .ok ["out", nameOnTwoLines] := by
  have hPath :
      (⟨"/out"⟩ : Path).join
          (definingInclusion "1\n2").composedPath =
        ⟨"/out/" ++ nameOnTwoLines⟩ := by
    decide +kernel
  have hPair :
      FileTree.IsPair ⟨"/out/" ++ nameOnTwoLines⟩ "out"
        nameOnTwoLines := by
    constructor <;> decide
  have hFree :
      shortTree.entry? ["out", nameOnTwoLines] = none := by
    decide
  rw [hPath]
  exact hPair.fileToWrite_vacant rfl hFree

theorem isUnbroken_oneLine :
    (definingInclusion "1").IsUnbroken where
  defines := by
    intro define hMem
    cases List.mem_singleton.mp hMem
    decide
  forced := nofun

theorem not_isUnbroken_twoLines :
    ¬ (definingInclusion "1\n2").IsUnbroken := by
  intro hUnbroken
  exact
    (hUnbroken.defines ("X", "1\n2") List.mem_cons_self).2
      (by decide)

/- A definition on one line moves the original by that line. -/
theorem mapsLines_oneLine :
    ∃ made w',
      writeCompiled ⟨"/src/a.c"⟩ ⟨"/out"⟩
          (definingInclusion "1") { files := shortTree } =
        (.ok made, w') ∧
      ∃ content,
        shortTree.read ⟨"/src/a.c"⟩ = .ok content ∧
          w'.files.read
              ((⟨"/out"⟩ : Path).join
                (definingInclusion "1").composedPath) =
            .ok ((definingInclusion "1").generated content) ∧
          made.1 = (definingInclusion "1").composedPath ∧
          (shortMap made).MapsLines
            (definingInclusion "1") content := by
  have hMem :
      definingInclusion "1" ∈
        Inclusion.ofInvocation (definingCall "1")
          ⟨"/src"⟩ ⟨"/src"⟩ := by
    decide +kernel
  have hRun :=
    writeCompiled_apply
      (w := { files := shortTree })
      read_shortTree fileToWrite_oneLine
  rcases mapsLines_writeCompiled_iff hMem hRun (find?_shortMap _) with
    ⟨content, hRead, hWritten, hMade, hMaps⟩
  exact
    ⟨_, _, hRun, content, hRead, hWritten, hMade,
      hMaps.mpr isUnbroken_oneLine⟩

/-
  A definition that a trace breaks over two lines moves it by
  two lines, and only one is recorded.
-/
theorem not_mapsLines_twoLines :
    Trace.invocations (definingTrace "1\n2") =
        .ok ([definingCall "1\n2"], []) ∧
      Inclusion.ofInvocation (definingCall "1\n2")
          ⟨"/src"⟩ ⟨"/src"⟩ =
        [definingInclusion "1\n2"] ∧
      ∃ made w',
        writeCompiled ⟨"/src/a.c"⟩ ⟨"/out"⟩
            (definingInclusion "1\n2") { files := shortTree } =
          (.ok made, w') ∧
        ¬ (shortMap made).MapsLines
            (definingInclusion "1\n2") shortFile := by
  refine ⟨by decide +kernel, by decide +kernel, ?_⟩
  have hRun :=
    writeCompiled_apply
      (w := { files := shortTree })
      read_shortTree fileToWrite_twoLines
  have hFile :
      (definingInclusion "1\n2").file.normalize =
        (definingInclusion "1\n2").file := by
    decide +kernel
  have hMaps := (records_shortMap hFile).mapsLines_iff shortFile
  exact
    ⟨_, _, hRun, fun hAgree =>
      not_isUnbroken_twoLines (hMaps.mp hAgree)⟩

end Generation

end Variability
