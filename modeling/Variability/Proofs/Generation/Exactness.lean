import Variability.Proofs.Dict.Ordered
import Variability.Proofs.Generation.Laying

/-
  What an empty directory holds after generating into it.

  It holds the generated file of every dependency whose original
  is there, the directories above these files and nothing else,
  and the map that is returned has an entry for each of the files.
  The order of the dependencies does not count. All of this needs
  digests that tell the variants apart, which they do not if a
  forced include is the empty path.

  Main declarations:
    * `Generation.IsExact`
    * `Generation.generate_exact`
-/

namespace Variability

namespace Generation

open FileTree

variable {source destination : Path}
variable {output : Names}
variable {t t' : FileTree}
variable {deps deps' : List Dependency}
variable {d e : Dependency}
variable {generation generation' : Generation}
variable {w w' : Workspace}

------------------------------------------------------------
-- Exact Outputs
------------------------------------------------------------

/-
  Into an empty directory some dependencies were generated, and
  nothing else was done.
-/
structure IsExact
    (deps : List Dependency)
    (source : Path)
    (output : Names)
    (t : FileTree)
    (generation : Generation)
    (t' : FileTree) : Prop where
  /- What is there are files with the text of their originals. -/
  files :
    ∀ names content, names ≠ [] →
      (t'.entry? (output ++ names) = some (.file content) ↔
        ∃ d ∈ deps, isWritten t source d = true ∧
          d.target.names = names ∧
          ∃ original,
            t.read (source.join d.file) = .ok original ∧
              d.generated original = content)
  /- Directories are there if they are above files. -/
  directories :
    ∀ names, names ≠ [] →
      (t'.entry? (output ++ names) = some .directory ↔
        ∃ d ∈ deps, isWritten t source d = true ∧
          names <+: d.target.names.dropLast)
  links :
    ∀ names target, names ≠ [] →
      t'.entry? (output ++ names) ≠ some (.link target)
  outside :
    ∀ names, ¬ IsBelow output names →
      t'.entry? names = t.entry? names
  /- Every original that is there was read. -/
  originals :
    ∀ d ∈ deps, isWritten t source d = true →
      ∃ original, t.read (source.join d.file) = .ok original
  /- No two dependencies share a file. -/
  apart :
    ∀ d ∈ deps, ∀ e ∈ deps, isWritten t source d = true →
      isWritten t source e = true →
        d.target.names = e.target.names → d = e
  entries :
    ∀ entry, entry ∈ generation ↔
      ∃ d ∈ deps, isWritten t source d = true ∧
        (d.target, d.origin) = entry
  isOrdered : generation.IsOrdered

theorem Generates.isExact
    {hStarts : Starts deps source destination output t}
    {made : List (Path × Origin)}
    (hGenerates :
      Generates hStarts (deps.filter (isWritten t source)) made t
        t') :
    IsExact deps source output t (Dict.ofList made) t' := by
  have hLaid := hGenerates.reached.laidOut
  have hWritten (d : Dependency)
      (hd : d ∈ deps)
      (hHere : isWritten t source d = true) :=
    hGenerates.written d (List.mem_filter.mpr ⟨hd, hHere⟩)
  have hApart : ∀ d ∈ deps, ∀ e ∈ deps,
      isWritten t source d = true →
        isWritten t source e = true →
          d.target.names = e.target.names → d = e := by
    intro d hd e he hdHere heHere
    exact
      hStarts.eq_of_names_eq hd he (isWritten_iff.mp hdHere).1
        (isWritten_iff.mp heHere).1
  have hKeys : ∀ entry ∈ made, ∀ entry' ∈ made,
      compare entry.1 entry'.1 = .eq → entry = entry' := by
    intro entry hEntry entry' hEntry' hCompare
    rcases (hGenerates.mem_made_iff entry).mp hEntry with
      ⟨d, hd, rfl⟩
    rcases (hGenerates.mem_made_iff entry').mp hEntry' with
      ⟨e, he, rfl⟩
    rcases List.mem_filter.mp hd with ⟨hd, hdHere⟩
    rcases List.mem_filter.mp he with ⟨he, heHere⟩
    have hNames : d.target.names = e.target.names :=
      congrArg (List.map Component.text)
        ((Path.compare_eq_iff _ _).mp hCompare)
    rw [hApart d hd e he hdHere heHere hNames]
  refine
    { files := fun names content hNames => ⟨?_, ?_⟩
      directories := fun names hNames => ⟨?_, ?_⟩
      links := fun names target hNames =>
        hLaid.hasNoLinks names target hNames
      outside := hGenerates.grows.outside
      originals := fun d hd hHere => ?_
      apart := hApart
      entries := fun entry => ?_
      isOrdered := Dict.isOrdered_ofList made }
  · exact hLaid.file_of_entry?_eq hNames
  · rintro ⟨d, hd, hHere, rfl, original, hRead, rfl⟩
    rcases (hWritten d hd hHere).2 with ⟨other, hOther, hEntry⟩
    rw [hRead] at hOther
    cases hOther
    exact hEntry
  · exact hLaid.allows names .directory hNames
  · rintro ⟨d, hd, hHere, hPrefix⟩
    exact (hWritten d hd hHere).1 names hNames hPrefix
  · rcases (hWritten d hd hHere).2 with ⟨original, hRead, -⟩
    exact ⟨original, hRead⟩
  · rw [Dict.mem_ofList_iff hKeys, hGenerates.mem_made_iff]
    simp only [List.mem_filter, and_assoc]

/- Exact outputs of the same dependencies are the same. -/
theorem IsExact.eq
    {t'' : FileTree}
    (hExact : IsExact deps source output t generation t')
    (hExact' : IsExact deps' source output t generation' t'')
    (hSame : ∀ d, d ∈ deps' ↔ d ∈ deps) :
    generation' = generation ∧
      ∀ names, t''.entry? names = t'.entry? names := by
  constructor
  · apply hExact'.isOrdered.eq_of_mem_iff hExact.isOrdered
    intro entry
    rw [hExact'.entries, hExact.entries]
    simp only [hSame]
  · intro names
    by_cases hBelow : IsBelow output names
    · rcases hBelow with ⟨rel, hRel, rfl⟩
      ext entry
      cases entry with
      | file content =>
          rw [hExact'.files rel content hRel,
            hExact.files rel content hRel]
          simp only [hSame]
      | directory =>
          rw [hExact'.directories rel hRel,
            hExact.directories rel hRel]
          simp only [hSame]
      | link target =>
          exact
            iff_of_false (hExact'.links rel target hRel)
              (hExact.links rel target hRel)
    · rw [hExact'.outside names hBelow, hExact.outside names hBelow]

/- Where an output is exact nothing hinders generating. -/
theorem IsExact.not_isHindered
    (hExact : IsExact deps source output t generation t')
    (hStarts : Starts deps source destination output t) :
    ¬ hStarts.IsHindered := by
  rintro (⟨names, content, hDirectory, hFile⟩ |
    ⟨d, hd, hHere, hUnreadable⟩)
  · have hNames : names ≠ [] := by
      rcases hFile with ⟨d, hd, hHere, rfl, -⟩
      exact (goesOn_target hStarts hd hHere).ne_nil
    have hOne := (hExact.directories names hNames).mpr hDirectory
    have hOther := (hExact.files names content hNames).mpr hFile
    rw [hOne] at hOther
    cases hOther
  · rcases hExact.originals d hd hHere with ⟨original, hRead⟩
    exact hUnreadable original hRead

------------------------------------------------------------
-- Generating
------------------------------------------------------------

/-
  Whatever succeeds into an empty directory is exact, and so it is
  in every order of the dependencies.
-/
theorem generate_exact
    (hProject : IsProject deps)
    (hApart : TellsApart deps)
    (hOutput :
      w.files.resolve true destination =
        .ok (.found output .directory))
    (hEmpty :
      ∀ names, names ≠ [] →
        w.files.entry? (output ++ names) = none)
    (hMissing :
      ∀ d ∈ deps, d.isExternal = false →
        w.files.exists? (source.join d.file) = false →
          ∀ t, GrowsBelow output w.files t →
            t.exists? (source.join d.file) = false)
    (hRun :
      generate deps source destination w = (.ok generation, w')) :
    IsExact deps source output w.files generation w'.files ∧
      ∀ deps', (∀ d, d ∈ deps' ↔ d ∈ deps) →
        ∃ w'', generate deps' source destination w =
            (.ok generation, w'') ∧
          ∀ names,
            w''.files.entry? names = w'.files.entry? names := by
  have hStarts : Starts deps source destination output w.files :=
    ⟨hProject, hApart, hOutput, hEmpty, hMissing⟩
  rcases hStarts.endsIn_generate.of_eq_ok hRun with
    ⟨made, rfl, hGenerates⟩
  have hExact := hGenerates.isExact
  refine ⟨hExact, fun deps' hSame => ?_⟩
  have hStarts' := hStarts.congr hSame
  have hFree : ¬ hStarts'.IsHindered := by
    rintro (⟨names, content, ⟨d, hd, hDirectory⟩, ⟨e, he, hFile⟩⟩ |
      ⟨d, hd, hUnreadable⟩)
    · exact
        hExact.not_isHindered hStarts
          (Or.inl ⟨names, content,
            ⟨d, (hSame d).mp hd, hDirectory⟩,
            ⟨e, (hSame e).mp he, hFile⟩⟩)
    · exact
        hExact.not_isHindered hStarts
          (Or.inr ⟨d, (hSame d).mp hd, hUnreadable⟩)
  rcases hStarts'.endsIn_generate.exists_eq_ok hFree with
    ⟨generation', w'', hRun', made', rfl, hGenerates'⟩
  rcases hExact.eq hGenerates'.isExact hSame with
    ⟨hGeneration, hTree⟩
  rw [hGeneration] at hRun'
  exact ⟨w'', hRun', hTree⟩

------------------------------------------------------------
-- A Small Project
------------------------------------------------------------

/- A source tree with a file and a header, and an empty directory. -/
def smallTree : FileTree where
  entries :=
    [(["out"], .directory), (["src"], .directory),
      (["src", "a.c"], .file shortFile),
      (["src", "b.h"], .file shortFile)]

/- The file in two variants, the header, and one that is missing. -/
def smallProject : List Dependency :=
  [.compiled .plain, .compiled .defining, .header ⟨"b.h"⟩,
    .header ⟨"c.h"⟩]

theorem isProject_smallProject :
    IsProject smallProject where
  distinct := by decide
  normalize_eq := by decide
  head?_ne := by decide
  isHeader_eq := by decide

theorem cases_of_mem_smallProject
    (hMem : .compiled i ∈ smallProject) :
    i = .plain ∨ i = .defining := by
  simpa [smallProject] using hMem

theorem tellsApart_smallProject :
    TellsApart smallProject where
  hasNoZero i hi := by
    rcases cases_of_mem_smallProject hi with rfl | rfl
    · exact ⟨by decide, nofun, nofun⟩
    · exact ⟨by decide, nofun, by decide⟩
  namesForced i hi := by
    rcases cases_of_mem_smallProject hi with rfl | rfl
    · exact nofun
    · exact nofun
  identity_eq i j hi hj hDigest := by
    have hOther :
        Digest.sha256 Inclusion.plain.identity ≠
          Digest.sha256 Inclusion.defining.identity := by
      decide +kernel
    rcases cases_of_mem_smallProject hi with rfl | rfl <;>
      rcases cases_of_mem_smallProject hj with rfl | rfl
    · rfl
    · exact absurd hDigest hOther
    · exact absurd hDigest.symm hOther
    · rfl

/- The header stays missing, as it is looked for outside. -/
theorem missing_smallTree
    {t : FileTree}
    (hGrows : GrowsBelow ["out"] smallTree t) :
    t.exists? ⟨"/src/c.h"⟩ = false := by
  have hPair : IsPair ⟨"/src/c.h"⟩ "src" "c.h" := by
    constructor <;> decide
  have hSource := hGrows.entry? ["src"] .directory rfl
  have hFree : t.entry? ["src", "c.h"] = none := by
    rw [hGrows.outside]
    · rfl
    · rintro ⟨rel, -, hRel⟩
      simp at hRel
  rw [exists?, status, hPair.resolve_eq hSource,
    walk_vacant hPair.name_ne.1 hPair.name_ne.2 hFree]
  rfl

/- Nothing is below the empty directory. -/
theorem entry?_smallTree
    {rel : Names}
    (hRel : rel ≠ []) :
    smallTree.entry? (["out"] ++ rel) = none := by
  cases hEntry : smallTree.entry? (["out"] ++ rel) with
  | none => rfl
  | some entry =>
      rw [ entry?, if_neg (by simp)] at hEntry
      rcases Dict.mem_of_find?_eq hEntry with
        ⟨names, hCompare, hMem⟩
      rw [← Std.compare_eq_iff_eq.mp hCompare] at hMem
      simp [smallTree, hRel] at hMem

theorem resolve_smallTree :
    smallTree.resolve true ⟨"/out"⟩ =
      .ok (.found ["out"] .directory) := by
  have hZero :
      ¬ (⟨"/out"⟩ : Path).text.contains '\x00' = true := by
    simp
  rw [resolve, if_neg (by decide), if_neg hZero, if_pos (by decide),
    show stepsOf "/out" = ["out"] by decide,
    walk_directory (by decide) (by decide) rfl, walk]
  rfl

theorem isPair_original :
    IsPair ⟨"/src/a.c"⟩ "src" "a.c" := by
  constructor <;> decide

theorem read_original :
    smallTree.read ⟨"/src/a.c"⟩ = .ok shortFile :=
  read_eq_ok_iff.mpr (isPair_original.status_file rfl rfl)

/- Every original can be read, but for the missing header. -/
theorem read_smallTree
    (hd : d ∈ smallProject) :
    smallTree.read ((⟨"/src"⟩ : Path).join d.file) =
        .ok shortFile ∨
      d = .header ⟨"c.h"⟩ := by
  have hHeader : IsPair ⟨"/src/b.h"⟩ "src" "b.h" := by
    constructor <;> decide
  simp only [smallProject, List.mem_cons, List.not_mem_nil,
    or_false] at hd
  rcases hd with rfl | rfl | rfl | rfl
  · exact Or.inl read_original
  · exact Or.inl read_original
  · exact
      Or.inl (read_eq_ok_iff.mpr (hHeader.status_file rfl rfl))
  · exact Or.inr rfl

theorem starts_smallProject :
    Starts smallProject ⟨"/src"⟩ ⟨"/out"⟩ ["out"] smallTree where
  project := isProject_smallProject
  apart := tellsApart_smallProject
  resolve_eq := resolve_smallTree
  entry?_eq_none _ hRel := entry?_smallTree hRel
  missing d hd _ hMissing t hGrows := by
    rcases read_smallTree hd with hRead | rfl
    · rw [exists?_of_read_eq hRead] at hMissing
      cases hMissing
    · exact missing_smallTree hGrows

/- All files lie in the source tree itself, so nothing obstructs. -/
theorem not_isHindered_smallProject :
    ¬ starts_smallProject.IsHindered := by
  rintro (⟨names, content, ⟨d, hd, hHere, hPrefix⟩,
      ⟨e, he, heHere, hNames, -⟩⟩ | ⟨d, hd, hHere, hUnreadable⟩)
  · have hTop :
        ∀ d ∈ smallProject, d.file.names.dropLast = [] := by
      decide
    rw [isProject_smallProject.dropLast_names_target hd
        (isWritten_iff.mp hHere).1, hTop d hd, List.prefix_nil]
      at hPrefix
    exact
      (goesOn_target starts_smallProject he heHere).ne_nil
        (hNames.trans hPrefix)
  · rcases read_smallTree hd with hRead | rfl
    · exact hUnreadable shortFile hRead
    · have hExists := (isWritten_iff.mp hHere).2
      have hMissing := missing_smallTree (.refl ["out"] smallTree)
      exact absurd (hMissing.symm.trans hExists) Bool.false_ne_true

/- It is generated exactly, and in the other order, too. -/
theorem generate_exact_smallProject :
    ∃ generation w' w'',
      generate smallProject ⟨"/src"⟩ ⟨"/out"⟩
          { files := smallTree } = (.ok generation, w') ∧
        generate smallProject.reverse ⟨"/src"⟩ ⟨"/out"⟩
            { files := smallTree } = (.ok generation, w'') ∧
        IsExact smallProject ⟨"/src"⟩ ["out"] smallTree generation
          w'.files ∧
        (∀ names,
          w''.files.entry? names = w'.files.entry? names) ∧
        w'.files.entry? ["out", "b.h"] = some (.file shortFile) := by
  have hStarts := starts_smallProject
  have hFree : ¬ hStarts.IsHindered := not_isHindered_smallProject
  rcases (hStarts.endsIn_generate
      (w := { files := smallTree })).exists_eq_ok hFree with
    ⟨generation, w', hRun, -⟩
  rcases generate_exact (w := { files := smallTree })
      isProject_smallProject tellsApart_smallProject
      resolve_smallTree (fun _ hRel => entry?_smallTree hRel)
      hStarts.missing hRun with
    ⟨hExact, hOrder⟩
  rcases hOrder smallProject.reverse fun d => List.mem_reverse with
    ⟨w'', hOther, hTree⟩
  have hHeader : Dependency.header ⟨"b.h"⟩ ∈ smallProject := by
    decide
  have hRead :
      smallTree.read ((⟨"/src"⟩ : Path).join ⟨"b.h"⟩) =
        .ok shortFile :=
    (read_smallTree hHeader).resolve_right (by decide)
  have hWritten :
      isWritten smallTree ⟨"/src"⟩ (.header ⟨"b.h"⟩) = true :=
    isWritten_iff.mpr ⟨by decide, exists?_of_read_eq hRead⟩
  have hFile :=
    (hExact.files ["b.h"] shortFile (by decide)).mpr
      ⟨_, hHeader, hWritten, by decide +kernel, shortFile, hRead,
        rfl⟩
  exact
    ⟨generation, w', w'', hRun, hOther, hExact, hTree, hFile⟩

------------------------------------------------------------
-- Two Variants in One File
------------------------------------------------------------

/- A file that forces the empty path, and one that defines a macro. -/
def climbingProject : List Dependency :=
  [.compiled .climbing, .compiled .emptyDefining]

def climbingName : String :=
  "a-9bbe3d94213fce9627840e060d4e6902" ++
    "cf912edcfc017046b04f09ab6db6c934.c"

/- The tree after its first variant was written, and the second. -/
def writtenTree : FileTree :=
  smallTree.withFile ["out", climbingName]
    (Inclusion.climbing.generated shortFile)

def overwrittenTree : FileTree :=
  writtenTree.withFile ["out", climbingName]
    (Inclusion.emptyDefining.generated shortFile)

theorem isPair_climbing :
    IsPair ((⟨"/out"⟩ : Path).join Inclusion.climbing.composedPath)
      "out" climbingName := by
  have hPath :
      (⟨"/out"⟩ : Path).join Inclusion.climbing.composedPath =
        ⟨"/out/" ++ climbingName⟩ := by
    decide +kernel
  rw [hPath]
  constructor <;> decide

/- Generating a file whose directory is there. -/
theorem writeFile_apply
    {file above : Path}
    {group : List Dependency}
    (hExists : w.files.exists? (source.join file) = true)
    (hParent : (destination.join file).parent? = some above)
    (hMake : makeDirectories above w.files = (.ok (), w.files)) :
    writeFile source destination file group w =
      writeEach (source.join file) destination file false group
        w := by
  have hEdit :
      Job.edit above (makeDirectories above) w = (.ok (), w) := by
    rw [Job.edit, hMake]
  rw [writeFile, Job.get_bind_apply, if_pos hExists, hParent]
  exact Job.bind_of_ok hEdit _

/- What is recorded for the two variants, under one name. -/
def climbingEntries : List (Path × Origin) :=
  [(Inclusion.climbing.composedPath, ⟨⟨"a.c"⟩, 2⟩),
    (Inclusion.climbing.composedPath, ⟨⟨"a.c"⟩, 1⟩)]

/- The second variant is written over the first one. -/
theorem writeEach_climbingProject :
    writeEach ⟨"/src/a.c"⟩ ⟨"/out"⟩ ⟨"a.c"⟩ false climbingProject
        { files := smallTree } =
      (.ok climbingEntries, { files := overwrittenTree }) := by
  have hFree :
      smallTree.fileToWrite
          ((⟨"/out"⟩ : Path).join Inclusion.climbing.composedPath) =
        .ok ["out", climbingName] :=
    isPair_climbing.fileToWrite_vacant rfl (by cbv)
  have hTaken :
      writtenTree.fileToWrite
          ((⟨"/out"⟩ : Path).join
            Inclusion.emptyDefining.composedPath) =
        .ok ["out", climbingName] := by
    rw [Inclusion.composedPath_emptyDefining]
    exact fileToWrite_withFile hFree
  have hSource : writtenTree.entry? ["src"] = some .directory := by
    cbv
  have hOriginal :
      writtenTree.entry? ["src", "a.c"] = some (.file shortFile) := by
    cbv
  have hRead :=
    read_eq_ok_iff.mpr (isPair_original.status_file hSource hOriginal)
  have hFirst :=
    writeCompiled_apply (w := { files := smallTree }) read_original
      hFree
  have hSecond :=
    writeCompiled_apply (w := { files := writtenTree }) hRead hTaken
  rw [Inclusion.composedPath_emptyDefining] at hSecond
  rw [climbingProject, writeEach, Job.bind_of_ok hFirst, writeEach]
  exact Job.bind_of_ok (Job.bind_of_ok hSecond _) _

theorem generate_climbingProject :
    generate climbingProject ⟨"/src"⟩ ⟨"/out"⟩
        { files := smallTree } =
      (.ok (Dict.ofList climbingEntries),
        { files := overwrittenTree }) := by
  have hTargets :
      targets climbingProject = [(⟨"a.c"⟩, climbingProject)] := by
    cbv
  have hParent :
      ((⟨"/out"⟩ : Path).join ⟨"a.c"⟩).parent? = some ⟨"/out"⟩ := by
    decide
  have hExists :
      smallTree.exists? ((⟨"/src"⟩ : Path).join ⟨"a.c"⟩) = true :=
    exists?_of_read_eq read_original
  have hMake := makeDirectories_same resolve_smallTree hParent rfl
  have hFile :
      writeFile ⟨"/src"⟩ ⟨"/out"⟩ ⟨"a.c"⟩ climbingProject
          { files := smallTree } =
        writeEach ⟨"/src/a.c"⟩ ⟨"/out"⟩ ⟨"a.c"⟩ false
          climbingProject { files := smallTree } :=
    writeFile_apply hExists hParent hMake
  have hEach := hFile.trans writeEach_climbingProject
  rw [generate, hTargets, writeAll]
  exact Job.bind_of_ok (Job.bind_of_ok hEach _) _

theorem cases_of_mem_climbingProject
    (hMem : .compiled i ∈ climbingProject) :
    i = .climbing ∨ i = .emptyDefining := by
  simpa [climbingProject] using hMem

/-
  Whatever the digest is, they have one name, so one entry is
  recorded for the two, and the first of them is lost.
-/
theorem not_isExact_climbingProject :
    IsProject climbingProject ∧
      (∀ i, .compiled i ∈ climbingProject → i.HasNoZero) ∧
      (∀ i j, .compiled i ∈ climbingProject →
        .compiled j ∈ climbingProject →
          Digest.sha256 i.identity = Digest.sha256 j.identity →
            i.identity = j.identity) ∧
      ∃ generation w',
        generate climbingProject ⟨"/src"⟩ ⟨"/out"⟩
            { files := smallTree } = (.ok generation, w') ∧
          generation.length = 1 ∧
          w'.files.read
              ((⟨"/out"⟩ : Path).join
                Inclusion.climbing.composedPath) =
            .ok (Inclusion.emptyDefining.generated shortFile) ∧
          ¬ IsExact climbingProject ⟨"/src"⟩ ["out"] smallTree
              generation w'.files := by
  refine ⟨?_, fun i hi => ?_, fun i j hi hj _ => ?_, ?_⟩
  · exact
      ⟨by decide +kernel, by decide +kernel, by decide +kernel,
        by decide +kernel⟩
  · rcases cases_of_mem_climbingProject hi with rfl | rfl
    · exact ⟨by decide, by decide, nofun⟩
    · exact ⟨by decide, nofun, by decide⟩
  · have hSame : ∀ k, .compiled k ∈ climbingProject →
        k.identity = Inclusion.climbing.identity := by
      intro k hk
      rcases cases_of_mem_climbingProject hk with rfl | rfl
      · rfl
      · exact Inclusion.identity_emptyDefining
    rw [hSame i hi, hSame j hj]
  · refine
      ⟨_, _, generate_climbingProject, by decide +kernel, ?_,
        fun hExact => ?_⟩
    · have hDirectory :
          overwrittenTree.entry? ["out"] = some .directory := by
        decide +kernel
      have hFile :
          overwrittenTree.entry? ["out", climbingName] =
            some (.file
              (Inclusion.emptyDefining.generated shortFile)) := by
        decide +kernel
      exact
        read_eq_ok_iff.mpr
          (isPair_climbing.status_file hDirectory hFile)
    · have hThere : ∀ d ∈ climbingProject,
          isWritten smallTree ⟨"/src"⟩ d = true := by
        intro d hd
        have hExists := exists?_of_read_eq read_original
        simp only [climbingProject, List.mem_cons,
          List.not_mem_nil, or_false] at hd
        rcases hd with rfl | rfl
        · exact isWritten_iff.mpr ⟨by decide, hExists⟩
        · exact isWritten_iff.mpr ⟨by decide, hExists⟩
      have hSame :=
        hExact.apart (.compiled .climbing) (by decide)
          (.compiled .emptyDefining) (by decide)
          (hThere _ (by decide)) (hThere _ (by decide))
          (congrArg Path.names Inclusion.composedPath_emptyDefining.symm)
      cases hSame

end Generation

end Variability
