import Variability.Proofs.Composer.Steps
import Variability.Proofs.FileTree.Copying

/-
  A copy of the sources that another composer left.

  The sources are not copied again where the directory of the copy
  is there. It is there as soon as the copying has begun, so what
  a composer leaves that could not copy an entry is taken for the
  copy by the next one that uses the same directory.

  Main declarations:
    * `Composer.copySourceUnless`
    * `Composer.copySource_of_exists`
    * `Composer.copySourceUnless_partial`
    * `Composer.copySource_isCopy_iff`
-/

namespace Variability

namespace Composer

open FileTree (CopyFailures)

variable {c d : Composer}
variable {w : Workspace}
variable {origin copy : Names}
variable {failures : CopyFailures}

------------------------------------------------------------
-- Failures
------------------------------------------------------------

/- Copy a tree until an entry fails. -/
def copyTreeUnless
    (failures : CopyFailures)
    (source target : Path) :
    Job Unit := fun w =>
  match FileTree.copyTreeUnless failures source target w.files with
  | (.ok (), files) => (.ok (), { w with files })
  | (.error (p, e), files) => (.error (.file p e), { w with files })

/- The sources are copied until an entry fails. -/
def copyingUnless
    (failures : CopyFailures)
    (c : Composer) :
    Job Unit := do
  if (← get).files.exists? c.sourceDir then
    pure ()
  else
    copyTreeUnless failures c.config.source c.sourceDir

/- Copy the sources, when some entries cannot be copied. -/
def copySourceUnless (failures : CopyFailures) : Composing Unit :=
  jobStep .initialized .sourceCopied (copyingUnless failures)
    fun _ c => c

theorem copyTreeUnless_none
    (source target : Path) :
    copyTreeUnless (fun _ => none) source target =
      copyTree source target := by
  funext w
  unfold copyTreeUnless copyTree
  rcases hRun : FileTree.copyTree source target w.files with
    ⟨⟨_, _⟩ | _, _⟩ <;>
    rw [FileTree.copyTreeUnless_none, hRun]

/- Where nothing fails the sources are copied. -/
theorem copySourceUnless_none :
    copySourceUnless (fun _ => none) = copySource := by
  have hCopying : copyingUnless (fun _ => none) = copying := by
    funext c
    rw [copyingUnless, copying, copyTreeUnless_none]
  rw [copySourceUnless, hCopying, copySource_eq]

------------------------------------------------------------
-- Copying and Reusing
------------------------------------------------------------

/- A directory that is there is taken for the copy. -/
theorem copySource_of_exists
    (hStage : c.stage = .initialized)
    (hCopy : w.files.exists? c.sourceDir = true) :
    copySource c w =
      ((.ok (), { c with stage := .sourceCopied }), w) := by
  have hJob : c.copying w = (.ok (), w) := by
    rw [copying, Job.get_bind_apply, if_pos hCopy]
    rfl
  rw [copySource_eq, jobStep_of_ok hStage hJob]

/- Where nothing is the tree is copied, whether it fails or not. -/
theorem copySourceUnless_of_missing
    (hStage : c.stage = .initialized)
    (hMissing : w.files.exists? c.sourceDir = false)
    (failures : CopyFailures) :
    ((copySourceUnless failures c w).1.1 = .ok () ↔
      (FileTree.copyTreeUnless failures c.config.source
        c.sourceDir w.files).1 = .ok ()) ∧
    (copySourceUnless failures c w).2 =
      { w with
        files :=
          (FileTree.copyTreeUnless failures c.config.source
            c.sourceDir w.files).2 } := by
  have hJob :
      copyingUnless failures c w =
        copyTreeUnless failures c.config.source c.sourceDir w := by
    rw [copyingUnless, Job.get_bind_apply, hMissing]
    rfl
  rw [copySourceUnless, jobStep_apply hStage, hJob, copyTreeUnless]
  generalize
    FileTree.copyTreeUnless failures c.config.source c.sourceDir
      w.files = run
  rcases run with ⟨⟨p, e⟩ | ⟨⟩, files⟩
  · exact ⟨⟨nofun, nofun⟩, rfl⟩
  · exact ⟨⟨fun _ => rfl, fun _ => rfl⟩, rfl⟩

/- A composer with the same directories as another one. -/
structure SharesCopy (c d : Composer) : Prop where
  source_eq : d.config.source = c.config.source
  tmpDir_eq : d.config.tmpDir = c.config.tmpDir

theorem SharesCopy.sourceDir_eq
    (hShares : c.SharesCopy d) :
    d.sourceDir = c.sourceDir := by
  unfold sourceDir Config.sourceCopyDir
  rw [hShares.tmpDir_eq]

/-
  If the directory of the copy can be made, what is left in it is
  a copy exactly if no entry fails.
-/
theorem copySourceUnless_partial
    (hStarts :
      w.files.StartsCopy c.config.source c.sourceDir origin copy)
    (hLess : FileTree.LeavesLess failures w.files origin)
    (hStage : c.stage = .initialized)
    (hRoot : failures [] = none) :
    let run := copySourceUnless failures c w
    run.2.files.exists? c.sourceDir = true ∧
      (run.1.1 = .ok () ↔
        ∀ e ∈ w.files.entriesToCopy origin, failures e.1 = none) ∧
      (run.2.files.IsCopy origin copy ↔
        ∀ e ∈ w.files.entriesToCopy origin,
          failures e.1 = none) := by
  intro run
  rcases copySourceUnless_of_missing hStage hStarts.exists?_eq
      failures with
    ⟨hOk, hLeft⟩
  have hLists :=
    FileTree.lists_entriesToCopy hStarts.wellFormed origin
  rcases hStarts.ends_copyTreeUnless hLess with
    ⟨hFails, -⟩ | ⟨-, hEnds⟩
  · exact absurd hRoot hFails
  · rcases hEnds.isCopy_iff hLists with ⟨hResolve, hDone, hIsCopy⟩
    rw [← hOk] at hDone
    rw [hLeft]
    refine ⟨?_, hDone, hIsCopy⟩
    unfold FileTree.exists? FileTree.status
    rw [hResolve]
    rfl

/- If it cannot be made, nothing is left. -/
theorem copySourceUnless_root
    (hStarts :
      w.files.StartsCopy c.config.source c.sourceDir origin copy)
    (hLess : FileTree.LeavesLess failures w.files origin)
    (hStage : c.stage = .initialized)
    (hRoot : failures [] ≠ none) :
    (copySourceUnless failures c w).1.1 ≠ .ok () ∧
      (copySourceUnless failures c w).2 = w := by
  rcases copySourceUnless_of_missing hStage hStarts.exists?_eq
      failures with
    ⟨hOk, hLeft⟩
  rcases hStarts.ends_copyTreeUnless hLess with
    ⟨-, error, hRun⟩ | ⟨hNone, -⟩
  · rw [hRun] at hOk hLeft
    exact ⟨fun hDone => absurd (hOk.mp hDone) nofun, hLeft⟩
  · exact absurd hNone hRoot

/- Where nothing is and nothing fails, a copy is made. -/
theorem copySource_of_missing
    (hStarts :
      w.files.StartsCopy c.config.source c.sourceDir origin copy)
    (hStage : c.stage = .initialized) :
    (copySource c w).1.1 = .ok () ∧
      (copySource c w).2.files.IsCopy origin copy := by
  have hLess :
      FileTree.LeavesLess (fun _ => none) w.files origin :=
    nofun
  rcases copySourceUnless_partial hStarts hLess hStage rfl with
    ⟨-, hDone, hIsCopy⟩
  rw [copySourceUnless_none] at hDone hIsCopy
  exact ⟨hDone.mpr fun _ _ => rfl, hIsCopy.mpr fun _ _ => rfl⟩

/-
  A composer that comes after one that could not copy all entries
  always succeeds. It has a copy exactly if the directory of the
  copy could not be made before or nothing failed.
-/
theorem copySource_isCopy_iff
    (hStarts :
      w.files.StartsCopy c.config.source c.sourceDir origin copy)
    (hLess : FileTree.LeavesLess failures w.files origin)
    (hFirst : c.stage = .initialized)
    (hLater : d.stage = .initialized)
    (hShares : c.SharesCopy d) :
    let first := copySourceUnless failures c w
    let later := copySource d first.2
    (first.1.1 = .ok () ↔
      failures [] = none ∧
        ∀ e ∈ w.files.entriesToCopy origin,
          failures e.1 = none) ∧
    later.1.1 = .ok () ∧
    (later.2.files.IsCopy origin copy ↔
      failures [] ≠ none ∨
        ∀ e ∈ w.files.entriesToCopy origin,
          failures e.1 = none) := by
  intro first later
  by_cases hRoot : failures [] = none
  · rcases copySourceUnless_partial hStarts hLess hFirst hRoot with
      ⟨hExists, hDone, hIsCopy⟩
    rw [← hShares.sourceDir_eq] at hExists
    have hReused :
        later = ((.ok (), { d with stage := .sourceCopied }),
          first.2) :=
      copySource_of_exists hLater hExists
    rw [hReused]
    refine ⟨hDone.trans ?_, rfl, hIsCopy.trans ?_⟩ <;>
      simp [hRoot]
  · rcases copySourceUnless_root hStarts hLess hFirst hRoot with
      ⟨hFails, hLeft⟩
    have hSame : later = copySource d w :=
      congrArg (copySource d) hLeft
    rw [← hShares.source_eq, ← hShares.sourceDir_eq] at hStarts
    rcases copySource_of_missing hStarts hLater with
      ⟨hDone, hIsCopy⟩
    rw [hSame]
    exact
      ⟨⟨fun h => absurd h hFails, fun h => absurd h.1 hRoot⟩,
        hDone, ⟨fun _ => Or.inl hRoot, fun _ => hIsCopy⟩⟩

------------------------------------------------------------
-- A Failure
------------------------------------------------------------

/- Sources of which there is no copy. -/
def uncopied : Workspace where
  files :=
    { entries :=
        [(["src"], .directory), (["src", "a.c"], .file [97]),
          (["src", "b.c"], .file [98])] }

def copier : Composer :=
  ofConfig { source := ⟨"/src"⟩, tmpDir := ⟨"/tmp"⟩ } (.ofList [])

/- The second file is gone when it is to be copied. -/
def secondFails : CopyFailures := fun names =>
  if names = ["b.c"] then some { error := .notFound } else none

theorem sourceDir_copier : copier.sourceDir = ⟨"/tmp/source"⟩ := by
  decide

/- The names of these files and directories, and of the copy. -/
theorem isPlain_names :
    ∀ name ∈ ["src", "a.c", "b.c", "tmp", "source"],
      (Component.name name).IsPlain ∧ '\x00' ∉ name.toList := by
  unfold Component.IsPlain
  decide

theorem areNames_of_subset
    {names : Names}
    (hNames : names ⊆ ["src", "a.c", "b.c", "tmp", "source"]) :
    Path.AreNames (names.map .name) ∧
      ∀ name ∈ names, '\x00' ∉ name.toList := by
  refine ⟨fun c hc => ?_, fun name hName => ?_⟩
  · rcases List.mem_map.mp hc with ⟨name, hName, rfl⟩
    exact ⟨name, rfl, (isPlain_names name (hNames hName)).1⟩
  · exact (isPlain_names name (hNames hName)).2

theorem isWellFormed_uncopied : uncopied.files.IsWellFormed := by
  have hPlaces :
      ∀ e ∈ uncopied.files.entries,
        uncopied.files.entry? e.1.dropLast = some .directory ∧
          e.1 ⊆ ["src", "a.c", "b.c", "tmp", "source"] := by
    decide
  apply FileTree.isWellFormed_of_mem
  · unfold Dict.IsOrdered
    decide
  · intro e he
    exact
      ⟨(hPlaces e he).1, areNames_of_subset (hPlaces e he).2⟩

theorem goesOn_sourceDir :
    (⟨"/"⟩ : Path).GoesOn ⟨"/tmp/source"⟩ ["tmp", "source"] where
  components_eq := by decide
  isTrimmed := ⟨"source".toList, by decide, by decide⟩
  areNames := (areNames_of_subset (by decide)).1
  not_mem_zero := (areNames_of_subset (by decide)).2
  ne_nil := nofun

theorem startsCopy_uncopied :
    uncopied.files.StartsCopy copier.config.source copier.sourceDir
      ["src"] ["tmp", "source"] where
  wellFormed := isWellFormed_uncopied
  resolve_eq := by
    have hSteps : FileTree.stepsOf "/src" = ["src"] := by
      decide
    change uncopied.files.resolve false ⟨"/src"⟩ = _
    rw [FileTree.resolve_eq_walk (by decide) (by decide), hSteps,
      FileTree.walk_directory (by decide) (by decide) rfl,
      FileTree.walk]
    rfl
  lastName_ne := by decide
  isFreePlace := by
    have hSteps : FileTree.stepsOf "/" = ["."] := by
      decide
    rw [sourceDir_copier]
    refine ⟨⟨"/"⟩, [], _, ?_, goesOn_sourceDir, by decide, rfl⟩
    rw [FileTree.resolve_eq_walk (by decide) (by decide), hSteps,
      FileTree.walk, FileTree.walk]
    rfl
  outside := by decide
  outside' := by decide

/- A file that is gone leaves nothing. -/
theorem leavesLess_secondFails :
    FileTree.LeavesLess secondFails uncopied.files ["src"] := by
  intro rel content failure _ hFailure
  unfold secondFails at hFailure
  split at hFailure <;> cases hFailure
  exact nofun

/- The copy lacks this file, and the next composer takes it. -/
theorem copySource_isCopy_iff_secondFails :
    let first := copySourceUnless secondFails copier uncopied
    let later := copySource copier first.2
    later.1.1 = .ok () ∧
      (later.2.files.IsCopy ["src"] ["tmp", "source"] ↔
        secondFails [] ≠ none ∨
          ∀ e ∈ uncopied.files.entriesToCopy ["src"],
            secondFails e.1 = none) :=
  (copySource_isCopy_iff startsCopy_uncopied leavesLess_secondFails
    rfl rfl ⟨rfl, rfl⟩).2

theorem not_isCopy_secondFails :
    let first := copySourceUnless secondFails copier uncopied
    let later := copySource copier first.2
    first.1.1 ≠ .ok () ∧ later.1.1 = .ok () ∧
      ¬ later.2.files.IsCopy ["src"] ["tmp", "source"] := by
  intro first later
  rcases copySourceUnless_partial startsCopy_uncopied
      leavesLess_secondFails rfl rfl with
    ⟨hExists, hDone, hIsCopy⟩
  have hReused :
      later = ((.ok (), { copier with stage := .sourceCopied }),
        first.2) :=
    copySource_of_exists rfl hExists
  have hFails :
      ¬ ∀ e ∈ uncopied.files.entriesToCopy ["src"],
        secondFails e.1 = none := by
    decide
  rw [hReused]
  exact
    ⟨fun h => hFails (hDone.mp h), rfl,
      fun h => hFails (hIsCopy.mp h)⟩

end Composer

end Variability
