import Mathlib.Data.List.Find
import Mathlib.Data.List.Perm.Basic
import Variability.Composer
import Variability.Proofs.Dict.Ordered
import Variability.Proofs.FileTree.Writing
import Variability.Proofs.Generation.LineByLine
import Variability.Proofs.Inclusion.Sameness
import Variability.Proofs.Inclusion.Variants
import Variability.Proofs.Job.Running
import Variability.Proofs.LineConditions.Independence
import Variability.Proofs.Preprocessor.Builtins

/-
  Compositions and the order of their files.

  Every file is given what it would be given in the empty space.
  So the files of a composition can be taken in any order: either
  one of them fails whatever the order is, or all have the same
  lines with formulas that have the same values. Of files that are
  generated under one path the last one counts, so the order shows
  if there are such files.

  Main declarations:
    * `Composer.alone`
    * `Composer.answers_lineConditions`
    * `Composer.last?`
    * `Composer.Outcomes`
    * `Space.Reached.extract_independent`
-/

namespace Variability

namespace Composer

variable {c : Composer}
variable {w w' : Workspace}
variable {i : Inclusion}
variable {is js : List Inclusion}

------------------------------------------------------------
-- Single Files
------------------------------------------------------------

/- What the lines of files are extracted with. -/
def context (c : Composer) (files : FileTree) : LineContext :=
  ⟨files, c.sourceDir, c.strategy.naming, c.model,
    c.config.maxIncludeDepth⟩

/- What a file is given in the empty space. -/
def alone
    (c : Composer)
    (files : FileTree)
    (i : Inclusion) :
    Except Fault LineConditions :=
  (LineConditions.extract (c.context files) i .empty).1.1

theorem alone_eq
    (c : Composer)
    (files : FileTree)
    (i : Inclusion) :
    c.alone files i =
      (LineConditions.extract (c.context files) i .empty).1.1 :=
  rfl

/- Whether the conditions of the lines of a file are asked for. -/
def isWanted
    (c : Composer)
    (files : FileTree)
    (i : Inclusion) :
    Bool :=
  c.isGenerated files i && !c.isExcluded i.file

/- Whether a file was generated but only counts as a whole. -/
def isSkipped
    (c : Composer)
    (files : FileTree)
    (i : Inclusion) :
    Bool :=
  c.isGenerated files i && c.isExcluded i.file

/- The lines of a file as they are given to a file alone. -/
structure IsGiven
    (c : Composer)
    (files : FileTree)
    (entry : Path × LineConditions)
    (i : Inclusion) : Prop where
  path_eq : entry.1 = i.composedPath
  answer :
    ∃ conditions, c.alone files i = .ok conditions ∧
      entry.2.Alike conditions

/-
  All files that are asked for are given what they are given
  alone, or one of them fails alone.
-/
def Answers
    (c : Composer)
    (files : FileTree)
    (is : List Inclusion) :
    Except Fault (List (Path × LineConditions) × List Path) →
      Prop
  | .error _ =>
      ∃ i ∈ is, c.isWanted files i = true ∧
        ∃ e, c.alone files i = .error e
  | .ok (lines, excluded) =>
      List.Forall₂ (c.IsGiven files) lines
          (is.filter (c.isWanted files)) ∧
        excluded =
          (is.filter (c.isSkipped files)).map
            Inclusion.composedPath

/- A workspace in which files can be extracted. -/
structure IsReady (files : FileTree) (w : Workspace) : Prop where
  files_eq : w.files = files
  reached : w.space.Reached
  cancelled_eq : w.cancelled = false

/- An extraction gives a file what it is given alone. -/
theorem extractLines_alike
    {files : FileTree}
    (hReady : IsReady files w)
    (i : Inclusion) :
    IsReady files (c.extractLines i w).2 ∧
      LineConditions.AnswersAlike (c.extractLines i w).1
        (c.alone files i) := by
  rcases hReady with ⟨rfl, hReached, hActive⟩
  refine ⟨⟨rfl, ?_, hActive⟩, ?_⟩
  · exact
      LineConditions.reached_extract hReached
        (c.context w.files) i
  · exact
      LineConditions.extract_alike hReached.sound
        Space.Reached.empty.sound (c.context w.files) i

------------------------------------------------------------
-- All Files
------------------------------------------------------------

namespace Answers

variable {files : FileTree}
variable {out : Except Fault
  (List (Path × LineConditions) × List Path)}

/- A file that was not generated does not count. -/
theorem ignore
    (hAnswers : c.Answers files is out)
    (hGenerated : c.isGenerated files i = false) :
    c.Answers files (i :: is) out := by
  have hWanted : c.isWanted files i = false := by
    simp [isWanted, hGenerated]
  have hSkipped : c.isSkipped files i = false := by
    simp [isSkipped, hGenerated]
  cases out with
  | error e =>
      rcases hAnswers with ⟨j, hMem, hFails⟩
      exact ⟨j, List.mem_cons_of_mem i hMem, hFails⟩
  | ok out => simpa [Answers, hWanted, hSkipped] using hAnswers

/- An excluded file is put to the excluded ones. -/
theorem skip
    (hAnswers : c.Answers files is out)
    (hGenerated : c.isGenerated files i = true)
    (hExcluded : c.isExcluded i.file = true) :
    c.Answers files (i :: is)
      (out.map fun (lines, excluded) =>
        (lines, i.composedPath :: excluded)) := by
  have hWanted : c.isWanted files i = false := by
    simp [isWanted, hExcluded]
  have hSkipped : c.isSkipped files i = true := by
    simp [isSkipped, hGenerated, hExcluded]
  cases out with
  | error e =>
      rcases hAnswers with ⟨j, hMem, hFails⟩
      exact ⟨j, List.mem_cons_of_mem i hMem, hFails⟩
  | ok out =>
      rcases hAnswers with ⟨hLines, hEq⟩
      refine ⟨?_, ?_⟩
      · simpa [hWanted] using hLines
      · simp [hSkipped, hEq]

/- The lines of a file are put to those of the others. -/
theorem add
    (hAnswers : c.Answers files is out)
    (hGenerated : c.isGenerated files i = true)
    (hExcluded : c.isExcluded i.file = false)
    {conditions : LineConditions}
    (hGiven : c.IsGiven files (i.composedPath, conditions) i) :
    c.Answers files (i :: is)
      (out.map fun (lines, excluded) =>
        ((i.composedPath, conditions) :: lines, excluded)) := by
  have hWanted : c.isWanted files i = true := by
    simp [isWanted, hGenerated, hExcluded]
  have hSkipped : c.isSkipped files i = false := by
    simp [isSkipped, hExcluded]
  cases out with
  | error e =>
      rcases hAnswers with ⟨j, hMem, hFails⟩
      exact ⟨j, List.mem_cons_of_mem i hMem, hFails⟩
  | ok out =>
      rcases hAnswers with ⟨hLines, hEq⟩
      refine ⟨?_, ?_⟩
      · rw [List.filter_cons_of_pos hWanted]
        exact .cons hGiven hLines
      · simpa [hSkipped] using hEq

end Answers

/-
  Whatever was extracted before, files are given what they are
  given alone, by induction on the files.
-/
theorem answers_lineConditions
    {files : FileTree}
    (hReady : IsReady files w)
    (is : List Inclusion) :
    c.Answers files is (c.lineConditions is w).1 := by
  induction is generalizing w with
  | nil => exact ⟨.nil, rfl⟩
  | cons i is ih =>
      have hGet : (get : Job Workspace) w = (.ok w, w) := rfl
      rw [lineConditions, Job.bind_apply,
        Job.check_apply hReady.cancelled_eq]
      dsimp only
      rw [Job.bind_apply, hGet]
      dsimp only
      rw [hReady.files_eq]
      cases hGenerated : c.isGenerated files i with
      | false => exact (ih hReady).ignore hGenerated
      | true =>
          rw [if_pos rfl]
          cases hExcluded : c.isExcluded i.file with
          | true =>
              rw [if_pos rfl, Job.fst_bind_pure]
              exact (ih hReady).skip hGenerated hExcluded
          | false =>
              have hFirst :=
                extractLines_alike (c := c) hReady i
              rw [if_neg Bool.false_ne_true, Job.bind_apply]
              generalize c.extractLines i w = first
                at hFirst ⊢
              rcases first with ⟨answer, w'⟩
              rcases hFirst with ⟨hReady', hAlike⟩
              dsimp only at hReady' hAlike
              generalize hAlone : c.alone files i = alone
                at hAlike
              cases hAlike with
              | error e =>
                  have hWanted :
                      c.isWanted files i = true := by
                    simp [isWanted, hGenerated, hExcluded]
                  exact
                    ⟨i, List.mem_cons_self, hWanted, e,
                      hAlone⟩
              | ok hAlike =>
                  dsimp only
                  rw [Job.fst_bind_pure]
                  exact
                    (ih hReady').add hGenerated hExcluded
                      ⟨rfl, _, hAlone, hAlike⟩

------------------------------------------------------------
-- Orders of Files
------------------------------------------------------------

/- Whether the conditions of a file are told under a path. -/
def isToldAt (p : Path) (i : Inclusion) : Bool :=
  i.composedPath.normalize.same p

/-
  The file whose conditions are told under a path. It is the one
  that is extracted last, if there are several.
-/
def last?
    (c : Composer)
    (files : FileTree)
    (is : List Inclusion)
    (p : Path) :
    Option Inclusion :=
  (is.filter (c.isWanted files)).reverse.find? (isToldAt p)

/- Files with paths of their own can be taken in any order. -/
theorem last?_eq_of_perm
    {files : FileTree}
    (hApart :
      ∀ i ∈ is, ∀ j ∈ is,
        i.composedPath.normalize.same j.composedPath.normalize =
            true →
          i = j)
    (hPerm : is.Perm js)
    (p : Path) :
    c.last? files is p = c.last? files js p := by
  have hReverse :
      (is.filter (c.isWanted files)).reverse.Perm
        (js.filter (c.isWanted files)).reverse :=
    (List.reverse_perm _).trans
      ((hPerm.filter _).trans (List.reverse_perm _).symm)
  refine List.find?_eq_find?_of_perm hReverse ?_
  rintro i ⟨hi, hiHere⟩ j ⟨hj, hjHere⟩
  rw [List.mem_reverse] at hi hj
  refine
    hApart i (List.mem_filter.mp hi).1 j (List.mem_filter.mp hj).1 ?_
  rw [isToldAt, Path.same_iff] at hiHere hjHere
  rw [Path.same_iff, hiHere, hjHere]

/- Lines that are given to one file are alike. -/
theorem IsGiven.alike
    {files : FileTree}
    {entry entry' : Path × LineConditions}
    (hFirst : c.IsGiven files entry i)
    (hSecond : c.IsGiven files entry' i) :
    entry.2.Alike entry'.2 := by
  rcases hFirst with ⟨-, conditions, hAlone, hAlike⟩
  rcases hSecond with ⟨-, conditions', hAlone', hAlike'⟩
  rw [hAlone, Except.ok.injEq] at hAlone'
  subst hAlone'
  exact hAlike.trans hAlike'.symm

/- Under a path the lines of the last file are found. -/
theorem find?_given
    {files : FileTree}
    {lines : List (Path × LineConditions)}
    (hLines : List.Forall₂ (c.IsGiven files) lines js)
    (p : Path) :
    Option.Rel
      (fun conditions j =>
        c.IsGiven files (j.composedPath, conditions) j)
      (Dict.find? p
        (Dict.ofList
          (lines.map fun (path, conditions) =>
            (path.normalize, conditions))))
      (js.reverse.find? (isToldAt p)) := by
  have hReverse := List.forall₂_reverse_iff.mpr hLines
  rw [Dict.find?_ofList_of_trans, ← List.map_reverse]
  generalize lines.reverse = behind at hReverse
  generalize js.reverse = behind' at hReverse
  induction hReverse with
  | nil => exact .none
  | @cons entry j _ _ hGiven _ ih =>
      have hKey :
          (compare p entry.1.normalize == .eq) = isToldAt p j := by
        rw [hGiven.path_eq, isToldAt, Bool.eq_iff_iff, beq_iff_eq,
          Path.compare_eq_iff_same]
      rw [List.map_cons, List.find?_cons, List.find?_cons]
      dsimp only
      rw [hKey]
      cases isToldAt p j with
      | true => exact .some ⟨rfl, hGiven.answer⟩
      | false => exact ih

/- Where all files are given lines, none fails alone. -/
theorem not_fails_of_given
    {files : FileTree}
    {lines : List (Path × LineConditions)}
    (hLines : List.Forall₂ (c.IsGiven files) lines is)
    (hMem : i ∈ is)
    (e : Fault) :
    c.alone files i ≠ .error e := by
  induction hLines with
  | nil => cases hMem
  | cons hGiven _ ih =>
      rcases List.mem_cons.mp hMem with rfl | hMem
      · rcases hGiven.answer with ⟨conditions, hAlone, _⟩
        simp [hAlone]
      · exact ih hMem

/- Lines are given to a file that can be read. -/
theorem exists_alone
    {files : FileTree}
    {text : String}
    (hRead :
      files.readLossy ((c.context files).absolute i.file) =
        .ok text) :
    ∃ conditions, c.alone files i = .ok conditions := by
  have hRun (st : Preprocessor.State) :
      ∃ reached after,
        (c.context files).preprocess i st = (.ok reached, after) := by
    unfold LineContext.preprocess Preprocessor.run
    rw [show ((c.context files).settings i).tree = files from rfl,
      hRead]
    exact ⟨_, _, rfl⟩
  rcases hRun (.start .empty) with ⟨reached, after, hReached⟩
  rw [alone_eq]
  unfold LineConditions.extract
  rw [hReached]
  exact ⟨_, rfl⟩

theorem exists_lineConditions
    {files : FileTree}
    (hReady : IsReady files w)
    (hRead :
      ∀ i ∈ is, ∃ text,
        files.readLossy ((c.context files).absolute i.file) =
          .ok text) :
    ∃ out w', c.lineConditions is w = (.ok out, w') := by
  have hAnswers := answers_lineConditions (c := c) hReady is
  generalize c.lineConditions is w = done at hAnswers ⊢
  rcases done with ⟨e | out, w'⟩
  · rcases hAnswers with ⟨i, hMem, -, e', hFails⟩
    rcases hRead i hMem with ⟨text, hText⟩
    rcases exists_alone hText with ⟨conditions, hAlone⟩
    rw [hAlone] at hFails
    cases hFails
  · exact ⟨out, w', rfl⟩

/- What is found for one file is alike. -/
theorem alike_of_found
    {files : FileTree}
    {found found' : Option LineConditions}
    {last : Option Inclusion}
    (hFound :
      Option.Rel
        (fun conditions j =>
          c.IsGiven files (j.composedPath, conditions) j)
        found last)
    (hFound' :
      Option.Rel
        (fun conditions j =>
          c.IsGiven files (j.composedPath, conditions) j)
        found' last) :
    Option.Rel LineConditions.Alike found found' := by
  cases hFound with
  | none =>
      cases hFound' with
      | none => exact .none
  | some hGiven =>
      cases hFound' with
      | some hGiven' => exact .some (hGiven.alike hGiven')

/- If a file fails alone, then so does every order of the files. -/
theorem Answers.fails
    {files : FileTree}
    {e : Fault}
    {out : Except Fault
      (List (Path × LineConditions) × List Path)}
    (hFirst : c.Answers files is (.error e))
    (hSecond : c.Answers files js out)
    (hPerm : is.Perm js) :
    ∃ e', out = .error e' := by
  cases out with
  | error e' => exact ⟨e', rfl⟩
  | ok out =>
      rcases hFirst with ⟨i, hMem, hAsked, e', hAlone⟩
      have hMem' : i ∈ js.filter (c.isWanted files) :=
        List.mem_filter.mpr ⟨hPerm.subset hMem, hAsked⟩
      exact
        absurd hAlone (not_fails_of_given hSecond.1 hMem' e')

/-
  Answers to the same files in two orders tell the same, if these
  end alike under each path.
-/
theorem Answers.alike
    {files : FileTree}
    {lines lines' : List (Path × LineConditions)}
    {excluded excluded' : List Path}
    (hFirst : c.Answers files is (.ok (lines, excluded)))
    (hSecond : c.Answers files js (.ok (lines', excluded')))
    (hPerm : is.Perm js)
    (hLast : ∀ p, c.last? files is p = c.last? files js p)
    (sources : SourceMap)
    (whole : FileConditions) :
    Presence.Alike (.make sources whole lines excluded)
      (.make sources whole lines' excluded') := by
  rcases hFirst with ⟨hLines, rfl⟩
  rcases hSecond with ⟨hLines', rfl⟩
  refine ⟨rfl, rfl, ((hPerm.filter _).map _).map _, fun p => ?_⟩
  have hFound := find?_given hLines p
  have hFound' := find?_given hLines' p
  have hSame := hLast p
  unfold last? at hSame
  rw [hSame] at hFound
  exact alike_of_found hFound hFound'

/- A composition that was cancelled fails if there is a file. -/
theorem lineConditions_of_cancelled
    (hCancelled : w.cancelled = true) :
    (c.lineConditions (i :: is) w).1 = .error .interrupted := by
  rw [lineConditions, Job.bind_apply,
    Job.check_of_cancelled hCancelled]

/-
  Outcomes that say the same: both fail, or with what is known
  about sources and files they tell the same about each location.
-/
inductive Outcomes
    (sources : SourceMap)
    (whole : FileConditions) :
    Except Fault (List (Path × LineConditions) × List Path) →
    Except Fault (List (Path × LineConditions) × List Path) →
      Prop where
  | error (e e' : Fault) :
      Outcomes sources whole (.error e) (.error e')
  | ok {lines lines' : List (Path × LineConditions)}
      {excluded excluded' : List Path}
      (hTells :
        ∀ l,
          Presence.Tells
            ((Presence.make sources whole lines
              excluded).condition l)
            ((Presence.make sources whole lines'
              excluded').condition l)) :
      Outcomes sources whole (.ok (lines, excluded))
        (.ok (lines', excluded'))

theorem Answers.outcomes
    {files : FileTree}
    {out out' : Except Fault
      (List (Path × LineConditions) × List Path)}
    (hFirst : c.Answers files is out)
    (hSecond : c.Answers files js out')
    (hPerm : is.Perm js)
    (hLast : ∀ p, c.last? files is p = c.last? files js p)
    (sources : SourceMap)
    (whole : FileConditions) :
    Outcomes sources whole out out' := by
  rcases out with e | ⟨lines, excluded⟩
  · rcases hFirst.fails hSecond hPerm with ⟨e', rfl⟩
    exact .error e e'
  · rcases out' with e' | ⟨lines', excluded'⟩
    · rcases hSecond.fails hFirst hPerm.symm with ⟨e, hFails⟩
      cases hFails
    · have hAlike :=
        hFirst.alike hSecond hPerm hLast sources whole
      exact .ok hAlike.condition

/-
  The order of the files does not matter as long as the same ones
  are last, nor does it matter what came before.
-/
theorem outcomes_of_perm
    (hs : w.space.Reached)
    (ht : w'.space.Reached)
    (hFiles : w.files = w'.files)
    (hCancelled : w.cancelled = w'.cancelled)
    (hPerm : is.Perm js)
    (hLast : ∀ p, c.last? w'.files is p = c.last? w'.files js p)
    (sources : SourceMap)
    (whole : FileConditions) :
    Outcomes sources whole (c.lineConditions is w).1
      (c.lineConditions js w').1 := by
  cases hActive : w'.cancelled with
  | false =>
      have hFirst :=
        answers_lineConditions (c := c)
          ⟨hFiles, hs, hCancelled.trans hActive⟩ is
      have hSecond :=
        answers_lineConditions (c := c) ⟨rfl, ht, hActive⟩ js
      exact hFirst.outcomes hSecond hPerm hLast sources whole
  | true =>
      cases is with
      | nil =>
          cases hPerm.nil_eq
          exact .ok fun l => .refl _
      | cons i is =>
          cases js with
          | nil => cases hPerm.eq_nil
          | cons j js =>
              rw [lineConditions_of_cancelled
                  (hCancelled.trans hActive),
                lineConditions_of_cancelled hActive]
              exact .error _ _

end Composer

------------------------------------------------------------
-- Independence
------------------------------------------------------------

/-
  The answer for a file does not depend on the space it is
  extracted in. What several files tell about any location depends
  on neither that nor their order, as long as each path has the
  same last file.
-/
theorem Space.Reached.extract_independent
    {s t : Space}
    (hs : s.Reached)
    (ht : t.Reached) :
    (∀ (x : LineContext) (i : Inclusion),
        LineConditions.AnswersAlike
            (LineConditions.extract x i s).1.1
            (LineConditions.extract x i t).1.1 ∧
          (LineConditions.extract x i s).2.Reached) ∧
      ∀ (c : Composer) (w : Workspace) (is js : List Inclusion)
          (sources : SourceMap) (whole : FileConditions),
        is.Perm js →
          (∀ p, c.last? w.files is p = c.last? w.files js p) →
            Composer.Outcomes sources whole
              (c.lineConditions is { w with space := s }).1
              (c.lineConditions js { w with space := t }).1 := by
  constructor
  · intro x i
    exact
      ⟨LineConditions.extract_alike hs.sound ht.sound x i,
        LineConditions.reached_extract hs x i⟩
  · intro c w is js sources whole hPerm hLast
    have hs' : ({ w with space := s } : Workspace).space.Reached :=
      hs
    have ht' : ({ w with space := t } : Workspace).space.Reached :=
      ht
    exact
      Composer.outcomes_of_perm hs' ht' rfl rfl hPerm hLast sources
        whole

namespace Composer

/- A tree with one file whose middle line needs two macros. -/
def nestedTree : FileTree where
  entries :=
    [(["a.c"],
      .file
        "#ifdef B\n#ifdef A\nx\n#endif\n#endif\n".toUTF8.toList)]

def nestedContext : LineContext :=
  ⟨nestedTree, ⟨"/"⟩, .identity, .ofList ["A", "B"], 10⟩

/- Two files beside each other. -/
def nestedFiles : List Inclusion :=
  [{ file := ⟨"a.c"⟩ }, { file := ⟨"b.c"⟩ }]

/- Their generated files have names that begin differently. -/
theorem apart_nested :
    ∀ i ∈ nestedFiles,
      ∀ j ∈ nestedFiles,
        i.composedPath.normalize.same j.composedPath.normalize =
            true →
          i = j := by
  have hNormal :
      ∀ k ∈ nestedFiles,
        k.composedPath.normalize.components =
          [.name k.composedName] := by
    intro k hk
    have hFile :
        k.file.normalize = k.file ∧ k.directoryComponents = [] := by
      rcases List.mem_pair.mp hk with rfl | rfl <;> decide
    rw [Path.components_normalize_eq
        (k.isNormal_composedPath
          (Path.isNormal_of_normalize_eq hFile.1)),
      k.components_composedPath, hFile.2, List.nil_append]
  have hNames :
      ({ file := ⟨"a.c"⟩ } : Inclusion).composedName ≠
        ({ file := ⟨"b.c"⟩ } : Inclusion).composedName := by
    intro hSame
    have hStem (file : Path)
        (c : Char)
        (hStem :
          (Inclusion.splitName (file.fileName?.getD "").toList).1 =
            [c]) :
        ({ file } : Inclusion).composedName.toList.head? =
          some c := by
      simp [Inclusion.composedName, hStem]
    have hBoth := hStem ⟨"a.c"⟩ 'a' (by decide)
    rw [hSame, hStem ⟨"b.c"⟩ 'b' (by decide)] at hBoth
    revert hBoth
    decide
  intro i hi j hj hSame
  rw [Path.same_iff, hNormal i hi, hNormal j hj] at hSame
  have hName := Component.name.inj (List.singleton_inj.mp hSame)
  rcases List.mem_pair.mp hi with rfl | rfl <;>
    rcases List.mem_pair.mp hj with rfl | rfl
  · rfl
  · exact absurd hName hNames
  · exact absurd hName.symm hNames
  · rfl

/-
  In the second space there is a macro before the file asks, and
  two files are taken in the other order.
-/
theorem extract_independent_nested :
    Space.empty.Reached ∧ Space.oneMacro.Reached ∧
      LineConditions.AnswersAlike
        (LineConditions.extract nestedContext
          { file := ⟨"a.c"⟩ } .empty).1.1
        (LineConditions.extract nestedContext
          { file := ⟨"a.c"⟩ } .oneMacro).1.1 ∧
      ∀ (c : Composer) (w : Workspace) (sources : SourceMap)
          (whole : FileConditions),
        Outcomes sources whole
          (c.lineConditions
            [{ file := ⟨"a.c"⟩ }, { file := ⟨"b.c"⟩ }]
            { w with space := .empty }).1
          (c.lineConditions
            [{ file := ⟨"b.c"⟩ }, { file := ⟨"a.c"⟩ }]
            { w with space := .oneMacro }).1 := by
  have hIndependent :=
    Space.Reached.extract_independent .empty
      Space.reached_oneMacro
  refine
    ⟨.empty, Space.reached_oneMacro,
      (hIndependent.1 _ _).1, ?_⟩
  intro c w sources whole
  refine hIndependent.2 c w _ _ sources whole (.swap _ _ _) ?_
  exact last?_eq_of_perm apart_nested (.swap _ _ _)

end Composer

------------------------------------------------------------
-- Two Files under One Path
------------------------------------------------------------

namespace Preprocessor

variable {s : Settings}
variable {st : State}

/- The lines of a file that is guarded by a macro. -/
def guardName : Token :=
  ⟨.identifier, "x", 1, 1, false⟩

def guardLine : List Token :=
  [⟨.punctuation, "#", 1, 1, true⟩,
    ⟨.identifier, "ifndef", 1, 1, false⟩, guardName]

def guardedLines : List (List Token) :=
  [ guardLine,
    [⟨.identifier, "y", 2, 2, true⟩],
    [⟨.punctuation, "#", 3, 3, true⟩,
      ⟨.identifier, "endif", 3, 3, false⟩] ]

/- They are reached where the group that the guard opens is read. -/
theorem run_guardedLines
    {path : Path}
    {text : String}
    {frame : Frame}
    (hText : s.tree.readLossy path = .ok text)
    (hLines :
      Token.logicalLines (Token.tokenize text) = guardedLines)
    (hOpen :
      openGroup s true .one "ifndef" [guardName] st =
        (frame, st)) :
    run s path st =
      (.ok [.one, frame.active, frame.active], st) := by
  have hGuard :
      Directive.ofLine guardLine =
        some (.opening "ifndef" [guardName]) :=
    rfl
  have hFirst :
      followLine ⟨s, path, .one, follow s s.maxDepth path⟩ true []
          guardLine st =
        ([frame], st) := by
    unfold followLine
    rw [hGuard]
    simp only [directive, current]
    simp only [bind, StateT.bind, hOpen]
    rfl
  have hReads :
      readLines ⟨s, path, .one, follow s s.maxDepth path⟩ true []
          guardedLines st =
        ([(1, .one), (2, frame.active), (3, frame.active)],
          st) := by
    unfold guardedLines
    rw [readLines_cons]
    simp only [bind, StateT.bind, hFirst]
    rfl
  unfold run
  rw [hText]
  dsimp only
  rw [process_eq, hLines]
  simp only [bind, StateT.bind, hReads]
  rfl

end Preprocessor

open Preprocessor in
/- A file is run behind what the compiler and the flags define. -/
theorem LineContext.preprocess_apply
    {x : LineContext}
    {i : Inclusion}
    {before between after : State}
    (hBuiltins :
      injectBuiltins (x.settings i) before = ((), between))
    (hFlags :
      inject (x.settings i)
          ((x.absolute i.file).withFileName "<command-line>")
          (x.commandLine i) between =
        ((), after)) :
    x.preprocess i before =
      run (x.settings i) (x.absolute i.file) after := by
  unfold preprocess
  simp only [bind, StateT.bind, hBuiltins, hFlags]

/- A line is told both conditions, if each is known. -/
theorem Presence.condition_eq_and
    {p : Presence}
    {l plain source : Location}
    {conditions : LineConditions}
    {whole f : Formula}
    (hSource : p.sources.locate l = some source)
    (hWhole : p.files.find? source.file = some whole)
    (hNone : p.wholeOnly = [])
    (hLines : Dict.find? l.file p.lines = some conditions)
    (hPlain : p.sources.unmarked l = some plain)
    (hLine : conditions.find? plain.line = some f) :
    p.condition l = (some (.and whole f), []) := by
  have hHere : p.lineCondition conditions l = some f := by
    rw [lineCondition, hPlain]
    exact hLine
  unfold condition conditionWithin
  rw [hSource]
  dsimp only
  rw [hWhole]
  dsimp only
  rw [hNone, hLines]
  dsimp only
  rw [hHere]
  rfl

namespace LineConditions

/- The lines of the file, of which the first is always reached. -/
def guarded (f : Formula) : LineConditions :=
  [(1, .truth), (2, f), (3, f)]

theorem extract_guarded
    {x : LineContext}
    {i : Inclusion}
    {s : Space}
    {st : Preprocessor.State}
    {c : Condition}
    {f : Formula}
    (hRun :
      x.preprocess i (.start s) = (.ok [.one, c, c], st))
    (hFormula : st.space.toFormula x.rename c = some f)
    (hKept : ∀ text, (x.model.sanitize text f).1 = f) :
    (extract x i s).1.1 = .ok (guarded f) := by
  have hOne : st.space.toFormula x.rename .one = some .truth :=
    rfl
  have hTruth (text : String) :
      (x.model.sanitize text .truth).1 = .truth :=
    rfl
  unfold extract
  rw [hRun]
  simp [withFormulas_eq, hOne, hFormula, ofFormulas, hKept,
    hTruth, guarded]

end LineConditions

namespace Composer

open Preprocessor

/- A guarded file, and a composer that has generated it. -/
def guardedText : String :=
  "#ifndef x\ny\n#endif\n"

def guardedTree : FileTree where
  entries :=
    [(["source"], .directory),
      (["source", "a.c"], .file guardedText.toUTF8.toList)]

def guarded : Composer :=
  { ofConfig { tmpDir := ⟨"/"⟩ } (.ofList []) with
    generation :=
      [(Inclusion.climbing.composedPath, ⟨⟨"a.c"⟩, 1⟩)] }

def guardedContext : LineContext :=
  guarded.context guardedTree

/- The two ways to compile it, which are generated under one path. -/
def guardedWays : List Inclusion :=
  [.climbing, .emptyDefining]

theorem logicalLines_guardedText :
    Token.logicalLines (Token.tokenize guardedText) =
      guardedLines := by
  cbv

theorem status_guardedTree :
    guardedTree.status ⟨"/source/a.c"⟩ =
      .ok (.file guardedText.toUTF8.toList) := by
  have hPair :
      FileTree.IsPair ⟨"/source/a.c"⟩ "source" "a.c" := by
    constructor <;> decide
  exact hPair.status_file rfl rfl

theorem readLossy_guardedTree :
    guardedTree.readLossy ⟨"/source/a.c"⟩ = .ok guardedText := by
  have hText :
      Utf8.decodeLossy guardedText.toUTF8.toList =
        guardedText := by
    cbv
  rw [FileTree.readLossy, FileTree.read, status_guardedTree]
  exact congrArg Except.ok hText

/- The forced includes of the first way are no files. -/
theorem find?_guardedContext
    {name : String}
    (hName : name = "/source/" ∨ name = "/source/x")
    (path : Path) :
    find? (guardedContext.settings .climbing) path ⟨name, true⟩ =
      none := by
  have hTree :
      (guardedContext.settings .climbing).tree = guardedTree :=
    rfl
  have hNoFile : guardedTree.isFile ⟨name⟩ = false := by
    rcases hName with rfl | rfl
    · have hSteps :
          FileTree.stepsOf "/source/" = ["source", "."] := by
        decide
      have hSource :
          guardedTree.entry? ["source"] = some .directory :=
        rfl
      simp [FileTree.isFile, FileTree.status, FileTree.resolve,
        FileTree.walk, hSteps, hSource, Path.isAbsolute]
    · have hPair :
          FileTree.IsPair ⟨"/source/x"⟩ "source" "x" := by
        constructor <;> decide
      rw [FileTree.isFile, FileTree.status, hPair.resolve_eq rfl,
        FileTree.walk_vacant (by decide) (by decide) rfl]
  have hAbsolute : (⟨name⟩ : Path).isAbsolute = true := by
    rcases hName with rfl | rfl <;> decide
  unfold find?
  rw [hTree]
  dsimp only
  rw [if_pos hAbsolute, hNoFile, if_neg Bool.false_ne_true]

theorem inject_climbing (path : Path) :
    inject (guardedContext.settings .climbing) path
        (guardedContext.commandLine .climbing) =
      pure () := by
  have hText :
      guardedContext.commandLine .climbing =
        "#include \"/source/\"\n#include \"/source/x\"\n" := by
    decide
  have hLines :
      Token.logicalLines
          (Token.tokenize
            "#include \"/source/\"\n#include \"/source/x\"\n") =
        [ [⟨.punctuation, "#", 1, 1, true⟩,
            ⟨.identifier, "include", 1, 1, false⟩,
            ⟨.string, "\"/source/\"", 1, 1, false⟩],
          [⟨.punctuation, "#", 2, 2, true⟩,
            ⟨.identifier, "include", 2, 2, false⟩,
            ⟨.string, "\"/source/x\"", 2, 2, false⟩] ] := by
    cbv
  have hDepth :
      (guardedContext.settings .climbing).maxDepth ≠ 0 := by
    decide
  have hFirst :=
    follow_of_find?_eq_none
      [⟨.string, "\"/source/\"", 1, 1, false⟩]
      (by decide) hDepth (find?_guardedContext (Or.inl rfl) path)
      .one
  have hSecond :=
    follow_of_find?_eq_none
      [⟨.string, "\"/source/x\"", 2, 2, false⟩]
      (by decide) hDepth (find?_guardedContext (Or.inr rfl) path)
      .one
  unfold inject
  rw [process_eq, hText, hLines, readLines_cons,
    followLine_inclusion rfl]
  dsimp only
  rw [if_pos (by decide), hFirst, pure_bind, pure_bind,
    readLines_cons, followLine_inclusion rfl]
  dsimp only
  rw [if_pos (by decide), hSecond]
  rfl

/- So the test of the file guards it. -/
theorem extract_climbing (s : Space) :
    (LineConditions.extract guardedContext .climbing s).1.1 =
      .ok (.guarded .truth) := by
  have hOther : ∀ e ∈ builtinDefines, e.1 ≠ "x" := by
    decide
  have hNone :=
    contains_injectBuiltins hOther
      (guardedContext.settings .climbing) s
  rcases hBuiltins :
    injectBuiltins (guardedContext.settings .climbing)
      (.start s) with ⟨⟨⟩, st⟩
  rw [hBuiltins] at hNone
  have hInject :=
    congrFun
      (inject_climbing
        ((guardedContext.absolute
          Inclusion.climbing.file).withFileName
            "<command-line>"))
      st
  have hFree :
      (guardedContext.settings .climbing).isFree "x" = false := by
    decide
  have hGuard :
      isGuard (guardedContext.settings .climbing) st.definitions
          "x" =
        true := by
    unfold isGuard
    rw [hFree, hNone]
    rfl
  have hRun :=
    run_guardedLines readLossy_guardedTree
      logicalLines_guardedText (openGroup_guard hGuard)
  rw [show (⟨"/source/a.c"⟩ : Path) =
      guardedContext.absolute Inclusion.climbing.file by decide,
    ← LineContext.preprocess_apply hBuiltins hInject] at hRun
  exact LineConditions.extract_guarded hRun rfl fun _ => rfl

/- The second way defines the macro. -/
theorem inject_emptyDefining
    {st : Preprocessor.State}
    (hNone : st.definitions.contains "x" = false)
    (path : Path) :
    ∃ m,
      inject (guardedContext.settings .emptyDefining) path
          (guardedContext.commandLine .emptyDefining) st =
        ((), { st with
          definitions :=
            Dict.insert "x" [⟨.one, some m⟩]
              st.definitions }) := by
  have hText :
      guardedContext.commandLine .emptyDefining =
        "#define x \n" := by
    decide
  have hLines :
      Token.logicalLines (Token.tokenize "#define x \n") =
        [ [⟨.punctuation, "#", 1, 1, true⟩,
            ⟨.identifier, "define", 1, 1, false⟩, guardName] ] := by
    cbv
  have hParse : ∃ m, Macro.parse [guardName] = some ("x", m) :=
    ⟨_, rfl⟩
  rcases hParse with ⟨m, hParse⟩
  have hDefine :=
    define_of_not_contains
      (s := guardedContext.settings .emptyDefining)
      (t := guardName) hParse (by decide) hNone
  refine ⟨m, ?_⟩
  unfold inject
  rw [process_eq, hText, hLines, readLines_cons,
    followLine_define rfl]
  dsimp only
  rw [if_pos (by decide)]
  simp only [bind, StateT.bind, hDefine]
  rfl

theorem extract_emptyDefining (s : Space) :
    (LineConditions.extract guardedContext .emptyDefining s).1.1 =
      .ok (.guarded .falsity) := by
  have hOther : ∀ e ∈ builtinDefines, e.1 ≠ "x" := by
    decide
  have hNone :=
    contains_injectBuiltins hOther
      (guardedContext.settings .emptyDefining) s
  rcases hBuiltins :
    injectBuiltins (guardedContext.settings .emptyDefining)
      (.start s) with ⟨⟨⟩, st⟩
  rw [hBuiltins] at hNone
  rcases inject_emptyDefining hNone
    ((guardedContext.absolute
      Inclusion.emptyDefining.file).withFileName
        "<command-line>") with ⟨m, hInject⟩
  have hThere :
      Definitions.contains
          (Dict.insert "x" [⟨.one, some m⟩] st.definitions)
          "x" =
        true := by
    simp [Definitions.contains, Dict.find?_insert]
  let defined : Preprocessor.State :=
    { st with
      definitions :=
        Dict.insert "x" [⟨.one, some m⟩] st.definitions }
  have hDefined :=
    whetherDefined_insert "x" m st.definitions st.space
  have hOpen :
      openGroup (guardedContext.settings .emptyDefining) true .one
          "ifndef" [guardName] defined =
        (⟨.one, .zero, .zero⟩, defined) :=
    openGroup_defined rfl hThere hDefined
  have hRun :=
    run_guardedLines readLossy_guardedTree
      logicalLines_guardedText hOpen
  rw [show (⟨"/source/a.c"⟩ : Path) =
      guardedContext.absolute Inclusion.emptyDefining.file by
        decide,
    ← LineContext.preprocess_apply hBuiltins hInject] at hRun
  exact LineConditions.extract_guarded hRun rfl fun _ => rfl

/- What each of the two is given for the lines behind the first. -/
def guardedFormula (i : Inclusion) : Formula :=
  if i = .climbing then .truth else .falsity

theorem alone_guarded
    (hMem : i ∈ guardedWays) :
    guarded.alone guardedTree i =
      .ok (.guarded (guardedFormula i)) := by
  rw [alone_eq, ← guardedContext]
  simp only [guardedWays, List.mem_cons, List.not_mem_nil,
    or_false] at hMem
  rcases hMem with rfl | rfl
  · rw [extract_climbing, guardedFormula, if_pos rfl]
  · rw [extract_emptyDefining, guardedFormula, if_neg (by decide)]

theorem composedPath_guarded
    (hMem : i ∈ guardedWays) :
    i.composedPath = Inclusion.climbing.composedPath := by
  simp only [guardedWays, List.mem_cons, List.not_mem_nil,
    or_false] at hMem
  rcases hMem with rfl | rfl
  · rfl
  · exact Inclusion.composedPath_emptyDefining

theorem isGenerated_guarded
    (hMem : i ∈ guardedWays) :
    guarded.isGenerated guardedTree i = true := by
  have hExists : guardedTree.exists? ⟨"/source/a.c"⟩ = true := by
    rw [FileTree.exists?, status_guardedTree]
    rfl
  have hFound :
      Dict.find? i.composedPath guarded.generation =
        some ⟨⟨"a.c"⟩, 1⟩ := by
    rw [composedPath_guarded hMem]
    exact Path.find?_singleton _ _
  have hFile : i.file = ⟨"a.c"⟩ := by
    simp only [guardedWays, List.mem_cons, List.not_mem_nil,
      or_false] at hMem
    rcases hMem with rfl | rfl <;> rfl
  have hJoin :
      guarded.sourceDir.join ⟨"a.c"⟩ = ⟨"/source/a.c"⟩ := by
    decide
  unfold isGenerated
  rw [hFound, hFile, hJoin, hExists]
  rfl

/- What is recorded for them, in the order in which they are taken. -/
def guardedEntries (is : List Inclusion) :
    List (Path × LineConditions) :=
  is.map fun i =>
    (Inclusion.climbing.composedPath, .guarded (guardedFormula i))

theorem answers_guarded
    (hEach : is ⊆ guardedWays) :
    guarded.Answers guardedTree is
      (.ok (guardedEntries is, [])) := by
  have hWanted : is.filter (guarded.isWanted guardedTree) = is := by
    apply List.filter_eq_self.mpr
    intro i hi
    unfold isWanted
    rw [isGenerated_guarded (hEach hi)]
    rfl
  have hSkipped :
      is.filter (guarded.isSkipped guardedTree) = [] := by
    apply List.filter_eq_nil_iff.mpr
    intro i hi
    unfold isSkipped
    rw [isGenerated_guarded (hEach hi)]
    exact Bool.false_ne_true
  refine ⟨?_, by rw [hSkipped]; rfl⟩
  rw [hWanted]
  apply List.forall₂_map_left_iff.mpr
  apply List.forall₂_same.mpr
  intro i hi
  exact
    ⟨(composedPath_guarded (hEach hi)).symm, _,
      alone_guarded (hEach hi),
      List.forall₂_same.mpr fun _ _ => ⟨rfl, fun _ => rfl⟩⟩

/- What is known then, and the line behind the guard. -/
def guardedSources : SourceMap :=
  .make guardedTree guarded.generation guarded.sourceDir

def guardedWhole : FileConditions :=
  [(⟨"a.c"⟩, .truth)]

def guardedPlace : Location :=
  ⟨Inclusion.climbing.composedPath, 3⟩

theorem unmarked_guardedPlace :
    guardedSources.unmarked guardedPlace =
      some ⟨⟨"a.c"⟩, 2⟩ := by
  have hFile :
      Inclusion.emptyDefining.file.normalize =
        Inclusion.emptyDefining.file := by
    decide
  have hFound :
      Dict.find? Inclusion.emptyDefining.composedPath
          guardedSources.generation =
        some ⟨Inclusion.emptyDefining.file,
          Inclusion.emptyDefining.addedLines⟩ := by
    rw [Inclusion.composedPath_emptyDefining]
    exact Path.find?_singleton _ _
  rw [guardedPlace, ← Inclusion.composedPath_emptyDefining,
    SourceMap.records_of_find?_eq hFile hFound 3]
  rfl

theorem locate_guardedPlace :
    guardedSources.locate guardedPlace =
      some ⟨⟨"a.c"⟩, 2⟩ := by
  have hJoin :
      guarded.sourceDir.join ⟨"a.c"⟩ = ⟨"/source/a.c"⟩ := by
    decide
  have hMarkers :
      guardedSources.markers =
        [(⟨"a.c"⟩, .ofText ⟨"a.c"⟩ guardedText)] := by
    have hRead :
        guardedSources.markers =
          SourceMap.readMarkers guardedTree guarded.sourceDir
            [⟨⟨"a.c"⟩, 1⟩] [] :=
      rfl
    rw [hRead, SourceMap.readMarkers, hJoin,
      readLossy_guardedTree]
    rfl
  have hLine :
      (LineMap.ofText ⟨"a.c"⟩ guardedText).locate 2 =
        some ⟨⟨"a.c"⟩, 2⟩ := by
    decide +kernel
  unfold SourceMap.locate
  rw [unmarked_guardedPlace, hMarkers]
  dsimp only [bind, Option.bind]
  rw [Path.find?_singleton]
  dsimp only
  rw [hLine]
  rfl

/- The line is told what the file that is extracted last is given. -/
theorem condition_guardedPlace
    (before : List (Path × LineConditions))
    (i : Inclusion) :
    (Presence.make guardedSources guardedWhole
          (before ++
            [(Inclusion.climbing.composedPath,
              .guarded (guardedFormula i))])
          []).condition guardedPlace =
      (some (.and .truth (guardedFormula i)), []) := by
  have hFile : Inclusion.climbing.file.normalize =
      Inclusion.climbing.file := by
    decide
  have hKey :
      compare Inclusion.climbing.composedPath
          Inclusion.climbing.composedPath.normalize =
        .eq := by
    rw [Path.compare_eq_iff,
      Path.components_normalize_eq
        (Inclusion.climbing.isNormal_composedPath
          (Path.isNormal_of_normalize_eq hFile))]
  have hFound :
      Dict.find? guardedPlace.file
          (Presence.make guardedSources guardedWhole
            (before ++
              [(Inclusion.climbing.composedPath,
                .guarded (guardedFormula i))])
            []).lines =
        some (.guarded (guardedFormula i)) := by
    unfold Presence.make
    dsimp only
    rw [Dict.find?_ofList_of_trans, List.map_append,
      List.reverse_append, List.map_singleton,
      List.reverse_singleton, List.singleton_append,
      guardedPlace, List.find?_cons_of_pos (by simp [hKey])]
    rfl
  have hWhole :
      FileConditions.find? guardedWhole ⟨"a.c"⟩ =
        some .truth := by
    decide
  exact
    Presence.condition_eq_and locate_guardedPlace hWhole rfl
      hFound unmarked_guardedPlace rfl

/- An extraction after which the line is told a formula. -/
def TellsAt (is : List Inclusion) (f : Formula) : Prop :=
  ∃ lines excluded,
    (guarded.lineConditions is { files := guardedTree }).1 =
        .ok (lines, excluded) ∧
      Presence.Tells
        ((Presence.make guardedSources guardedWhole lines
          excluded).condition guardedPlace)
        (some (.and .truth f), [])

theorem tellsAt_guarded
    (before : List Inclusion)
    (i : Inclusion)
    (hEach : before ++ [i] ⊆ guardedWays) :
    TellsAt (before ++ [i]) (guardedFormula i) := by
  have hReady :
      IsReady guardedTree { files := guardedTree } :=
    ⟨rfl, .empty, rfl⟩
  have hAnswers :=
    answers_lineConditions (c := guarded) hReady (before ++ [i])
  have hGuarded := answers_guarded hEach
  rcases hRun :
    (guarded.lineConditions (before ++ [i])
      { files := guardedTree }).1 with e | ⟨lines, excluded⟩
  · rw [hRun] at hAnswers
    rcases hAnswers.fails hGuarded (.refl _) with ⟨e', hFails⟩
    cases hFails
  · rw [hRun] at hAnswers
    have hAlike :=
      hAnswers.alike hGuarded (.refl _) (fun _ => rfl)
        guardedSources guardedWhole
    have hTells := hAlike.condition guardedPlace
    rw [guardedEntries, List.map_append, List.map_singleton,
      condition_guardedPlace] at hTells
    exact ⟨lines, excluded, hRun, hTells⟩

/-
  So the order of two files with one path shows: what is told
  about the line has another value then.
-/
theorem not_outcomes_guarded :
    Inclusion.climbing.same .emptyDefining = false ∧
      List.Perm [Inclusion.climbing, .emptyDefining]
        [.emptyDefining, .climbing] ∧
      TellsAt [.climbing, .emptyDefining] .falsity ∧
      TellsAt [.emptyDefining, .climbing] .truth ∧
      ¬ Outcomes guardedSources guardedWhole
          (guarded.lineConditions [.climbing, .emptyDefining]
            { files := guardedTree }).1
          (guarded.lineConditions [.emptyDefining, .climbing]
            { files := guardedTree }).1 := by
  have hFirst :
      TellsAt [.climbing, .emptyDefining] .falsity :=
    tellsAt_guarded [.climbing] .emptyDefining
      (List.Subset.refl _)
  have hSecond :
      TellsAt [.emptyDefining, .climbing] .truth :=
    tellsAt_guarded [.emptyDefining] .climbing
      (List.Perm.swap _ _ []).subset
  refine
    ⟨by decide, .swap _ _ _, hFirst, hSecond, fun hSame => ?_⟩
  rcases hFirst with ⟨lines, excluded, hRun, hFalse, -⟩
  rcases hSecond with ⟨lines', excluded', hRun', hTrue, -⟩
  rw [hRun, hRun'] at hSame
  cases hSame with
  | ok hTells =>
      have hBoth := (hTells guardedPlace).1
      generalize
        (Presence.condition _ guardedPlace).1 = f at hFalse hBoth
      generalize
        (Presence.condition _ guardedPlace).1 = g at hTrue hBoth
      cases hFalse with
      | some hFalse =>
          cases hTrue with
          | some hTrue =>
              cases hBoth with
              | some hBoth =>
                  have hEval :=
                    ((hFalse fun _ => true).symm.trans
                      (hBoth fun _ => true)).trans
                        (hTrue fun _ => true)
                  exact absurd hEval (by decide)

end Composer

end Variability
