import Variability.Proofs.Composer.Site
import Variability.Proofs.FileTree.Writing

/-
  What a composer answers after any history of requests.

  A request that fails is the last one that is not refused. As
  long as none fails, a configuration is composed as a composer
  would compose it that has never been asked for anything. Both
  visit their dependencies in orders of their own. The orders do
  not show as long as the generated files are kept apart. Nor does
  it show in what is told about sources whether something was
  composed to the same destination before.

  Main declarations:
    * `Composer.History`
    * `Composer.History.sane`
    * `Composer.run_independent_of_history`
    * `Composer.run_independent_of_history_switched`
    * `Composer.not_composed_alike_colliding`
-/

namespace Variability

namespace Composer

variable {α β : Type}
variable {c c' d : Composer}
variable {w w' v : Workspace}
variable {facts : Except FileError String}

------------------------------------------------------------
-- Histories
------------------------------------------------------------

/- A composer that was not asked for anything yet. -/
structure IsNew (c : Composer) : Prop where
  stage_eq : c.stage = .initialized
  fileConditions_eq : c.fileConditions = none
  dependencies_eq : c.dependencies = []
  generation_eq : c.generation = []

/-
  Where a request gets to read the conditions of files, the file
  states what it always did.
-/
def Request.Finds
    (facts : Except FileError String)
    (c : Composer)
    (w : Workspace) :
    Request → Prop
  | .finish _ _ => c.stage = .generated → Composer.Finds facts c w
  | .compose features destination =>
      ∀ c' w',
        approach features destination c w = ((.ok (), c'), w') →
          Composer.Finds facts c' w'
  | _ => True

/-
  A composer after some requests. Between them the files, the
  programs, what external steps do and the order in which sets are
  visited may change in any way, and others may use the space.
-/
inductive History (facts : Except FileError String) :
    Composer → Workspace → Prop where
  | new {c : Composer} {w : Workspace}
      (hNew : c.IsNew)
      (hSteps : c.Matches c)
      (hReached : w.space.Reached) :
      History facts c w
  | change {c : Composer} {w w' : Workspace}
      (hBefore : History facts c w)
      {strategy : Strategy}
      {scanner : Scanner}
      {arrangement : Arrangement}
      (hOptions :
        strategy.optionStart = c.strategy.optionStart)
      (hSteps : strategy.Agree strategy)
      (hScans : scanner.Agree scanner)
      (hReached : w'.space.Reached) :
      History facts { c with strategy, scanner, arrangement } w'
  | request {c : Composer} {w : Workspace}
      (hBefore : History facts c w)
      (r : Request)
      (hFinds : r.Finds facts c w) :
      History facts (r.run c w).1.2 (r.run c w).2

/- What all histories have in common. -/
structure Sane
    (facts : Except FileError String)
    (c : Composer)
    (w : Workspace) : Prop where
  settings : c.Matches c
  remembers : Remembers facts c
  reached : w.space.Reached

namespace Sane

/- Quiet computations do not touch what is remembered. -/
theorem quiet
    {f : Composing α}
    (hSane : Sane facts c w)
    (hQuiet : Quiet f) :
    Sane facts (f c w).1.2 (f c w).2 := by
  rcases hQuiet c w hSane.settings hSane.reached with
    ⟨hParts, hReached⟩
  refine
    ⟨hParts.carry hParts hSane.settings, ?_, hReached⟩
  intro files hKnown
  rw [hParts.fileConditions_eq] at hKnown
  exact
    (SameParts.carry (.refl c) hParts hSane.settings).states
      (hSane.remembers files hKnown)

/- Only the last step remembers, and that is what the file states. -/
theorem finish
    (hSane : Sane facts c w)
    (features : Features)
    (destination : Path)
    (hFinds : c.stage = .generated → Composer.Finds facts c w) :
    Sane facts (finish features destination c w).1.2
      (finish features destination c w).2 := by
  by_cases hStage : c.stage = .generated
  · have hStays := stays_findPresence c (c.sourcesIn w) w
    rw [Composer.finish, step_apply _ hStage, Job.get_bind_apply,
      Job.bind_apply, ← sourcesIn]
    generalize hFound :
      c.findPresence (c.sourcesIn w) w = found at hStays ⊢
    have hReached := hStays.reached hSane.reached
    rcases hSane.settings with ⟨_, _, hSteps, hScans⟩
    rcases found with ⟨e | ⟨presence, read⟩, w'⟩
    · exact
        ⟨⟨rfl, rfl, hSteps, hScans⟩, hSane.remembers, hReached⟩
    · refine ⟨⟨rfl, rfl, hSteps, hScans⟩, ?_, hReached⟩
      rintro files rfl
      exact
        (discovers_of_findPresence hFound).states
          hSane.remembers (hFinds hStage)
  · rw [Composer.finish,
      (leads_step _ _ _).refuses c w (by simpa using hStage)]
    exact hSane

/- An answer that is put together afterwards changes nothing. -/
theorem map
    {f : Composing α}
    (hSane : Sane facts (f c w).1.2 (f c w).2)
    (h : α → β) :
    Sane facts ((f >>= fun a => pure (h a)) c w).1.2
      ((f >>= fun a => pure (h a)) c w).2 := by
  rw [bind_apply]
  generalize f c w = done at hSane ⊢
  rcases done with ⟨⟨_ | _, _⟩, _⟩ <;> exact hSane

/- Requests keep what all histories have in common. -/
theorem run
    (hSane : Sane facts c w)
    (r : Request)
    (hFinds : r.Finds facts c w) :
    Sane facts (r.run c w).1.2 (r.run c w).2 := by
  cases r with
  | copySource => exact map (hSane.quiet quiet_copySource) _
  | writeConfig features =>
      exact map (hSane.quiet (quiet_writeConfig features)) _
  | prepare => exact map (hSane.quiet quiet_prepare) _
  | resolve => exact map (hSane.quiet quiet_resolve) _
  | generate destination =>
      exact map (hSane.quiet (quiet_generate destination)) _
  | finish features destination =>
      exact map (hSane.finish features destination hFinds) _
  | compose features destination =>
      have hApproach :=
        hSane.quiet (quiet_approach features destination)
      refine map ?_ some
      rw [compose_eq, bind_apply]
      rcases hRun : approach features destination c w with
        ⟨⟨e | _, c'⟩, w'⟩
      · rw [hRun] at hApproach
        exact hApproach
      · rw [hRun] at hApproach
        exact
          hApproach.finish features destination fun _ =>
            hFinds c' w' hRun

end Sane

theorem History.sane
    (hHistory : History facts c w) :
    Sane facts c w := by
  induction hHistory with
  | new hNew hSteps hReached =>
      refine ⟨hSteps, ?_, hReached⟩
      intro files hKnown
      rw [hNew.fileConditions_eq] at hKnown
      cases hKnown
  | change _ hOptions hSteps hScans hReached ih =>
      refine ⟨⟨rfl, rfl, hSteps, hScans⟩, ?_, hReached⟩
      intro files hKnown
      rcases ih.remembers files hKnown with
        ⟨p, text, log, hPath, hFacts, hRead⟩
      exact ⟨p, text, log, hPath, hFacts, hOptions ▸ hRead⟩
  | request _ r hFinds ih => exact ih.run r hFinds

------------------------------------------------------------
-- Independence
------------------------------------------------------------

/-
  After any history a configuration is composed as by a composer
  that is new, in a workspace with the same files.
-/
theorem History.beside
    {features : Features}
    {destination : Path}
    {answer : Composition}
    (hHistory : History facts c w)
    (hNew : d.IsNew)
    (hMatches : c.Matches d)
    (hAlike : w.Alike v)
    (hCopy : w.files.exists? c.sourceDir = true)
    (hFinds :
      (Request.compose features destination).Finds facts c w)
    (hRun :
      compose features destination c w = ((.ok answer, c'), w')) :
    ∃ d₁ between,
      survey features d v = ((.ok (), d₁), between) ∧
        c'.dependencies.Perm d₁.dependencies ∧
        Generation.Leaves c'.dependencies destination c'.generation
          between.files w'.files ∧
        (c.arrangement = d.arrangement ∨
            Generation.Apart w'.files c.sourceDir destination
              c'.dependencies →
          ∃ answer' d' v',
            compose features destination d v =
              ((.ok answer', d'), v') ∧
            answer.Alike answer' ∧
            c'.dependencies.Perm d'.dependencies ∧
            c'.generation = d'.generation ∧ w'.Alike v') := by
  have hReady := ready_of_compose hRun
  have hReady' : d.stage ∈ ready := by
    simp [ready, hNew.stage_eq]
  rw [compose_eq] at hRun
  rcases bind_eq_ok hRun with ⟨_, c₁, w₁, hApproach, hFinish⟩
  rcases approach_eq_ok hReady hCopy hApproach with
    ⟨found, mid, generation, hFinding, -, hGenerate, rfl⟩
  rcases survey_beside hMatches hReady' hCopy hAlike hFinding with
    ⟨between, hSurvey, hAlike₁⟩
  have hTidy := isTidy_surveyed hFinding
  have hLeaves := leaves_generating hTidy hGenerate
  have hPerm := perm_surveyed c d found
  rcases finish_keeps hFinish with ⟨hFound, hMade, hFiles⟩
  rw [hAlike₁.files_eq, ← hFiles] at hLeaves
  rw [hFound, hMade]
  refine ⟨_, between, hSurvey, hPerm, hLeaves, fun hOrder => ?_⟩
  -- From here on the order is the same, or it does not show.
  have hSame :
      (c.surveyed found).dependencies =
          (d.surveyed found).dependencies ∨
        Generation.Apart w₁.files (c.surveyed found).sourceDir
          destination (c.surveyed found).dependencies := by
    refine hOrder.imp (fun hArranged => ?_) fun hApart => ?_
    · rw [surveyed, surveyed, hArranged]
    · rw [← hFiles, (SameParts.surveyed c found).sourceDir_eq]
      exact hApart
  have hSurveyed : (c.surveyed found).Matches (d.surveyed found) :=
    SameParts.carry (.surveyed c found) (.surveyed d found)
      hMatches
  rcases generating_beside hSurveyed hPerm hTidy hSame hAlike₁
    hGenerate with ⟨v₁, hGenerate', hAlike₂⟩
  have hApproach' := approach_of_generating hSurvey hGenerate'
  have hLater :=
    hHistory.sane.quiet (quiet_approach features destination)
  rw [hApproach] at hLater
  have hParts := SameParts.produced d found generation
  have hProduced :
      (c.produced found generation).Matches
        (d.produced found generation) :=
    SameParts.carry (.produced c found generation) hParts hMatches
  have hShares :
      (c.produced found generation).Shares
        (d.produced found generation) :=
    ⟨hPerm, hTidy, hSame.imp_right Generation.Apart.targets⟩
  rcases finish_beside hProduced rfl hShares rfl hLater.remembers
    (hParts.fileConditions_eq.trans hNew.fileConditions_eq)
    (hFinds _ w₁ hApproach) hAlike₂ hFinish with
    ⟨answer', d', v', hFinish', hAnswer, hFound', hMade', hAfter⟩
  refine
    ⟨answer', d', v', ?_, hAnswer, hFound' ▸ hPerm, hMade'.symm,
      hAfter⟩
  rw [compose_eq, bind_of_ok hApproach']
  exact hFinish'

/-
  Requests at a wrong stage are refused and change nothing. The
  first one that fails otherwise leads to the stage at which all
  are refused. The dependencies of a composition and what it
  leaves behind are told by its own steps. What it says does not
  depend on the requests before it, nor on the order in which
  dependencies are visited if that does not show. What it says
  about sources does not even depend on what else is there, for
  example at a destination where others were composed before.
-/
theorem run_independent_of_history
    (c : Composer)
    (w : Workspace) :
    (∀ r : Request,
      (c.stage ∉ r.stages →
        r.run c w =
          ((.error (.stage c.stage r.expected), c), w)) ∧
      ∀ e c' w', c.stage ∈ r.stages →
        r.run c w = ((.error e, c'), w') →
        c'.stage = .failed ∧
          ∀ (rs : List (Request × Workspace)) (r' : Request)
              (v : Workspace),
            r'.run (c'.after rs) v =
              ((.error (.stage .failed r'.expected), c'), v)) ∧
    (∀ (facts : Except FileError String) (d : Composer)
        (v : Workspace) (features : Features)
        (destination : Path) (answer : Composition)
        (c' : Composer) (w' : Workspace),
      History facts c w → d.IsNew → c.Matches d → w.Alike v →
      w.files.exists? c.sourceDir = true →
      (Request.compose features destination).Finds facts c w →
      compose features destination c w = ((.ok answer, c'), w') →
      ∃ d₁ between,
        survey features d v = ((.ok (), d₁), between) ∧
        c'.dependencies.Perm d₁.dependencies ∧
        Generation.Leaves c'.dependencies destination c'.generation
          between.files w'.files ∧
        (c.arrangement = d.arrangement ∨
            Generation.Apart w'.files c.sourceDir destination
              c'.dependencies →
          ∃ answer' d' v',
            compose features destination d v =
              ((.ok answer', d'), v') ∧
            answer.output = answer'.output ∧
            answer.features = answer'.features ∧
            answer.sources = answer'.sources ∧
            answer.searchPaths = answer'.searchPaths ∧
            c'.dependencies.Perm d'.dependencies ∧
            c'.generation = d'.generation ∧
            w'.files = v'.files ∧
            ∀ l, Presence.Tells (answer.condition l)
              (answer'.condition l))) ∧
    ∀ (d : Composer) (v : Workspace) (features : Features)
        (destination : Path) (answer answer' : Composition)
        (c' d' : Composer) (w' v' : Workspace),
      KeepsOriginals features destination c w answer c' w' →
      KeepsOriginals features destination d v answer' d' v' →
      c.sourceDir = d.sourceDir →
      c'.dependencies.Perm d'.dependencies →
      c'.dependencies = d'.dependencies ∨
          Generation.Apart w'.files c.sourceDir destination
            c'.dependencies →
      Generation.SameOriginals c.sourceDir c'.dependencies w'.files
        v'.files →
      answer.output = answer'.output ∧
        answer.features = answer'.features ∧
        answer.sources = answer'.sources ∧
        answer.searchPaths = answer'.searchPaths ∧
        c'.generation = d'.generation := by
  refine ⟨?_, ?_, ?_⟩
  · intro r
    refine ⟨r.leads_run.refuses c w, ?_⟩
    intro e c' w' hStage hRun
    have hFailed := r.leads_run.fails hStage hRun
    refine ⟨hFailed, ?_⟩
    intro rs r' v
    rw [after_of_failed hFailed, ← hFailed]
    exact
      r'.leads_run.refuses c' v
        (hFailed ▸ r'.failed_notMem_stages)
  · intro facts d v features destination answer c' w' hHistory
      hNew hMatches hAlike hCopy hFinds hRun
    rcases hHistory.beside hNew hMatches hAlike hCopy hFinds hRun
      with ⟨d₁, between, hSurvey, hPerm, hLeaves, hBeside⟩
    refine
      ⟨d₁, between, hSurvey, hPerm, hLeaves, fun hOrder => ?_⟩
    rcases hBeside hOrder with
      ⟨answer', d', v', hRun', hAnswer, hPerm', hGeneration,
        hAfter⟩
    exact
      ⟨answer', d', v', hRun', hAnswer.output_eq,
        hAnswer.features_eq, hAnswer.sources_eq,
        hAnswer.searchPaths_eq, hPerm', hGeneration,
        hAfter.files_eq, hAnswer.condition⟩
  · intro d v features destination answer answer' c' d' w' v'
      hKeeps hKeeps' hSource hPerm hOrder hSame
    exact hKeeps.beside hKeeps' hSource hPerm hOrder hSame

------------------------------------------------------------
-- A Composition after Another
------------------------------------------------------------

/- The source is compiled in two ways, as the option is chosen. -/
def plainTrace (on : Bool) : String :=
  if on then "gcc -DX=1 a.c\n" else "gcc a.c\n"

def plainUnit (on : Bool) : Inclusion :=
  if on then .defining else .plain

theorem traces_plainTrace (on : Bool) :
    Traces (plainTrace on) [plainUnit on]
      [.compiled (plainUnit on), .header ⟨"b.h"⟩] := by
  cases on
  · refine
      ⟨⟨[{ compiledFiles := ["a.c"] }], by decide +kernel,
          by decide +kernel⟩,
        by decide, by decide, by decide +kernel⟩
  · refine
      ⟨⟨[{ compiledFiles := ["a.c"], defines := [("X", "1")] }],
          by decide +kernel, by decide +kernel⟩,
        by decide, by decide, by decide +kernel⟩

theorem onSite_plainUnit
    (on : Bool) :
    ∀ e ∈ [.compiled (plainUnit on), .header ⟨"b.h"⟩],
      OnSite e := by
  intro e he
  rcases List.mem_pair.mp he with rfl | rfl
  · exact Or.inr ⟨_, rfl, by cases on <;> rfl⟩
  · exact Or.inl rfl

/- The name of a generated file is not that of the header. -/
theorem not_same_header (i : Inclusion) :
    i.composedPath.same ⟨"b.h"⟩ = false := by
  rw [Bool.eq_false_iff, ne_eq, Path.same_iff,
    i.components_composedPath]
  intro hSame
  have hHeader :
      (⟨"b.h"⟩ : Path).components = [] ++ [.name "b.h"] := by
    decide
  rw [hHeader, List.append_singleton_inj] at hSame
  have hHyphen : '-' ∈ i.composedName.toList := by
    simp [Inclusion.composedName]
  rw [Component.name.inj hSame.2] at hHyphen
  revert hHyphen
  decide

/- Generated files of the two ways have names of their own. -/
theorem not_same_plainUnit :
    (plainUnit false).composedPath.same
        (plainUnit true).composedPath = false := by
  rw [Bool.eq_false_iff, ne_eq, Path.same_iff]
  exact fun hSame =>
    Inclusion.sha256_plain_ne
      (Inclusion.sha256_eq_of_components_eq hSame)

/- What is generated at the site is never put over an original. -/
theorem OnSite.not_hasFile
    {chosen : String}
    {t : FileTree}
    {e : Dependency}
    {names : Names}
    (hOn : OnSite e)
    (hTree : IsSiteTree chosen t)
    (hTarget : t.HasFile ((⟨"/out"⟩ : Path).join e.target) names) :
    ¬ t.HasFile ((⟨"/source"⟩ : Path).join e.file) names := by
  rcases hOn.fileToWrite_target hTree with ⟨name, hNames⟩
  rcases hOn.resolve_source with ⟨original, content, hResolve⟩
  rcases hTarget with ⟨text, hHere⟩
  rw [FileTree.fileToWrite_of_resolve hHere rfl,
    Except.ok.injEq] at hNames
  subst hNames
  intro hSource
  have hSame := hSource.names_eq ⟨content, hResolve _ _ hTree⟩
  simp at hSame

/- A header and a source of the site are kept apart. -/
theorem apart_pair
    {chosen : String}
    {t : FileTree}
    {i : Inclusion}
    (hTree : IsSiteTree chosen t)
    (hFile : i.file = ⟨"a.c"⟩) :
    Generation.Apart t ⟨"/source"⟩ ⟨"/out"⟩
      [.header ⟨"b.h"⟩, .compiled i] := by
  have hTarget := not_same_header i
  have hTarget' : (⟨"b.h"⟩ : Path).same i.composedPath = false := by
    rw [Bool.eq_false_iff, ne_eq, Path.same_iff] at hTarget ⊢
    exact fun hSame => hTarget hSame.symm
  have hOther : i.file ≠ ⟨"b.h"⟩ := by
    rw [hFile]
    decide
  constructor
  · intro d hd e he hSame
    rcases List.mem_pair.mp hd with rfl | rfl <;>
      rcases List.mem_pair.mp he with rfl | rfl
    · rfl
    · exact absurd (hTarget'.symm.trans hSame) Bool.false_ne_true
    · exact absurd (hTarget.symm.trans hSame) Bool.false_ne_true
    · rfl
  · intro d hd e he hSame
    rcases List.mem_pair.mp hd with rfl | rfl <;>
      rcases List.mem_pair.mp he with rfl | rfl
    · exact fun _ _ _ _ _ => rfl
    · exact absurd hSame.symm hOther
    · exact absurd hSame hOther
    · exact fun _ _ _ _ _ => rfl
  · intro d hd _ names hPlace
    have hOn : OnSite d := by
      rcases List.mem_pair.mp hd with rfl | rfl
      · exact Or.inl rfl
      · exact Or.inr ⟨i, rfl, hFile⟩
    exact hOn.not_hasFile hTree hPlace

/- The other way round. -/
def backwards : Arrangement :=
  ⟨List.reverse, List.reverse_perm⟩

/- A composer whose first step on the copy will be interrupted. -/
def interrupted : Composer × Workspace :=
  ({ site with stage := .sourceCopied },
    { siteSpace plainTrace with cancelled := true })

/- A composer that has composed once, and visits sets backwards then. -/
def composedOnce : Composer × Workspace :=
  let done :=
    (Request.compose (switch true) ⟨"/out"⟩).run site
      (siteSpace plainTrace)
  ({ done.1.2 with arrangement := backwards }, done.2)

theorem isSite_siteSpace (trace : Bool → String) :
    IsSite trace (switchText false) (siteSpace trace) :=
  ⟨isSiteTree_siteTree, rfl, rfl, rfl⟩

theorem isOfSite_site : IsOfSite site :=
  ⟨rfl, rfl, rfl, rfl⟩

theorem isNew_site : site.IsNew :=
  ⟨rfl, rfl, rfl, rfl⟩

/- What is recorded last of a source, in front of the header. -/
theorem find?_recorded
    (i : Inclusion)
    (before : List (Path × Origin))
    (origin origin' : Origin) :
    Dict.find? i.composedPath
        (Dict.ofList
          (before ++
            [(i.composedPath, origin), (⟨"b.h"⟩, origin')])) =
      some origin := by
  have hHeader :
      (compare i.composedPath (⟨"b.h"⟩ : Path) == .eq) = false := by
    rw [beq_eq_false_iff_ne, ne_eq, Path.compare_eq_iff,
      ← Path.same_iff, Bool.not_eq_true]
    exact not_same_header i
  rw [Dict.find?_ofList_of_trans, List.reverse_append,
    List.reverse_cons, List.reverse_singleton]
  simp [hHeader]

/- Of the first composition the generated source is there. -/
theorem exists_hasFile_plainUnit
    {on : Bool}
    {answer : Composition}
    (hComposes :
      Composes plainTrace on
        [.compiled (plainUnit on), .header ⟨"b.h"⟩] site w answer
        c' w') :
    ∃ names, w'.files.HasFile
      ((⟨"/out"⟩ : Path).join (plainUnit on).composedPath) names := by
  have hDependencies :
      c'.dependencies =
        [.compiled (plainUnit on), .header ⟨"b.h"⟩] :=
    hComposes.dependencies_eq
  have hTargets :
      Generation.targets
          [.compiled (plainUnit on), .header ⟨"b.h"⟩] =
        [(⟨"a.c"⟩, [.compiled (plainUnit on)]),
          (⟨"b.h"⟩, [.header ⟨"b.h"⟩])] := by
    cases on <;> decide +kernel
  rcases hComposes.leaves with ⟨t, hLeaves⟩
  rw [hComposes.generation_eq, hDependencies, Generation.recordAll,
    hTargets] at hLeaves
  rcases hLeaves.recorded _ _
    (find?_recorded (plainUnit on) [] _ _) with
    ⟨e, he, -, hSame, -, hFile⟩
  rcases List.mem_pair.mp he with rfl | rfl
  · exact hFile
  · have hOther := not_same_header (plainUnit on)
    rw [Bool.eq_false_iff, ne_eq, Path.same_iff] at hOther
    exact absurd (Path.same_iff.mp hSame).symm hOther

/- What was not found is not recorded, though it may be there. -/
theorem find?_plainUnit_eq_none
    {destination : Path}
    {generation : Generation}
    {t t' : FileTree}
    (hLeaves :
      Generation.Leaves
        [.header ⟨"b.h"⟩, .compiled (plainUnit false)] destination
        generation t t') :
    Dict.find? (plainUnit true).composedPath generation = none := by
  cases hFound :
    Dict.find? (plainUnit true).composedPath generation with
  | none => rfl
  | some origin =>
      rcases hLeaves.recorded _ _ hFound with
        ⟨e, he, -, hSame, -⟩
      rcases List.mem_pair.mp he with rfl | rfl
      · have hOther := not_same_header (plainUnit true)
        rw [Bool.eq_false_iff, ne_eq, Path.same_iff] at hOther
        exact absurd (Path.same_iff.mp hSame).symm hOther
      · exact absurd (not_same_plainUnit.symm.trans hSame)
          Bool.false_ne_true

/- Where make is interrupted the options are not chosen. -/
theorem run_interrupted :
    ∃ e c' w',
      (Request.writeConfig (switch true)).run interrupted.1
          interrupted.2 =
        ((.error e, c'), w') := by
  have hClean :
      Strategy.make "make" ["distclean"] ⟨"/source"⟩
          interrupted.2 =
        (.error .interrupted, interrupted.2) := by
    rw [Strategy.make, Job.runChecked, Job.run]
    simp only [Job.bind_apply,
      Job.check_of_cancelled (show interrupted.2.cancelled = true
        from rfl)]
  have hConfigure :
      interrupted.1.configuring (switch true) interrupted.2 =
        (.error .interrupted, interrupted.2) := by
    have hSource : interrupted.1.sourceDir = ⟨"/source"⟩ := by
      decide
    rw [configuring, hSource]
    change
      (Strategy.make "make" ["distclean"] ⟨"/source"⟩ >>= fun _ =>
        _) interrupted.2 = _
    rw [Job.bind_apply, hClean]
  refine
    ⟨.interrupted, { interrupted.1 with stage := .failed },
      interrupted.2, ?_⟩
  have hStage : interrupted.1.stage = .sourceCopied := rfl
  rw [Request.run, bind_apply, writeConfig_eq, jobStep_apply hStage,
    hConfigure]

theorem IsOfSite.arranged
    (hOf : IsOfSite c)
    (arrangement : Arrangement) :
    IsOfSite { c with arrangement } :=
  ⟨hOf.config_eq, hOf.model_eq, hOf.strategy_eq, hOf.scanner_eq⟩

/- A call is refused, a composition succeeds, and the order changes. -/
theorem history_composedOnce :
    ∃ answer c₁ w₁,
      composedOnce = ({ c₁ with arrangement := backwards }, w₁) ∧
      Composes plainTrace true
        [.compiled (plainUnit true), .header ⟨"b.h"⟩] site
        (siteSpace plainTrace) answer c₁ w₁ ∧
      History (.ok siteFacts) { c₁ with arrangement := backwards }
        w₁ := by
  rcases (isSite_siteSpace plainTrace).compose isOfSite_site
    (by decide) Space.Reached.empty (traces_plainTrace true)
    (onSite_plainUnit true) with
    ⟨hFinds, answer, c₁, w₁, hComposes⟩
  have hOnce :
      (Request.compose (switch true) ⟨"/out"⟩).run site
          (siteSpace plainTrace) =
        ((.ok (some answer), c₁), w₁) := by
    rw [Request.run, bind_of_ok hComposes.keeps.run]
    rfl
  have hRefusal :=
    Request.prepare.leads_run.refuses site (siteSpace plainTrace)
      (by decide)
  have hSettings := isOfSite_site.settings isOfSite_site
  have hSteps := hComposes.isOfSite.settings hComposes.isOfSite
  have hNew : History (.ok siteFacts) site (siteSpace plainTrace) :=
    .new isNew_site hSettings .empty
  have hRefused := hNew.request .prepare trivial
  rw [hRefusal] at hRefused
  have hComposed :=
    hRefused.request (.compose (switch true) ⟨"/out"⟩) hFinds
  rw [hOnce] at hComposed
  refine
    ⟨answer, c₁, w₁, by rw [composedOnce, hOnce], hComposes, ?_⟩
  exact
    hComposed.change rfl hSteps.strategy hSteps.scanner
      hComposes.reached

/-
  A composer is refused, another one fails, and a third one is
  asked for a configuration after it has composed another one. It
  visits sets in another order than the new ones beside it. What
  it has generated before stays, but is recorded no more, and one
  that starts from an empty destination tells the same sources.
-/
theorem run_independent_of_history_switched :
    Request.prepare.run site (siteSpace plainTrace) =
        ((.error (.stage .initialized .configWritten), site),
          siteSpace plainTrace) ∧
    ((Request.writeConfig (switch true)).run interrupted.1
        interrupted.2).1.2.stage = .failed ∧
    ∃ answer c' w' answer' d' v',
      compose (switch false) ⟨"/out"⟩ composedOnce.1
          composedOnce.2 =
        ((.ok answer, c'), w') ∧
      compose (switch false) ⟨"/out"⟩ site composedOnce.2 =
        ((.ok answer', d'), v') ∧
      c'.dependencies =
        [.header ⟨"b.h"⟩, .compiled (plainUnit false)] ∧
      answer.sources = answer'.sources ∧
      (∀ l, Presence.Tells (answer.condition l)
        (answer'.condition l)) ∧
      (∃ names, w'.files.HasFile
        ((⟨"/out"⟩ : Path).join (plainUnit true).composedPath)
        names) ∧
      Dict.find? (plainUnit true).composedPath c'.generation =
        none ∧
      ∃ clean d'' v'',
        compose (switch false) ⟨"/out"⟩ site
            (siteSpace plainTrace) =
          ((.ok clean, d''), v'') ∧
        answer.sources = clean.sources ∧
        c'.generation = d''.generation := by
  have hPrepare :=
    ((run_independent_of_history site (siteSpace plainTrace)).1
      .prepare).1 (by decide)
  refine ⟨hPrepare, ?_, ?_⟩
  · rcases run_interrupted with ⟨e, c', w', hRun⟩
    rw [hRun]
    have hCalls :=
      (run_independent_of_history interrupted.1 interrupted.2).1
    exact
      ((hCalls (.writeConfig (switch true))).2 e c' w' (by decide)
        hRun).1
  rcases history_composedOnce with
    ⟨answer₁, c₁, w₁, hOnce, hComposes₁, hHistory⟩
  have hOf : IsOfSite { c₁ with arrangement := backwards } :=
    hComposes₁.isOfSite.arranged backwards
  have hSite := hComposes₁.works.site
  have hReady : c₁.stage ∈ ready := by
    rw [hComposes₁.stage_eq]
    decide
  rcases hSite.compose hOf hReady hComposes₁.reached
    (traces_plainTrace false) (onSite_plainUnit false) with
    ⟨hFinds₂, answer, c', w', hComposes₂⟩
  have hDependencies :
      c'.dependencies =
        [.header ⟨"b.h"⟩, .compiled (plainUnit false)] :=
    hComposes₂.dependencies_eq
  have hCopy :
      w₁.files.exists? { c₁ with arrangement := backwards }.sourceDir
        = true := by
    rw [hOf.sourceDir_eq, FileTree.exists?,
      hSite.tree.status_source]
    rfl
  rcases
    (run_independent_of_history
      { c₁ with arrangement := backwards } w₁).2 with
    ⟨hCompositions, hBesides⟩
  rcases hCompositions _ _ _ _ _ _ _ _ hHistory isNew_site
    (hOf.settings isOfSite_site) (.refl hComposes₁.reached) hCopy
    hFinds₂ hComposes₂.keeps.run with
    ⟨d₁, between, -, -, hLeaves, hBeside⟩
  have hApart :=
    apart_pair (i := plainUnit false) hComposes₂.works.site.tree rfl
  rw [hOf.sourceDir_eq] at hBeside
  rw [← hDependencies] at hApart
  rcases hBeside (Or.inr hApart) with
    ⟨answer', d', v', hRun', -, -, hSources, -, -, -, -,
      hConditions⟩
  -- The same at a site where nothing was composed.
  rcases (isSite_siteSpace plainTrace).compose isOfSite_site
    (by decide) Space.Reached.empty (traces_plainTrace false)
    (onSite_plainUnit false) with
    ⟨-, clean, d'', v'', hComposes₃⟩
  have hDependencies' :
      d''.dependencies =
        [.compiled (plainUnit false), .header ⟨"b.h"⟩] :=
    hComposes₃.dependencies_eq
  have hPerm : c'.dependencies.Perm d''.dependencies := by
    rw [hDependencies, hDependencies']
    exact .swap _ _ []
  have hOriginals :
      Generation.SameOriginals ⟨"/source"⟩ c'.dependencies
        w'.files v''.files :=
    sameOriginals_site
      (fun e he =>
        onSite_plainUnit false e
          (hDependencies' ▸ hPerm.mem_iff.mp he))
      hComposes₂.works.site.tree hComposes₃.works.site.tree
  have hSourceDir :
      { c₁ with arrangement := backwards }.sourceDir =
        site.sourceDir :=
    (hOf.settings isOfSite_site).sourceDir_eq
  rw [← hOf.sourceDir_eq] at hOriginals
  rcases hBesides _ _ _ _ _ _ _ _ _ _ hComposes₂.keeps
    hComposes₃.keeps hSourceDir hPerm
    (Or.inr (hOf.sourceDir_eq ▸ hApart)) hOriginals with
    ⟨-, -, hSources', -, hGeneration'⟩
  rw [hOnce]
  refine
    ⟨answer, c', w', answer', d', v', hComposes₂.keeps.run, hRun',
      hDependencies, hSources, hConditions, ?_, ?_, clean, d'',
      v'', hComposes₃.keeps.run, hSources', hGeneration'⟩
  · rcases exists_hasFile_plainUnit hComposes₁ with ⟨names, hFile⟩
    exact ⟨names, hComposes₂.works.retains.hasFile hFile⟩
  · rw [hDependencies] at hLeaves
    exact find?_plainUnit_eq_none hLeaves

------------------------------------------------------------
-- Two Orders
------------------------------------------------------------

/- A build that compiles the source in two ways with one name. -/
def collidingTrace : String :=
  "make[1]: Entering directory 'd'\n" ++
    "gcc -include .. -include ../x ../a.c\n" ++
    "make[1]: Leaving directory 'd'\n" ++ "gcc -Dx= a.c\n"

def collidingUnits : List Dependency :=
  [.compiled .climbing, .header ⟨"b.h"⟩, .compiled .emptyDefining]

theorem traces_collidingTrace :
    Traces collidingTrace [.climbing, .emptyDefining]
      collidingUnits :=
  ⟨⟨[ { compiledFiles := ["../a.c"], includes := ["..", "../x"],
          workingDirectory := some ⟨"d"⟩ },
        { compiledFiles := ["a.c"], defines := [("x", "")] }],
      by decide +kernel, by decide +kernel⟩,
    by decide, by decide, by decide +kernel⟩

theorem onSite_collidingUnits :
    ∀ e ∈ collidingUnits, OnSite e := by
  intro e he
  simp only [collidingUnits, List.mem_cons, List.not_mem_nil,
    or_false] at he
  rcases he with rfl | rfl | rfl
  · exact Or.inr ⟨_, rfl, rfl⟩
  · exact Or.inl rfl
  · exact Or.inr ⟨_, rfl, rfl⟩

/-
  Two new composers that differ in nothing but the order in which
  they visit sets tell two sources of one generated file.
-/
theorem not_composed_alike_colliding :
    site.IsNew ∧ IsNew { site with arrangement := backwards } ∧
      site.Matches { site with arrangement := backwards } ∧
      ∃ answer c' w' answer' d' v',
        compose (switch false) ⟨"/out"⟩ site
            (siteSpace fun _ => collidingTrace) =
          ((.ok answer, c'), w') ∧
        compose (switch false) ⟨"/out"⟩
            { site with arrangement := backwards }
            (siteSpace fun _ => collidingTrace) =
          ((.ok answer', d'), v') ∧
        answer.sources ≠ answer'.sources := by
  have hOf : IsOfSite { site with arrangement := backwards } :=
    isOfSite_site.arranged backwards
  refine
    ⟨isNew_site, ⟨rfl, rfl, rfl, rfl⟩, isOfSite_site.settings hOf,
      ?_⟩
  have hSite := isSite_siteSpace fun _ => collidingTrace
  have hReady :
      ({ site with arrangement := backwards } : Composer).stage ∈
        ready := by
    decide
  rcases (hSite.compose isOfSite_site hReady .empty
    traces_collidingTrace onSite_collidingUnits).2 with
    ⟨answer, c', w', hComposes⟩
  rcases (hSite.compose hOf hReady .empty
    traces_collidingTrace onSite_collidingUnits).2 with
    ⟨answer', d', v', hComposes'⟩
  refine
    ⟨answer, c', w', answer', d', v', hComposes.keeps.run,
      hComposes'.keeps.run, ?_⟩
  have hTargets :
      Generation.targets collidingUnits =
        [(⟨"a.c"⟩, [.compiled .climbing, .compiled .emptyDefining]),
          (⟨"b.h"⟩, [.header ⟨"b.h"⟩])] := by
    decide +kernel
  have hTargets' :
      Generation.targets collidingUnits.reverse =
        [(⟨"a.c"⟩, [.compiled .emptyDefining, .compiled .climbing]),
          (⟨"b.h"⟩, [.header ⟨"b.h"⟩])] := by
    decide +kernel
  have hFound :
      Dict.find? Inclusion.emptyDefining.composedPath
          answer.sources.generation =
        some ⟨⟨"a.c"⟩, 1⟩ := by
    have hDependencies : c'.dependencies = collidingUnits :=
      hComposes.dependencies_eq
    rw [hComposes.sources_eq, hComposes.generation_eq,
      hDependencies, Generation.recordAll, hTargets]
    exact
      find?_recorded .emptyDefining
        [(Inclusion.climbing.composedPath, ⟨⟨"a.c"⟩, 2⟩)] _ _
  have hFound' :
      Dict.find? Inclusion.climbing.composedPath
          answer'.sources.generation =
        some ⟨⟨"a.c"⟩, 2⟩ := by
    have hDependencies : d'.dependencies = collidingUnits.reverse :=
      hComposes'.dependencies_eq
    rw [hComposes'.sources_eq, hComposes'.generation_eq,
      hDependencies, Generation.recordAll, hTargets']
    exact
      find?_recorded .climbing
        [(Inclusion.emptyDefining.composedPath, ⟨⟨"a.c"⟩, 1⟩)] _ _
  intro hSame
  rw [hSame, Inclusion.composedPath_emptyDefining, hFound'] at hFound
  cases hFound

end Composer

end Variability
