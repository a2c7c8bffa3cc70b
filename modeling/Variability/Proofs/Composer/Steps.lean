import Variability.Proofs.Composer.Requests
import Variability.Proofs.Generation.Confinement
import Variability.Proofs.Generation.Reordering
import Variability.Proofs.Job.Agreement

/-
  The steps of a composition, from the copy of the sources to the
  generated files.

  Each of these steps does a job and remembers its result. What
  the job does is told by the settings of the composer, by what
  its external steps do and by the results before. What was known
  about presence is neither read nor changed.

  Composers with the same settings and external steps find the
  same dependencies. They may visit them in different orders.

  Main declarations:
    * `Composer.Matches`
    * `Composer.jobStep`
    * `Composer.Quiet`, `Composer.quiet_approach`
    * `Composer.survey`, `Composer.survey_beside`
    * `Composer.generating_beside`
-/

namespace Variability

namespace Composer

variable {α β : Type}
variable {c c' d : Composer}
variable {w w' v : Workspace}
variable {here there : Stage}

------------------------------------------------------------
-- Composers
------------------------------------------------------------

/- Composers with the same settings and the same external steps. -/
structure Matches (c d : Composer) : Prop where
  config_eq : c.config = d.config
  model_eq : c.model = d.model
  strategy : c.strategy.Agree d.strategy
  scanner : c.scanner.Agree d.scanner

theorem Matches.sourceDir_eq
    (hMatches : c.Matches d) :
    c.sourceDir = d.sourceDir :=
  congrArg Config.sourceCopyDir hMatches.config_eq

/- Programs that are called do what calls and files tell them. -/
theorem matches_ofConfig
    (config : Config)
    (model : FeatureModel) :
    (ofConfig config model).Matches (ofConfig config model) where
  config_eq := rfl
  model_eq := rfl
  strategy := Strategy.agree_ofSystem _ _
  scanner := Scanner.agree_ofCompiler _

/- Nothing but the stage and the results of steps is changed. -/
structure SameParts (c c' : Composer) : Prop where
  config_eq : c'.config = c.config
  model_eq : c'.model = c.model
  strategy_eq : c'.strategy = c.strategy
  scanner_eq : c'.scanner = c.scanner
  arrangement_eq : c'.arrangement = c.arrangement
  fileConditions_eq : c'.fileConditions = c.fileConditions

namespace SameParts

theorem refl (c : Composer) : c.SameParts c :=
  ⟨rfl, rfl, rfl, rfl, rfl, rfl⟩

theorem trans
    (hFirst : c.SameParts c')
    (hSecond : c'.SameParts d) :
    c.SameParts d :=
  ⟨hSecond.config_eq.trans hFirst.config_eq,
    hSecond.model_eq.trans hFirst.model_eq,
    hSecond.strategy_eq.trans hFirst.strategy_eq,
    hSecond.scanner_eq.trans hFirst.scanner_eq,
    hSecond.arrangement_eq.trans hFirst.arrangement_eq,
    hSecond.fileConditions_eq.trans hFirst.fileConditions_eq⟩

/- What a composer matches does not depend on its results. -/
theorem carry
    {d' : Composer}
    (hLeft : c.SameParts c')
    (hRight : d.SameParts d')
    (hMatches : c.Matches d) :
    c'.Matches d' where
  config_eq := by
    rw [hLeft.config_eq, hRight.config_eq, hMatches.config_eq]
  model_eq := by
    rw [hLeft.model_eq, hRight.model_eq, hMatches.model_eq]
  strategy := by
    rw [hLeft.strategy_eq, hRight.strategy_eq]
    exact hMatches.strategy
  scanner := by
    rw [hLeft.scanner_eq, hRight.scanner_eq]
    exact hMatches.scanner

theorem sourceDir_eq
    (hParts : c.SameParts c') :
    c'.sourceDir = c.sourceDir :=
  congrArg Config.sourceCopyDir hParts.config_eq

theorem restarted (c : Composer) : c.SameParts c.restarted := by
  unfold Composer.restarted
  split <;> exact ⟨rfl, rfl, rfl, rfl, rfl, rfl⟩

end SameParts

------------------------------------------------------------
-- Jobs of Steps
------------------------------------------------------------

/- A step that does a job and puts its result into the composer. -/
def jobStep
    (here there : Stage)
    (job : Composer → Job β)
    (set : β → Composer → Composer) :
    Composing Unit :=
  step here there fun c => do
    let b ← job c
    return ((), set b c)

variable {job : Composer → Job β}
variable {set : β → Composer → Composer}

theorem jobStep_apply
    (hStage : c.stage = here)
    (job : Composer → Job β)
    (set : β → Composer → Composer)
    (w : Workspace) :
    jobStep here there job set c w =
      match job c w with
      | (.ok b, w') =>
          ((.ok (), { set b c with stage := there }), w')
      | (.error e, w') =>
          ((.error e, { c with stage := .failed }), w') := by
  rw [jobStep, step_apply _ hStage, Job.bind_apply]
  rcases job c w with ⟨_ | _, _⟩ <;> rfl

theorem jobStep_of_ok
    {b : β}
    (hStage : c.stage = here)
    (hJob : job c w = (.ok b, w'))
    (set : β → Composer → Composer) :
    jobStep here there job set c w =
      ((.ok (), { set b c with stage := there }), w') := by
  rw [jobStep_apply hStage, hJob]

/- A step that succeeds has done its job. -/
theorem jobStep_eq_ok
    (hRun : jobStep here there job set c w = ((.ok (), c'), w')) :
    ∃ b, job c w = (.ok b, w') ∧
      c' = { set b c with stage := there } := by
  by_cases hStage : c.stage = here
  · rw [jobStep_apply hStage] at hRun
    rcases hJob : job c w with ⟨e | b, v⟩ <;>
      rw [hJob] at hRun <;> cases hRun
    exact ⟨b, rfl, rfl⟩
  · rw [jobStep,
      (leads_step here there _).refuses c w
        (by simpa using hStage)] at hRun
    cases hRun

/- The sources are copied unless the copy is there. -/
def copying (c : Composer) : Job Unit := do
  if (← get).files.exists? c.sourceDir then
    pure ()
  else
    copyTree c.config.source c.sourceDir

theorem copySource_eq :
    copySource =
      jobStep .initialized .sourceCopied copying fun _ c => c :=
  rfl

/- The copy is configured for features. -/
def configuring (features : Features) (c : Composer) : Job Unit := do
  let file := Strategy.configPath c.sourceDir
  c.strategy.clean c.sourceDir
  c.strategy.configure c.sourceDir
  DotConfig.write file features Strategy.isArtifact
  c.strategy.complete c.sourceDir
  let wrong ← DotConfig.verify file features Strategy.isArtifact
  if ¬ wrong.isEmpty then
    Job.record [unsettable wrong.length]

theorem writeConfig_eq (features : Features) :
    writeConfig features =
      jobStep .sourceCopied .configWritten (configuring features)
        fun _ c => c :=
  rfl

/- What is compiled, and what that includes, is found out. -/
def resolving (c : Composer) : Job (List Dependency) := do
  let calls ← invocations (← c.strategy.trace c.sourceDir)
  c.scanner.resolve c.sourceDir
    (calls.flatMap fun call =>
      Inclusion.ofInvocation call c.sourceDir c.sourceDir)

theorem resolve_eq :
    resolve =
      jobStep .prepared .resolved resolving fun found c =>
        { c with dependencies := c.arrangement.arrange found } := by
  unfold resolve jobStep resolving
  simp only [bind_assoc]

/- What the compiler needs is made. -/
def preparing (c : Composer) : Job Unit :=
  c.strategy.prepare c.sourceDir

theorem prepare_eq :
    prepare =
      jobStep .configWritten .prepared preparing fun _ c => c :=
  rfl

/- The composed tree is written. -/
def generating (destination : Path) (c : Composer) : Job Generation := do
  Job.edit destination (FileTree.makeDirectories destination)
  Generation.generate c.dependencies c.sourceDir destination

theorem generate_eq (destination : Path) :
    generate destination =
      jobStep .resolved .generated (generating destination)
        fun generation c => { c with generation } := by
  unfold generate jobStep generating
  simp only [bind_assoc]

/- All that is done before files are generated. -/
def finding
    (features : Features)
    (c : Composer) :
    Job (List Dependency) := do
  c.configuring features
  c.preparing
  c.resolving

------------------------------------------------------------
-- Jobs That Agree
------------------------------------------------------------

theorem agree_copyTree (source target : Path) :
    Job.Agree (copyTree source target)
      (copyTree source target) := by
  intro w w' h
  unfold copyTree
  rw [← h.files_eq]
  rcases FileTree.copyTree source target w.files with
    ⟨⟨_, _⟩ | _, files⟩ <;>
    exact
      ⟨rfl, rfl, h.programs_eq, h.searchPath_eq,
        h.cancelled_eq, h.left, h.right⟩

namespace Matches

theorem copying
    (hMatches : c.Matches d) :
    Job.Agree c.copying d.copying := by
  unfold Composer.copying
  rw [hMatches.sourceDir_eq, hMatches.config_eq]
  apply Job.Agree.get
  intro w w' h
  rw [h.files_eq]
  split
  · exact .pure _
  · exact agree_copyTree _ _

theorem configuring
    (hMatches : c.Matches d)
    (features : Features) :
    Job.Agree (c.configuring features)
      (d.configuring features) := by
  have hSteps := hMatches.strategy
  unfold Composer.configuring
  rw [hMatches.sourceDir_eq]
  refine .bind (hSteps.clean _) fun _ => ?_
  refine .bind (hSteps.configure _) fun _ => ?_
  refine .bind (DotConfig.agree_write _ _ _) fun _ => ?_
  refine .bind (hSteps.complete _) fun _ => ?_
  refine .bind (DotConfig.agree_verify _ _ _) fun _ => ?_
  split
  · exact Job.agree_record _
  · exact .pure _

theorem preparing
    (hMatches : c.Matches d) :
    Job.Agree c.preparing d.preparing := by
  unfold Composer.preparing
  rw [hMatches.sourceDir_eq]
  exact hMatches.strategy.prepare _

theorem resolving
    (hMatches : c.Matches d) :
    Job.Agree c.resolving d.resolving := by
  unfold Composer.resolving
  rw [hMatches.sourceDir_eq]
  refine .bind (hMatches.strategy.trace _) fun trace => ?_
  refine .bind ?_ fun _ => hMatches.scanner.resolveFrom _ _ _
  unfold invocations
  split
  · exact .throw _
  · exact .bind (Job.agree_record _) fun _ => .pure _

theorem generating
    (hMatches : c.Matches d)
    (hDependencies : c.dependencies = d.dependencies)
    (destination : Path) :
    Job.Agree (c.generating destination)
      (d.generating destination) := by
  unfold Composer.generating
  rw [hMatches.sourceDir_eq, hDependencies]
  exact
    .bind (Job.agree_edit _ _) fun _ =>
      Generation.agree_generate _ _ _

/-
  What is found is told by the settings and by the external
  steps. What was found out before is read by none of the jobs.
-/
theorem finding
    (hMatches : c.Matches d)
    (features : Features) :
    Job.Agree (c.finding features) (d.finding features) := by
  unfold Composer.finding
  refine .bind (hMatches.configuring features) fun _ => ?_
  refine .bind hMatches.preparing fun _ => ?_
  exact hMatches.resolving

end Matches

------------------------------------------------------------
-- What Steps Leave
------------------------------------------------------------

/-
  A computation that leaves what was known about presence, and a
  space that is reached, whether it fails or not.
-/
def Quiet (f : Composing α) : Prop :=
  ∀ c w, c.Matches c → w.space.Reached →
    c.SameParts (f c w).1.2 ∧ (f c w).2.space.Reached

namespace Quiet

variable {f : Composing α}
variable {g : α → Composing β}

theorem bind
    (hf : Quiet f)
    (hg : ∀ a, Quiet (g a)) :
    Quiet (f >>= g) := by
  intro c w hMatches hReached
  have hFirst := hf c w hMatches hReached
  rw [bind_apply]
  generalize f c w = first at hFirst ⊢
  rcases first with ⟨⟨e | a, between⟩, v⟩
  · exact hFirst
  · rcases hFirst with ⟨hParts, hBetween⟩
    have hRest :=
      hg a between v (hParts.carry hParts hMatches) hBetween
    exact ⟨hParts.trans hRest.1, hRest.2⟩

/- A step is quiet if its job is told by the composer. -/
theorem jobStep
    (hJob : ∀ c : Composer, c.Matches c → Job.Agree (job c) (job c))
    (hSet : ∀ b (c : Composer), c.SameParts (set b c)) :
    Quiet (jobStep here there job set) := by
  intro c w hMatches hReached
  by_cases hStage : c.stage = here
  · have hAfter := (hJob c hMatches).reached hReached
    rw [jobStep_apply hStage]
    generalize job c w = done at hAfter ⊢
    rcases done with ⟨e | b, v⟩
    · exact ⟨⟨rfl, rfl, rfl, rfl, rfl, rfl⟩, hAfter⟩
    · have hParts := hSet b c
      exact
        ⟨⟨hParts.config_eq, hParts.model_eq,
          hParts.strategy_eq, hParts.scanner_eq,
          hParts.arrangement_eq, hParts.fileConditions_eq⟩, hAfter⟩
  · rw [Composer.jobStep,
      (leads_step here there _).refuses c w
        (by simpa using hStage)]
    exact ⟨.refl c, hReached⟩

end Quiet

theorem quiet_copySource : Quiet copySource :=
  .jobStep (fun _ h => h.copying) fun _ c => .refl c

theorem quiet_writeConfig (features : Features) :
    Quiet (writeConfig features) :=
  .jobStep (fun _ h => h.configuring features) fun _ c => .refl c

theorem quiet_prepare : Quiet prepare :=
  .jobStep (fun _ h => h.preparing) fun _ c => .refl c

theorem quiet_resolve : Quiet resolve := by
  rw [resolve_eq]
  exact
    .jobStep (fun _ h => h.resolving) fun _ _ =>
      ⟨rfl, rfl, rfl, rfl, rfl, rfl⟩

theorem quiet_generate (destination : Path) :
    Quiet (generate destination) := by
  rw [generate_eq]
  exact
    .jobStep (fun _ h => h.generating rfl destination) fun _ _ =>
      ⟨rfl, rfl, rfl, rfl, rfl, rfl⟩

theorem quiet_begin (features : Features) :
    Quiet (begin features) := by
  refine .bind ?_ fun _ => .bind ?_ fun _ => quiet_writeConfig _
  · intro c w _ hReached
    rw [restart_apply]
    exact ⟨.restarted c, hReached⟩
  · intro c w hMatches hReached
    unfold start
    split
    · exact quiet_copySource c w hMatches hReached
    · exact ⟨.refl c, hReached⟩

theorem quiet_approach
    (features : Features)
    (destination : Path) :
    Quiet (approach features destination) :=
  (quiet_begin features).bind fun _ =>
    quiet_prepare.bind fun _ =>
      quiet_resolve.bind fun _ => quiet_generate destination

------------------------------------------------------------
-- Compositions on a Copy
------------------------------------------------------------

/- A composer that starts a composition on the copy that is there. -/
def copied (c : Composer) : Composer :=
  { c.restarted with stage := .sourceCopied }

theorem SameParts.copied (c : Composer) : c.SameParts c.copied :=
  SameParts.trans (.restarted c) ⟨rfl, rfl, rfl, rfl, rfl, rfl⟩

theorem begin_of_copy
    (features : Features)
    (hReady : c.stage ∈ ready)
    (hCopy : w.files.exists? c.sourceDir = true) :
    begin features c w = writeConfig features c.copied w := by
  by_cases hNew : c.stage = .initialized
  · have hSame : c.restarted = c := by
      simp [restarted, hNew]
    have hJob : c.copying w = (.ok (), w) := by
      rw [copying, Job.get_bind_apply, if_pos hCopy]
      rfl
    rw [begin_of_initialized features hNew, bind_apply,
      copySource_eq, jobStep_apply hNew, hJob, copied, hSame]
  · have hSame : c.copied = c.restarted := by
      unfold copied restarted
      split
      · rfl
      · have hStill : c.stage = .sourceCopied := by
          simp_all [ready]
        rcases c with ⟨_⟩
        cases hStill
        rfl
    rw [begin_of_ne features hNew, hSame]

/- The steps up to the one that finds out about dependencies. -/
def survey (features : Features) : Composing Unit := do
  begin features
  prepare
  resolve

theorem approach_eq
    (features : Features)
    (destination : Path) :
    approach features destination =
      (survey features >>= fun _ => generate destination) := by
  simp only [approach, survey, bind_assoc]

/- A composer that has found out about dependencies. -/
def surveyed
    (c : Composer)
    (found : List Dependency) :
    Composer :=
  { c.copied with
    stage := .resolved
    dependencies := c.arrangement.arrange found }

theorem SameParts.surveyed
    (c : Composer)
    (found : List Dependency) :
    c.SameParts (c.surveyed found) :=
  SameParts.trans (.copied c) ⟨rfl, rfl, rfl, rfl, rfl, rfl⟩

/- A composer that has generated files. -/
def produced
    (c : Composer)
    (found : List Dependency)
    (generation : Generation) :
    Composer :=
  { c.surveyed found with stage := .generated, generation }

theorem SameParts.produced
    (c : Composer)
    (found : List Dependency)
    (generation : Generation) :
    c.SameParts (c.produced found generation) :=
  SameParts.trans (.surveyed c found) ⟨rfl, rfl, rfl, rfl, rfl, rfl⟩

variable {features : Features}
variable {destination : Path}
variable {found : List Dependency}
variable {generation : Generation}

/- Where the copy is there, the steps are jobs one after the other. -/
theorem survey_of_finding
    (hReady : c.stage ∈ ready)
    (hCopy : w.files.exists? c.sourceDir = true)
    (hFinding : c.copied.finding features w = (.ok found, w')) :
    survey features c w = ((.ok (), c.surveyed found), w') := by
  rcases Job.bind_eq_ok hFinding with ⟨_, w₁, hConfigure, hRest⟩
  rcases Job.bind_eq_ok hRest with ⟨_, w₂, hPrepare, hResolve⟩
  have hBegin :
      begin features c w =
        ((.ok (), { c.copied with stage := .configWritten }), w₁) :=
    (begin_of_copy features hReady hCopy).trans
      (jobStep_of_ok rfl hConfigure _)
  have hSecond :
      preparing { c.copied with stage := .configWritten } w₁ =
        (.ok (), w₂) :=
    hPrepare
  have hThird :
      resolving { c.copied with stage := .prepared } w₂ =
        (.ok found, w') :=
    hResolve
  have hArranged : c.copied.arrangement = c.arrangement :=
    (SameParts.copied c).arrangement_eq
  rw [survey, bind_of_ok hBegin, prepare_eq,
    bind_of_ok (jobStep_of_ok rfl hSecond _), resolve_eq,
    jobStep_of_ok rfl hThird, surveyed, ← hArranged]

theorem survey_eq_ok
    (hReady : c.stage ∈ ready)
    (hCopy : w.files.exists? c.sourceDir = true)
    (hRun : survey features c w = ((.ok (), c'), w')) :
    ∃ found,
      c.copied.finding features w = (.ok found, w') ∧
        c' = c.surveyed found := by
  rcases bind_eq_ok hRun with ⟨_, c₁, w₁, hBegin, hRest⟩
  rw [begin_of_copy features hReady hCopy, writeConfig_eq]
    at hBegin
  rcases jobStep_eq_ok hBegin with ⟨_, hConfigure, rfl⟩
  rcases bind_eq_ok hRest with ⟨_, c₂, w₂, hSecond, hThird⟩
  rw [prepare_eq] at hSecond
  rcases jobStep_eq_ok hSecond with ⟨_, hDone, rfl⟩
  have hPrepare : c.copied.preparing w₁ = (.ok (), w₂) := hDone
  rw [resolve_eq] at hThird
  rcases jobStep_eq_ok hThird with ⟨found, hDone', rfl⟩
  have hResolve : c.copied.resolving w₂ = (.ok found, w') :=
    hDone'
  refine ⟨found, ?_, ?_⟩
  · rw [finding, Job.bind_of_ok hConfigure,
      Job.bind_of_ok hPrepare, hResolve]
  · rw [surveyed, ← (SameParts.copied c).arrangement_eq]

/- All that is found is in its normal form. -/
theorem normalize_of_finding
    (hFinding : c.finding features w = (.ok found, w'))
    {e : Dependency}
    (he : e ∈ found) :
    e.file.normalize = e.file := by
  rcases Job.bind_eq_ok hFinding with ⟨_, w₁, -, hRest⟩
  rcases Job.bind_eq_ok hRest with ⟨_, w₂, -, hResolve⟩
  rcases Job.bind_eq_ok hResolve with ⟨_, w₃, -, hRest⟩
  rcases Job.bind_eq_ok hRest with ⟨calls, w₄, -, hScan⟩
  rcases Scanner.resolve_eq_ok hScan with
    ⟨answers, -, hGiven, -⟩
  have hCalled :
      Scanner.AreCalled c.sourceDir
        (calls.flatMap fun call =>
          Inclusion.ofInvocation call c.sourceDir c.sourceDir) := by
    intro i hi
    rcases List.mem_flatMap.mp hi with ⟨call, -, hCall⟩
    exact ⟨call, _, hCall⟩
  exact Scanner.normalize_given hCalled (hGiven e he)

/- Composers whose dependencies are in their normal form. -/
def IsTidy (c : Composer) : Prop :=
  ∀ e ∈ c.dependencies, e.file.normalize = e.file

theorem isTidy_surveyed
    (hFinding : c.copied.finding features w = (.ok found, w')) :
    (c.surveyed found).IsTidy := by
  intro e he
  exact
    normalize_of_finding hFinding
      ((c.arrangement.perm found).mem_iff.mp he)

theorem IsTidy.isSpelled
    (hTidy : c.IsTidy)
    {e : Dependency}
    (he : e ∈ c.dependencies) :
    e.file.IsSpelled := by
  rw [← hTidy e he]
  exact Path.isSpelled_normalize _

/- Files are generated after the survey, by what that has found. -/
theorem approach_eq_ok
    (hReady : c.stage ∈ ready)
    (hCopy : w.files.exists? c.sourceDir = true)
    (hRun :
      approach features destination c w = ((.ok (), c'), w')) :
    ∃ found between generation,
      c.copied.finding features w = (.ok found, between) ∧
        survey features c w =
          ((.ok (), c.surveyed found), between) ∧
        generating destination (c.surveyed found) between =
          (.ok generation, w') ∧
        c' = c.produced found generation := by
  rw [approach_eq] at hRun
  rcases bind_eq_ok hRun with ⟨_, c₁, between, hSurvey, hLast⟩
  rcases survey_eq_ok hReady hCopy hSurvey with
    ⟨found, hFinding, rfl⟩
  rw [generate_eq] at hLast
  rcases jobStep_eq_ok hLast with ⟨generation, hGenerate, rfl⟩
  exact
    ⟨found, between, generation, hFinding, hSurvey, hGenerate,
      rfl⟩

theorem approach_of_generating
    {between : Workspace}
    (hSurvey :
      survey features c w = ((.ok (), c.surveyed found), between))
    (hGenerate :
      generating destination (c.surveyed found) between =
        (.ok generation, w')) :
    approach features destination c w =
      ((.ok (), c.produced found generation), w') := by
  rw [approach_eq, bind_of_ok hSurvey, generate_eq]
  exact jobStep_of_ok rfl hGenerate _

------------------------------------------------------------
-- Another Arrangement
------------------------------------------------------------

/- What is found can be visited in another order. -/
theorem perm_surveyed
    (c d : Composer)
    (found : List Dependency) :
    (c.surveyed found).dependencies.Perm
      (d.surveyed found).dependencies :=
  (c.arrangement.perm found).trans (d.arrangement.perm found).symm

/- What is left behind where files are generated. -/
theorem leaves_generating
    (hTidy : c.IsTidy)
    (hRun : c.generating destination w = (.ok generation, w')) :
    Generation.Leaves c.dependencies destination generation w.files
      w'.files := by
  rcases Job.bind_eq_ok hRun with ⟨_, w₁, hMake, hGenerate⟩
  exact
    Generation.leaves_generate (fun _ => hTidy.isSpelled) hMake
      hGenerate

/-
  Files are generated alike by what was found, in the same order
  or in another one that does not show.
-/
theorem generating_beside
    (hMatches : c.Matches d)
    (hPerm : c.dependencies.Perm d.dependencies)
    (hTidy : c.IsTidy)
    (hOrder :
      c.dependencies = d.dependencies ∨
        Generation.Apart w'.files c.sourceDir destination
          c.dependencies)
    (hAlike : w.Alike v)
    (hRun : c.generating destination w = (.ok generation, w')) :
    ∃ v', d.generating destination v = (.ok generation, v') ∧
      w'.Alike v' := by
  rcases hOrder with hSame | hApart
  · exact (hMatches.generating hSame destination).eq_ok hAlike hRun
  rcases Job.bind_eq_ok hRun with ⟨_, w₁, hMake, hGenerate⟩
  rcases (Job.agree_edit _ _).eq_ok hAlike hMake with
    ⟨v₁, hMake', hAlike₁⟩
  rcases (Generation.agree_generate _ _ _).eq_ok hAlike₁ hGenerate
    with ⟨v', hGenerate', hAfter⟩
  rw [hAfter.files_eq] at hApart
  refine ⟨v', ?_, hAfter⟩
  rw [generating, ← hMatches.sourceDir_eq, Job.bind_of_ok hMake']
  exact
    Generation.generate_of_perm hPerm (fun _ => hTidy.isSpelled)
      hApart hGenerate'

/-
  Wherever files are generated from the same originals, which are
  not written over, the same is recorded.
-/
theorem generation_eq_of_generating
    {generation' : Generation}
    {v' : Workspace}
    (hSource : c.sourceDir = d.sourceDir)
    (hPerm : c.dependencies.Perm d.dependencies)
    (hTidy : c.IsTidy)
    (hOrder :
      c.dependencies = d.dependencies ∨
        Generation.Apart w'.files c.sourceDir destination
          c.dependencies)
    (hKept :
      Generation.SameOriginals c.sourceDir c.dependencies w.files
        w'.files)
    (hKept' :
      Generation.SameOriginals d.sourceDir d.dependencies v.files
        v'.files)
    (hSame :
      Generation.SameOriginals c.sourceDir c.dependencies w'.files
        v'.files)
    (hRun : c.generating destination w = (.ok generation, w'))
    (hRun' : d.generating destination v = (.ok generation', v')) :
    generation = generation' := by
  rcases Job.bind_eq_ok hRun with ⟨_, w₁, hMake, hGenerate⟩
  rcases Job.bind_eq_ok hRun' with ⟨_, v₁, hMake', hGenerate'⟩
  have hSpelled : ∀ e ∈ c.dependencies, e.file.IsSpelled :=
    fun _ => hTidy.isSpelled
  have hSpelled' : ∀ e ∈ d.dependencies, e.file.IsSpelled :=
    fun e he => hSpelled e (hPerm.mem_iff.mpr he)
  have hOther :
      Generation.generate d.dependencies c.sourceDir destination
          w₁ =
        (.ok generation, w') := by
    rcases hOrder with hDependencies | hApart
    · rw [← hDependencies]
      exact hGenerate
    · exact
        Generation.generate_of_perm hPerm hSpelled hApart hGenerate
  rw [hSource] at hKept hSame hOther
  rw [Generation.generate_records hSpelled' hMake
      (hKept.perm hPerm) hOther,
    Generation.generate_records hSpelled' hMake' hKept' hGenerate',
    (hSame.perm hPerm).recordAll_eq hSpelled']

/- Composers with the same settings find out the same. -/
theorem survey_beside
    (hMatches : c.Matches d)
    (hReady : d.stage ∈ ready)
    (hCopy : w.files.exists? c.sourceDir = true)
    (hAlike : w.Alike v)
    (hFinding : c.copied.finding features w = (.ok found, w')) :
    ∃ v', survey features d v = ((.ok (), d.surveyed found), v') ∧
      w'.Alike v' := by
  have hCopied : c.copied.Matches d.copied :=
    SameParts.carry (.copied c) (.copied d) hMatches
  have hCopy' : v.files.exists? d.sourceDir = true := by
    rw [← hAlike.files_eq, ← hMatches.sourceDir_eq]
    exact hCopy
  rcases (hCopied.finding features).eq_ok hAlike hFinding with
    ⟨v', hFinding', hAfter⟩
  exact ⟨v', survey_of_finding hReady hCopy' hFinding', hAfter⟩

end Composer

end Variability
