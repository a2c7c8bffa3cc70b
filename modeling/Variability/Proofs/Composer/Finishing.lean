import Variability.Proofs.Composer.Independence
import Variability.Proofs.Composer.Steps
import Variability.Proofs.Scanner.Reordering

/-
  The last step of a composition.

  The conditions of files are read once and remembered. As long
  as the file that states them stays the same, a composer that
  remembers them finds out what one that reads them does. The
  conditions of lines are extracted anew, in whatever space and
  in whatever order, as long as the order does not show.

  Main declarations:
    * `Composer.States`
    * `Composer.Remembers`
    * `Composer.Shares`
    * `Composer.Discovers`, `Composer.Discovers.beside`
    * `Composition.Alike`
    * `Composer.finish_beside`
    * `Composer.KeepsOriginals`, `Composer.KeepsOriginals.beside`
-/

namespace Variability

namespace Composer

variable {c c' d : Composer}
variable {w w' v : Workspace}
variable {facts : Except FileError String}

------------------------------------------------------------
-- Conditions of Files
------------------------------------------------------------

/- Some conditions are what the text in the file states. -/
def States
    (facts : Except FileError String)
    (c : Composer)
    (files : FileConditions) : Prop :=
  ∃ p text log, c.config.fileConditions = some p ∧
    facts = .ok text ∧
    FileConditions.ofJson c.sourceDir c.strategy.optionStart
        c.model text =
      (.ok files, log)

/- What a composer remembers is what the file states. -/
def Remembers
    (facts : Except FileError String)
    (c : Composer) : Prop :=
  ∀ files, c.fileConditions = some files → States facts c files

/- A workspace in which the file is as it was. -/
def Finds
    (facts : Except FileError String)
    (c : Composer)
    (w : Workspace) : Prop :=
  ∀ p, c.config.fileConditions = some p →
    w.files.readText p = facts

theorem Matches.states
    (hMatches : c.Matches d)
    {files : FileConditions}
    (hStates : States facts c files) :
    States facts d files := by
  rcases hStates with ⟨p, text, log, hPath, hFacts, hRead⟩
  refine ⟨p, text, log, hMatches.config_eq ▸ hPath, hFacts, ?_⟩
  rw [← hMatches.sourceDir_eq, ← hMatches.model_eq,
    ← hMatches.strategy.optionStart_eq]
  exact hRead

/- Nothing is read, or what is read or remembered is stated. -/
theorem readFileConditions_eq_ok
    {read : Option FileConditions}
    (hRemembers : Remembers facts c)
    (hFinds : Finds facts c w)
    (hRun : c.readFileConditions w = (.ok read, w')) :
    (∃ log, w' = { w with log }) ∧
      ((read = none ∧ c.config.fileConditions = none) ∨
        ∃ files, read = some files ∧ States facts c files) := by
  unfold readFileConditions at hRun
  cases hKnown : c.fileConditions with
  | some files =>
      rw [hKnown] at hRun
      cases hRun
      exact
        ⟨⟨w.log, rfl⟩, .inr ⟨files, rfl, hRemembers files hKnown⟩⟩
  | none =>
      rw [hKnown] at hRun
      cases hPath : c.config.fileConditions with
      | none =>
          rw [hPath] at hRun
          cases hRun
          exact ⟨⟨w.log, rfl⟩, .inl ⟨rfl, rfl⟩⟩
      | some p =>
          rw [hPath] at hRun
          rcases Job.bind_eq_ok hRun with
            ⟨text, w₁, hLook, hRest⟩
          rcases Job.look_eq_ok hLook with ⟨hText, rfl⟩
          rcases hResult :
            FileConditions.ofJson c.sourceDir
              c.strategy.optionStart c.model text with
            ⟨e | files, log⟩ <;>
            rw [hResult] at hRest <;> cases hRest
          refine
            ⟨⟨_, rfl⟩,
              .inr ⟨files, rfl, p, text, log, hPath, ?_, hResult⟩⟩
          rw [← hFinds p hPath, hText]

/- A composer that remembers nothing reads what the file states. -/
theorem readFileConditions_of_states
    {files : FileConditions}
    (hNew : c.fileConditions = none)
    (hFinds : Finds facts c w)
    (hStates : States facts c files) :
    ∃ log, c.readFileConditions w =
      (.ok (some files), { w with log }) := by
  rcases hStates with ⟨p, text, log, hPath, hFacts, hRead⟩
  have hLook : Job.look p (·.readText p) w = (.ok text, w) :=
    Job.look_of_ok ((hFinds p hPath).trans hFacts)
  refine ⟨w.log ++ log, ?_⟩
  unfold readFileConditions
  rw [hNew, hPath]
  dsimp only
  rw [Job.bind_of_ok hLook, hRead]
  rfl

theorem readFileConditions_of_none
    (hNew : c.fileConditions = none)
    (hNone : c.config.fileConditions = none)
    (w : Workspace) :
    c.readFileConditions w = (.ok none, w) := by
  unfold readFileConditions
  rw [hNew, hNone]
  rfl

------------------------------------------------------------
-- Conditions of Lines
------------------------------------------------------------

/- The files and programs stay, and so does that a space is reached. -/
structure Stays (w w' : Workspace) : Prop where
  files_eq : w'.files = w.files
  programs_eq : w'.programs = w.programs
  searchPath_eq : w'.searchPath = w.searchPath
  cancelled_eq : w'.cancelled = w.cancelled
  reached : w.space.Reached → w'.space.Reached

namespace Stays

theorem refl (w : Workspace) : Stays w w :=
  ⟨rfl, rfl, rfl, rfl, id⟩

theorem trans
    {w₁ w₂ w₃ : Workspace}
    (hFirst : Stays w₁ w₂)
    (hSecond : Stays w₂ w₃) :
    Stays w₁ w₃ :=
  ⟨hSecond.files_eq.trans hFirst.files_eq,
    hSecond.programs_eq.trans hFirst.programs_eq,
    hSecond.searchPath_eq.trans hFirst.searchPath_eq,
    hSecond.cancelled_eq.trans hFirst.cancelled_eq,
    hSecond.reached ∘ hFirst.reached⟩

theorem log (w : Workspace) (log : Log) :
    Stays w { w with log } :=
  ⟨rfl, rfl, rfl, rfl, id⟩

/- Workspaces that are alike are so if they stay as they are. -/
theorem alike
    {v' : Workspace}
    (hLeft : Stays w w')
    (hRight : Stays v v')
    (hAlike : w.Alike v) :
    w'.Alike v' where
  files_eq := by
    rw [hLeft.files_eq, hRight.files_eq, hAlike.files_eq]
  programs_eq := by
    rw [hLeft.programs_eq, hRight.programs_eq,
      hAlike.programs_eq]
  searchPath_eq := by
    rw [hLeft.searchPath_eq, hRight.searchPath_eq,
      hAlike.searchPath_eq]
  cancelled_eq := by
    rw [hLeft.cancelled_eq, hRight.cancelled_eq,
      hAlike.cancelled_eq]
  left := hLeft.reached hAlike.left
  right := hRight.reached hAlike.right

end Stays

theorem stays_check : Job.Moves Stays Job.check := by
  intro w
  cases hCancelled : w.cancelled with
  | false =>
      rw [Job.check_apply hCancelled]
      exact .refl w
  | true =>
      rw [Job.check_of_cancelled hCancelled]
      exact .refl w

theorem stays_extractLines (c : Composer) (i : Inclusion) :
    Job.Moves Stays (c.extractLines i) := by
  intro w
  exact
    ⟨rfl, rfl, rfl, rfl, fun hReached =>
      LineConditions.reached_extract hReached
        (c.context w.files) i⟩

theorem stays_lineConditions
    (c : Composer)
    (is : List Inclusion) :
    Job.Moves Stays (c.lineConditions is) := by
  induction is with
  | nil => exact .pure Stays.refl _
  | cons i is ih =>
      have hRest :
          ∀ h : List (Path × LineConditions) × List Path →
              List (Path × LineConditions) × List Path,
            Job.Moves Stays
              (c.lineConditions is >>= fun out =>
                pure (h out)) :=
        fun h => .bind Stays.trans ih fun _ => .pure Stays.refl _
      unfold lineConditions
      refine .bind Stays.trans stays_check fun _ => ?_
      refine .bind Stays.trans (fun w => Stays.refl w) fun w => ?_
      split
      · split
        · exact hRest _
        · exact
            .bind Stays.trans (stays_extractLines c i) fun _ =>
              hRest _
      · exact ih

/- The settings and the generated files tell what is extracted. -/
theorem lineConditions_congr
    (hMatches : c.Matches d)
    (hGeneration : c.generation = d.generation)
    (is : List Inclusion) :
    c.lineConditions is = d.lineConditions is := by
  have hGenerated : c.isGenerated = d.isGenerated := by
    funext t i
    unfold isGenerated
    rw [hMatches.sourceDir_eq, hGeneration]
  have hExcluded : c.isExcluded = d.isExcluded := by
    funext p
    unfold isExcluded
    rw [hMatches.config_eq]
  have hExtract : c.extractLines = d.extractLines := by
    funext i w
    unfold extractLines
    rw [hMatches.sourceDir_eq, hMatches.model_eq,
      hMatches.strategy.naming_eq, hMatches.config_eq]
  induction is with
  | nil => rfl
  | cons i is ih =>
      simp only [lineConditions, hGenerated, hExcluded, hExtract,
        ih]

/-
  What is extracted in one space is extracted in any other, with
  formulas that have the same values. The order of the files does
  not matter as long as each path has the same last file.
-/
theorem lineConditions_alike
    {is js : List Inclusion}
    {lines : List (Path × LineConditions)}
    {excluded : List Path}
    (hAlike : w.Alike v)
    (hPerm : is.Perm js)
    (hLast : ∀ p, c.last? w.files is p = c.last? w.files js p)
    (hRun : c.lineConditions is w = (.ok (lines, excluded), w')) :
    ∃ lines' excluded' v',
      c.lineConditions js v = (.ok (lines', excluded'), v') ∧
        w'.Alike v' ∧
        ∀ sources whole,
          Presence.Alike (.make sources whole lines excluded)
            (.make sources whole lines' excluded') := by
  have hLeft := stays_lineConditions c is w
  have hRight := stays_lineConditions c js v
  cases hCancelled : w.cancelled with
  | true =>
      cases is with
      | nil =>
          cases hPerm.nil_eq
          cases hRun
          refine ⟨[], [], v, rfl, hAlike, fun sources whole => ?_⟩
          exact ⟨rfl, rfl, .refl _, fun p => .none⟩
      | cons i is =>
          have hFails :
              (c.lineConditions (i :: is) w).1 = .error .interrupted :=
            lineConditions_of_cancelled hCancelled
          rw [hRun] at hFails
          cases hFails
  | false =>
      have hFirst :=
        answers_lineConditions (c := c)
          ⟨rfl, hAlike.left, hCancelled⟩ is
      have hSecond :=
        answers_lineConditions (c := c)
          ⟨hAlike.files_eq.symm, hAlike.right,
            hAlike.cancelled_eq.symm.trans hCancelled⟩ js
      rw [hRun] at hFirst hLeft
      generalize c.lineConditions js v = done at hSecond hRight ⊢
      rcases done with ⟨e | ⟨lines', excluded'⟩, v'⟩
      · rcases hSecond.fails hFirst hPerm.symm with ⟨e', hFails⟩
        cases hFails
      · exact
          ⟨lines', excluded', v', rfl, hLeft.alike hRight hAlike,
            hFirst.alike hSecond hPerm hLast⟩

------------------------------------------------------------
-- Presence
------------------------------------------------------------

theorem stays_look
    {α : Type}
    (p : Path)
    (look : FileTree → Except FileError α) :
    Job.Moves Stays (Job.look p look) := by
  refine .bind Stays.trans (fun w => Stays.refl w) fun w => ?_
  split
  · exact .pure Stays.refl _
  · exact fun w => Stays.refl w

theorem stays_record (records : Log) :
    Job.Moves Stays (Job.record records) :=
  fun w => .log w _

theorem stays_readFileConditions (c : Composer) :
    Job.Moves Stays c.readFileConditions := by
  unfold readFileConditions
  cases c.fileConditions with
  | some files => exact .pure Stays.refl _
  | none =>
      cases c.config.fileConditions with
      | none => exact .pure Stays.refl _
      | some p =>
          refine .bind Stays.trans (stays_look p _) fun text => ?_
          rcases FileConditions.ofJson c.sourceDir
            c.strategy.optionStart c.model text with
            ⟨e | files, log⟩
          · exact
              .bind Stays.trans (stays_record log) fun _ =>
                fun w => Stays.refl w
          · exact
              .bind Stays.trans (stays_record log) fun _ =>
                .pure Stays.refl _

theorem stays_findPresence
    (c : Composer)
    (sources : SourceMap) :
    Job.Moves Stays (c.findPresence sources) := by
  unfold findPresence
  split
  · exact .pure Stays.refl _
  · refine .bind Stays.trans (stays_readFileConditions c) fun read => ?_
    cases read with
    | none =>
        exact
          .bind Stays.trans (stays_record _) fun _ =>
            .pure Stays.refl _
    | some files =>
        exact
          .bind Stays.trans (stays_lineConditions c _) fun _ =>
            .pure Stays.refl _

/- The files whose lines are asked for. -/
def compiledFiles (c : Composer) : List Inclusion :=
  c.dependencies.filterMap Dependency.inclusion?

theorem mem_compiledFiles
    {i : Inclusion}
    (hMem : i ∈ c.compiledFiles) :
    .compiled i ∈ c.dependencies := by
  rcases List.mem_filterMap.mp hMem with ⟨e, he, hSome⟩
  cases e with
  | compiled j =>
      cases hSome
      exact he
  | header p => cases hSome

/-
  The same dependencies. They are in the same order, or no two of
  them are generated at one path.
-/
structure Shares (c d : Composer) : Prop where
  perm : c.dependencies.Perm d.dependencies
  tidy : c.IsTidy
  order :
    c.dependencies = d.dependencies ∨
      ∀ e ∈ c.dependencies, ∀ f ∈ c.dependencies,
        e.target.same f.target = true → e = f

namespace Shares

/- The same file is the last one at each path. -/
theorem last?_eq
    (hShares : c.Shares d)
    (files : FileTree)
    (p : Path) :
    c.last? files c.compiledFiles p =
      c.last? files d.compiledFiles p := by
  rcases hShares.order with hSame | hApart
  · rw [compiledFiles, compiledFiles, hSame]
  have hPerm : c.compiledFiles.Perm d.compiledFiles :=
    hShares.perm.filterMap _
  refine last?_eq_of_perm ?_ hPerm p
  intro i hi j hj hPath
  have hNormal {k : Inclusion} (hk : k ∈ c.compiledFiles) :
      k.composedPath.normalize.components =
        k.composedPath.components := by
    have hFile : k.file.normalize = k.file :=
      hShares.tidy (.compiled k) (mem_compiledFiles hk)
    exact
      Path.components_normalize_eq
        (k.isNormal_composedPath
          (Path.isNormal_of_normalize_eq hFile))
  rw [Path.same_iff, hNormal hi, hNormal hj, ← Path.same_iff]
    at hPath
  have hBoth :=
    hApart _ (mem_compiledFiles hi) _ (mem_compiledFiles hj) hPath
  exact Dependency.compiled.inj hBoth

theorem ofList_entries_eq
    (hShares : c.Shares d)
    (directories : Inclusion → List Path) :
    Dict.ofList (SearchPaths.entries directories c.dependencies) =
      Dict.ofList
        (SearchPaths.entries directories d.dependencies) := by
  rcases hShares.order with hSame | hApart
  · rw [hSame]
  refine
    Dict.ofList_eq_of_perm ?_ ((hShares.perm.filterMap _).map _)
  intro entry he entry' he' hSame
  rcases (SearchPaths.mem_entries_iff _).mp he with ⟨i, hi, rfl⟩
  rcases (SearchPaths.mem_entries_iff _).mp he' with ⟨j, hj, rfl⟩
  rw [Path.compare_eq_iff_same] at hSame
  cases hApart _ hj _ hi hSame
  rfl

/- The search directories of all generated files are the same. -/
theorem searchPaths_eq
    (hShares : c.Shares d) :
    SearchPaths.ofDependencies c.dependencies =
      .ofDependencies d.dependencies := by
  rw [SearchPaths.ofDependencies_eq, SearchPaths.ofDependencies_eq,
    hShares.ofList_entries_eq, hShares.ofList_entries_eq]

end Shares

/-
  How presence is found: it is not asked for, nothing is known
  about files, or files and lines have conditions.
-/
inductive Discovers
    (c : Composer)
    (sources : SourceMap)
    (w : Workspace) :
    Option Presence → Option FileConditions → Workspace → Prop where
  | unasked
      (hAsked : c.config.presenceConditions = false) :
      Discovers c sources w none c.fileConditions w
  | unknown
      {between : Workspace}
      (hAsked : c.config.presenceConditions = true)
      (hRead : c.readFileConditions w = (.ok none, between)) :
      Discovers c sources w none none
        { between with log := between.log ++ [c.noFileConditions] }
  | known
      {between w' : Workspace}
      {files : FileConditions}
      {lines : List (Path × LineConditions)}
      {excluded : List Path}
      (hAsked : c.config.presenceConditions = true)
      (hRead : c.readFileConditions w = (.ok (some files), between))
      (hLines :
        c.lineConditions c.compiledFiles between =
          (.ok (lines, excluded), w')) :
      Discovers c sources w
        (some (.make sources files lines excluded)) (some files) w'

variable {sources : SourceMap}
variable {presence : Option Presence}
variable {read : Option FileConditions}

theorem discovers_of_findPresence
    (hRun : c.findPresence sources w = (.ok (presence, read), w')) :
    Discovers c sources w presence read w' := by
  unfold findPresence at hRun
  cases hAsked : c.config.presenceConditions with
  | false =>
      rw [hAsked] at hRun
      cases hRun
      exact .unasked hAsked
  | true =>
      rw [hAsked, if_neg (by simp)] at hRun
      rcases Job.bind_eq_ok hRun with
        ⟨found, between, hRead, hRest⟩
      cases found with
      | none =>
          cases hRest
          exact .unknown hAsked hRead
      | some files =>
          rcases Job.bind_eq_ok hRest with
            ⟨⟨lines, excluded⟩, v, hLines, hDone⟩
          cases hDone
          exact .known hAsked hRead hLines

theorem Discovers.findPresence
    (hDiscovers : Discovers c sources w presence read w') :
    c.findPresence sources w = (.ok (presence, read), w') := by
  unfold Composer.findPresence
  cases hDiscovers with
  | unasked hAsked =>
      rw [hAsked]
      rfl
  | unknown hAsked hRead =>
      rw [hAsked, if_neg (by simp), Job.bind_of_ok hRead]
      rfl
  | known hAsked hRead hLines =>
      rw [hAsked, if_neg (by simp), Job.bind_of_ok hRead]
      dsimp only
      rw [← compiledFiles, Job.bind_of_ok hLines]
      rfl

theorem Discovers.stays
    (hDiscovers : Discovers c sources w presence read w') :
    Stays w w' := by
  have hStays := stays_findPresence c sources w
  rw [hDiscovers.findPresence] at hStays
  exact hStays

/- What a composer remembers then is still what the file states. -/
theorem Discovers.states
    {files : FileConditions}
    (hDiscovers : Discovers c sources w presence (some files) w')
    (hRemembers : Remembers facts c)
    (hFinds : Finds facts c w) :
    States facts c files := by
  generalize hRead : some files = read at hDiscovers
  cases hDiscovers with
  | unasked => exact hRemembers files hRead.symm
  | unknown => cases hRead
  | known _ hFound =>
      cases hRead
      rcases readFileConditions_eq_ok hRemembers hFinds hFound with
        ⟨_, ⟨hNone, _⟩ | ⟨_, hSome, hStates⟩⟩
      · cases hNone
      · cases hSome
        exact hStates

/-
  A composer that remembers nothing finds out the same about
  presence as one that remembers what the file states.
-/
theorem Discovers.beside
    (hDiscovers : Discovers c sources w presence read w')
    (hMatches : c.Matches d)
    (hShares : c.Shares d)
    (hGeneration : c.generation = d.generation)
    (hRemembers : Remembers facts c)
    (hNew : d.fileConditions = none)
    (hFinds : Finds facts c w)
    (hAlike : w.Alike v) :
    ∃ presence' read' v',
      Discovers d sources v presence' read' v' ∧
        Option.Rel Presence.Alike presence presence' ∧
        w'.Alike v' := by
  have hConfig := hMatches.config_eq
  cases hDiscovers with
  | unasked hAsked =>
      exact
        ⟨none, _, v, .unasked (hConfig ▸ hAsked), .none, hAlike⟩
  | unknown hAsked hRead =>
      rcases readFileConditions_eq_ok hRemembers hFinds hRead with
        ⟨⟨log, rfl⟩, ⟨_, hNone⟩ | ⟨_, hSome, _⟩⟩
      · have hRead' :=
          readFileConditions_of_none hNew (hConfig ▸ hNone) v
        exact
          ⟨none, none, _, .unknown (hConfig ▸ hAsked) hRead',
            .none, Stays.alike (.log w _) (.log v _) hAlike⟩
      · cases hSome
  | @known _ _ files lines excluded hAsked hRead hLines =>
      rcases readFileConditions_eq_ok hRemembers hFinds hRead with
        ⟨⟨log, rfl⟩, ⟨hNone, _⟩ | ⟨_, hSome, hStates⟩⟩
      · cases hNone
      cases hSome
      have hFinds' : Finds facts d v := by
        intro p hPath
        rw [← hAlike.files_eq]
        exact hFinds p (hConfig ▸ hPath)
      rcases readFileConditions_of_states hNew hFinds'
        (hMatches.states hStates) with ⟨log', hRead'⟩
      rcases lineConditions_alike
        (Stays.alike (.log w log) (.log v log') hAlike)
        (hShares.perm.filterMap _) (hShares.last?_eq w.files)
        hLines with
        ⟨lines', excluded', v', hLines', hAfter, hPresence⟩
      rw [lineConditions_congr hMatches hGeneration] at hLines'
      exact
        ⟨_, some files, v',
          .known (hConfig ▸ hAsked) hRead' hLines',
          .some (hPresence sources files), hAfter⟩

end Composer

------------------------------------------------------------
-- Sources
------------------------------------------------------------

/- Markers are told by the sources of what is generated. -/
theorem SourceMap.readMarkers_congr
    {t t' : FileTree}
    {sourceDir : Path}
    {origins : List Origin}
    (hSame :
      ∀ o ∈ origins,
        t.status (sourceDir.join o.file) =
          t'.status (sourceDir.join o.file))
    (markers : Dict Path LineMap) :
    readMarkers t sourceDir origins markers =
      readMarkers t' sourceDir origins markers := by
  induction origins generalizing markers with
  | nil => rfl
  | cons o rest ih =>
      have hRead :
          t.readLossy (sourceDir.join o.file) =
            t'.readLossy (sourceDir.join o.file) := by
        rw [FileTree.readLossy, FileTree.read,
          hSame o List.mem_cons_self]
        rfl
      have hRest (known : Dict Path LineMap) :=
        ih (fun e he => hSame e (List.mem_cons_of_mem o he)) known
      rw [readMarkers, readMarkers, hRead]
      simp only [hRest]

/-
  What is generated from the same originals has the same sources,
  wherever it is put.
-/
theorem SourceMap.make_eq_of_generating
    {c : Composer}
    {w w' : Workspace}
    {t : FileTree}
    {destination : Path}
    {generation : Generation}
    (hTidy : c.IsTidy)
    (hRun : c.generating destination w = (.ok generation, w'))
    (hSame :
      Generation.SameOriginals c.sourceDir c.dependencies w'.files
        t) :
    SourceMap.make w'.files generation c.sourceDir =
      SourceMap.make t generation c.sourceDir := by
  rcases Job.bind_eq_ok hRun with ⟨_, w₁, -, hGenerate⟩
  rw [make, make]
  congr 1
  refine readMarkers_congr ?_ []
  intro o ho
  rcases List.mem_map.mp ho with ⟨entry, hEntry, rfl⟩
  rcases Generation.origin_eq_of_mem (fun _ => hTidy.isSpelled)
    hGenerate hEntry with ⟨e, he, hHere, hOrigin⟩
  have hFile : entry.2.file = e.file := by
    rw [hOrigin]
    cases e <;> rfl
  rw [hFile]
  exact hSame e he hHere

------------------------------------------------------------
-- Compositions
------------------------------------------------------------

/- Compositions that say the same, also about presence. -/
structure Composition.Alike (a b : Composition) : Prop where
  output_eq : a.output = b.output
  features_eq : a.features = b.features
  sources_eq : a.sources = b.sources
  searchPaths_eq : a.searchPaths = b.searchPaths
  presence : Option.Rel Presence.Alike a.presence b.presence

/- The conditions of all locations have the same values. -/
theorem Composition.Alike.condition
    {a b : Composition}
    (hAlike : a.Alike b)
    (l : Location) :
    Presence.Tells (a.condition l) (b.condition l) := by
  have hPresence := hAlike.presence
  unfold Composition.condition
  generalize a.presence = known at hPresence ⊢
  generalize b.presence = known' at hPresence ⊢
  cases hPresence with
  | none => exact .refl _
  | some h => exact h.condition l

namespace Composer

variable {c c' d : Composer}
variable {w w' v : Workspace}
variable {facts : Except FileError String}
variable {features : Features}
variable {destination : Path}
variable {presence : Option Presence}
variable {read : Option FileConditions}

/- The generated files and their sources. -/
def sourcesIn (c : Composer) (w : Workspace) : SourceMap :=
  .make w.files c.generation c.sourceDir

/- What a composer answers with, if it has found out about presence. -/
def composition
    (c : Composer)
    (features : Features)
    (destination : Path)
    (sources : SourceMap)
    (presence : Option Presence) :
    Composition where
  output := destination
  features
  sources
  presence
  searchPaths := .ofDependencies c.dependencies

/- The last step, by what is found out about presence. -/
theorem finish_eq_ok
    {answer : Composition}
    (hRun :
      finish features destination c w = ((.ok answer, c'), w')) :
    c.stage = .generated ∧
      ∃ presence read,
        Discovers c (c.sourcesIn w) w presence read w' ∧
        answer =
          c.composition features destination (c.sourcesIn w)
            presence ∧
        c' = { c with stage := .composed, fileConditions := read } := by
  by_cases hStage : c.stage = .generated
  · rw [finish, step_apply _ hStage, Job.get_bind_apply,
      Job.bind_apply] at hRun
    rw [← sourcesIn] at hRun
    rcases hFound : c.findPresence (c.sourcesIn w) w with
      ⟨e | ⟨presence, read⟩, v⟩ <;>
      rw [hFound] at hRun <;> cases hRun
    exact
      ⟨hStage, presence, read, discovers_of_findPresence hFound,
        rfl, rfl⟩
  · rw [finish,
      (leads_step _ _ _).refuses c w (by simpa using hStage)]
      at hRun
    cases hRun

theorem Discovers.finish
    (hDiscovers :
      Discovers c (c.sourcesIn w) w presence read w')
    (hStage : c.stage = .generated)
    (features : Features)
    (destination : Path) :
    finish features destination c w =
      ((.ok (c.composition features destination (c.sourcesIn w)
          presence),
        { c with stage := .composed, fileConditions := read }),
        w') := by
  rw [Composer.finish, step_apply _ hStage, Job.get_bind_apply,
    Job.bind_apply, ← sourcesIn, hDiscovers.findPresence]
  rfl

/-
  The last step after the same was generated: a composer that
  remembers what the file states answers as one that remembers
  nothing.
-/
theorem finish_beside
    {answer : Composition}
    (hMatches : c.Matches d)
    (hStage : d.stage = .generated)
    (hShares : c.Shares d)
    (hGeneration : c.generation = d.generation)
    (hRemembers : Remembers facts c)
    (hNew : d.fileConditions = none)
    (hFinds : Finds facts c w)
    (hAlike : w.Alike v)
    (hRun :
      finish features destination c w = ((.ok answer, c'), w')) :
    ∃ answer' d' v',
      finish features destination d v = ((.ok answer', d'), v') ∧
        answer.Alike answer' ∧
        d'.dependencies = d.dependencies ∧
        d'.generation = d.generation ∧ w'.Alike v' := by
  rcases finish_eq_ok hRun with
    ⟨_, presence, read, hDiscovers, rfl, rfl⟩
  have hSources : c.sourcesIn w = d.sourcesIn v := by
    unfold sourcesIn
    rw [hAlike.files_eq, hGeneration, hMatches.sourceDir_eq]
  rcases hDiscovers.beside hMatches hShares hGeneration hRemembers
    hNew hFinds hAlike with
    ⟨presence', read', v', hDiscovers', hPresence, hAfter⟩
  rw [hSources] at hDiscovers'
  exact
    ⟨_, _, v', hDiscovers'.finish hStage _ _,
      ⟨rfl, rfl, hSources, hShares.searchPaths_eq, hPresence⟩, rfl,
      rfl, hAfter⟩

/- The last step changes no files and keeps what was found out. -/
theorem finish_keeps
    {features : Features}
    {destination : Path}
    {answer : Composition}
    (hRun :
      finish features destination c w = ((.ok answer, c'), w')) :
    c'.dependencies = c.dependencies ∧
      c'.generation = c.generation ∧ w'.files = w.files := by
  rcases finish_eq_ok hRun with
    ⟨_, presence, read, hDiscovers, -, rfl⟩
  exact ⟨rfl, rfl, hDiscovers.stays.files_eq⟩

------------------------------------------------------------
-- The Same Originals
------------------------------------------------------------

theorem ready_of_compose
    {answer : Composition}
    (hRun :
      compose features destination c w = ((.ok answer, c'), w')) :
    c.stage ∈ ready := by
  by_contra hOther
  rw [compose_eq, bind_apply,
    (leads_approach features destination).refuses c w hOther]
    at hRun
  cases hRun

/- What a composition that succeeds has generated, and what it says. -/
theorem compose_eq_ok
    {answer : Composition}
    (hCopy : w.files.exists? c.sourceDir = true)
    (hRun :
      compose features destination c w = ((.ok answer, c'), w')) :
    ∃ found between w₁,
      survey features c w =
          ((.ok (), c.surveyed found), between) ∧
        (c.surveyed found).IsTidy ∧
        generating destination (c.surveyed found) between =
          (.ok c'.generation, w₁) ∧
        c'.dependencies = (c.surveyed found).dependencies ∧
        w'.files = w₁.files ∧
        answer.output = destination ∧
        answer.features = features ∧
        answer.sources =
          .make w'.files c'.generation c.sourceDir ∧
        answer.searchPaths = .ofDependencies c'.dependencies := by
  have hReady := ready_of_compose hRun
  rw [compose_eq] at hRun
  rcases bind_eq_ok hRun with ⟨_, c₁, w₁, hApproach, hFinish⟩
  rcases approach_eq_ok hReady hCopy hApproach with
    ⟨found, between, generation, hFinding, hSurvey, hGenerate,
      rfl⟩
  rcases finish_keeps hFinish with ⟨hFound, hMade, hFiles⟩
  rcases finish_eq_ok hFinish with
    ⟨_, presence, read, hDiscovers, rfl, rfl⟩
  refine
    ⟨found, between, w₁, hSurvey, isTidy_surveyed hFinding,
      hGenerate, hFound, hFiles, rfl, rfl, ?_, rfl⟩
  rw [hFiles]
  exact
    congrArg (SourceMap.make w₁.files generation)
      (SameParts.produced c found generation).sourceDir_eq

/-
  A composition on the copy that is there, which leaves the
  originals of what it has found as they are.
-/
structure KeepsOriginals
    (features : Features)
    (destination : Path)
    (c : Composer)
    (w : Workspace)
    (answer : Composition)
    (c' : Composer)
    (w' : Workspace) : Prop where
  copy : w.files.exists? c.sourceDir = true
  run : compose features destination c w = ((.ok answer, c'), w')
  kept :
    ∀ c₁ between, survey features c w = ((.ok (), c₁), between) →
      Generation.SameOriginals c.sourceDir c'.dependencies
        between.files w'.files

/-
  Two compositions that have found the same, with the same
  originals, say the same, whatever else there is in their trees
  and whatever the composers remember.
-/
theorem KeepsOriginals.beside
    {answer answer' : Composition}
    {d' : Composer}
    {v' : Workspace}
    (hKeeps :
      KeepsOriginals features destination c w answer c' w')
    (hKeeps' :
      KeepsOriginals features destination d v answer' d' v')
    (hSource : c.sourceDir = d.sourceDir)
    (hPerm : c'.dependencies.Perm d'.dependencies)
    (hOrder :
      c'.dependencies = d'.dependencies ∨
        Generation.Apart w'.files c.sourceDir destination
          c'.dependencies)
    (hSame :
      Generation.SameOriginals c.sourceDir c'.dependencies w'.files
        v'.files) :
    answer.output = answer'.output ∧
      answer.features = answer'.features ∧
      answer.sources = answer'.sources ∧
      answer.searchPaths = answer'.searchPaths ∧
      c'.generation = d'.generation := by
  rcases compose_eq_ok hKeeps.copy hKeeps.run with
    ⟨found, between, w₁, hSurvey, hTidy, hGenerate, hFound, hFiles,
      hOutput, hFeatures, hSources, hPaths⟩
  rcases compose_eq_ok hKeeps'.copy hKeeps'.run with
    ⟨found', between', v₁, hSurvey', -, hGenerate', hFound',
      hFiles', hOutput', hFeatures', hSources', hPaths'⟩
  have hKept := hKeeps.kept _ _ hSurvey
  have hKept' := hKeeps'.kept _ _ hSurvey'
  have hDir := (SameParts.surveyed c found).sourceDir_eq
  have hDir' := (SameParts.surveyed d found').sourceDir_eq
  rw [hFound, hFiles, ← hDir] at hKept
  rw [hFound', hFiles', ← hDir'] at hKept'
  rw [hFound, hFound'] at hPerm hOrder
  rw [hFound, hFiles, hFiles', ← hDir] at hSame
  rw [hFiles, ← hDir] at hOrder
  have hSource' :
      (c.surveyed found).sourceDir =
        (d.surveyed found').sourceDir := by
    rw [hDir, hDir', hSource]
  have hGeneration : c'.generation = d'.generation :=
    generation_eq_of_generating hSource' hPerm hTidy hOrder hKept
      hKept' hSame hGenerate hGenerate'
  have hShares : (c.surveyed found).Shares (d.surveyed found') :=
    ⟨hPerm, hTidy, hOrder.imp_right Generation.Apart.targets⟩
  refine
    ⟨hOutput.trans hOutput'.symm, hFeatures.trans hFeatures'.symm,
      ?_, ?_, hGeneration⟩
  · rw [hSources, hSources', ← hSource, ← hGeneration, hFiles,
      hFiles', ← hDir]
    exact SourceMap.make_eq_of_generating hTidy hGenerate hSame
  · rw [hPaths, hPaths', hFound, hFound']
    exact hShares.searchPaths_eq

end Composer

end Variability
