import Variability.FileTree.Copy
import Variability.Generation
import Variability.Proofs.Condition.Space
import Variability.Proofs.Job.Running
import Variability.Scanner
import Variability.Strategy

/-
  Jobs that do the same in workspaces that are alike.

  What a job does with files and programs depends on these and on
  whether it was cancelled. It depends neither on what was logged
  or called before nor on the space of conditions.

  Main declarations:
    * `Workspace.Alike`
    * `Job.Agree`
    * `Strategy.agree_ofSystem`
    * `Scanner.agree_ofCompiler`
    * `Generation.agree_generate`
-/

namespace Variability

------------------------------------------------------------
-- Workspaces
------------------------------------------------------------

/- Workspaces with the same files and programs. -/
structure Workspace.Alike (w w' : Workspace) : Prop where
  files_eq : w.files = w'.files
  programs_eq : w.programs = w'.programs
  searchPath_eq : w.searchPath = w'.searchPath
  cancelled_eq : w.cancelled = w'.cancelled
  left : w.space.Reached
  right : w'.space.Reached

theorem Workspace.Alike.refl
    {w : Workspace}
    (hReached : w.space.Reached) :
    w.Alike w :=
  ⟨rfl, rfl, rfl, rfl, hReached, hReached⟩

namespace Job

variable {α β : Type}
variable {f f' : Job α}
variable {g g' : α → Job β}

/-
  Two jobs give the same and change files in the same way. A job
  that agrees with itself is told by files and programs.
-/
def Agree (f f' : Job α) : Prop :=
  ∀ w w', w.Alike w' →
    (f w).1 = (f' w').1 ∧ (f w).2.Alike (f' w').2

------------------------------------------------------------
-- Parts
------------------------------------------------------------

namespace Agree

theorem pure (a : α) :
    Agree (Pure.pure a : Job α) (Pure.pure a) :=
  fun _ _ hAlike => ⟨rfl, hAlike⟩

theorem throw (e : Fault) :
    Agree (MonadExcept.throw e : Job α)
      (MonadExcept.throw e) :=
  fun _ _ hAlike => ⟨rfl, hAlike⟩

theorem bind
    (hf : Agree f f')
    (hg : ∀ a, Agree (g a) (g' a)) :
    Agree (f >>= g) (f' >>= g') := by
  intro w w' hAlike
  rcases hf w w' hAlike with ⟨hValue, hAfter⟩
  rw [bind_apply, bind_apply]
  generalize f w = first at hValue hAfter ⊢
  generalize f' w' = first' at hValue hAfter ⊢
  rcases first with ⟨e | a, between⟩ <;>
    rcases first' with ⟨e' | a', between'⟩ <;>
    cases hValue
  · exact ⟨rfl, hAfter⟩
  · exact hg a between between' hAfter

/- The workspaces that are asked for are alike. -/
theorem get
    {g g' : Workspace → Job β}
    (hg : ∀ w w', w.Alike w' → Agree (g w) (g' w')) :
    Agree (MonadState.get >>= g) (MonadState.get >>= g') :=
  fun w w' hAlike => hg w w' hAlike w w' hAlike

/- A job that succeeds is one with which the other does. -/
theorem eq_ok
    {a : α}
    {w w' v : Workspace}
    (hf : Agree f f')
    (hAlike : w.Alike w')
    (hRun : f w = (.ok a, v)) :
    ∃ v', f' w' = (.ok a, v') ∧ v.Alike v' := by
  rcases hf w w' hAlike with ⟨hValue, hAfter⟩
  rw [hRun] at hValue hAfter
  generalize f' w' = done at hValue hAfter ⊢
  rcases done with ⟨result, v'⟩
  cases hValue
  exact ⟨v', rfl, hAfter⟩

/- A job that agrees with itself keeps spaces reached. -/
theorem reached
    {w : Workspace}
    (hf : Agree f f)
    (hReached : w.space.Reached) :
    (f w).2.space.Reached :=
  (hf w w (.refl hReached)).2.left

end Agree

------------------------------------------------------------
-- Files and Programs
------------------------------------------------------------

theorem agree_record (records : Log) :
    Agree (record records) (record records) :=
  fun _ _ h =>
    ⟨rfl, h.files_eq, h.programs_eq, h.searchPath_eq,
      h.cancelled_eq, h.left, h.right⟩

theorem agree_edit
    (p : Path)
    (change : InTree α) :
    Agree (edit p change) (edit p change) := by
  intro w w' h
  unfold edit
  rw [← h.files_eq]
  rcases change w.files with ⟨_ | _, files⟩ <;>
    exact
      ⟨rfl, rfl, h.programs_eq, h.searchPath_eq,
        h.cancelled_eq, h.left, h.right⟩

theorem agree_look
    (p : Path)
    (look : FileTree → Except FileError α) :
    Agree (Job.look p look) (Job.look p look) := by
  apply Agree.get
  intro w w' h
  rw [h.files_eq]
  split
  · exact .pure _
  · exact .throw _

theorem agree_check : Agree check check := by
  apply Agree.get
  intro w w' h
  rw [h.cancelled_eq]
  split
  · exact .throw _
  · exact .pure _

/- A program is given the call and the files only. -/
theorem agree_run (c : Call) :
    Agree (run c) (run c) := by
  refine .bind agree_check fun _ => .get ?_
  intro w w' h
  have hSame : programOf w c = programOf w' c := by
    unfold programOf Workspace.program?
    rw [h.files_eq, h.programs_eq, h.searchPath_eq]
  rw [hSame]
  split
  · exact .throw _
  · rename_i program hProgram
    intro v v' h'
    rw [h.files_eq]
    exact
      ⟨rfl, rfl, h.programs_eq, h.searchPath_eq,
        h.cancelled_eq, h.left, h.right⟩

theorem agree_runChecked (c : Call) :
    Agree (runChecked c) (runChecked c) := by
  refine .bind (agree_run c) fun report => ?_
  split
  · exact .pure _
  · exact .throw _

end Job

open Job

------------------------------------------------------------
-- External Steps
------------------------------------------------------------

namespace Strategy

/- Builds of one system that do the same. -/
structure Agree (s s' : Strategy) : Prop where
  name_eq : s.name = s'.name
  naming_eq : s.naming = s'.naming
  optionStart_eq : s.optionStart = s'.optionStart
  clean : ∀ dir, Job.Agree (s.clean dir) (s'.clean dir)
  configure :
    ∀ dir, Job.Agree (s.configure dir) (s'.configure dir)
  complete :
    ∀ dir, Job.Agree (s.complete dir) (s'.complete dir)
  prepare : ∀ dir, Job.Agree (s.prepare dir) (s'.prepare dir)
  trace : ∀ dir, Job.Agree (s.trace dir) (s'.trace dir)

theorem agree_make
    (program : String)
    (arguments : List String)
    (dir : Path) :
    Job.Agree (make program arguments dir)
      (make program arguments dir) :=
  .bind (agree_runChecked _) fun _ => .pure _

theorem agree_makeTraced
    (program : String)
    (arguments : List String)
    (dir : Path) :
    Job.Agree (makeTraced program arguments dir)
      (makeTraced program arguments dir) :=
  .bind (agree_runChecked _) fun _ => .pure _

theorem agree_common
    (name : String)
    (naming : FeatureNaming)
    (program : String) :
    (common name naming program).Agree
      (common name naming program) where
  name_eq := rfl
  naming_eq := rfl
  optionStart_eq := rfl
  clean := agree_make program _
  configure := agree_make program _
  complete := agree_make program _
  prepare := fun _ => .pure _
  trace := agree_makeTraced program _

theorem agree_removeIfThere (p : Path) :
    Job.Agree (removeIfThere p) (removeIfThere p) := by
  apply Job.Agree.get
  intro w w' h
  rw [h.files_eq]
  split
  · exact .pure _
  · exact .pure _
  · exact agree_edit p _

theorem agree_patchScript (dir : Path) :
    Job.Agree (patchScript dir) (patchScript dir) := by
  refine .bind (agree_look _ _) fun script => ?_
  dsimp only
  split
  · exact agree_edit _ _
  · exact .pure _

/- Every system is built by programs. -/
theorem agree_ofSystem
    (system : BuildSystem)
    (program : String) :
    (ofSystem system program).Agree
      (ofSystem system program) := by
  cases system with
  | busybox =>
      exact
        { agree_common _ _ program with
          clean := fun dir =>
            .bind (agree_make program _ dir) fun _ =>
              agree_make program _ dir
          prepare := fun dir =>
            .bind (agree_make program _ dir) fun _ =>
              agree_removeIfThere _ }
  | linux => exact agree_common _ _ program
  | toybox =>
      exact
        { agree_common _ _ program with
          prepare := agree_patchScript
          trace := agree_makeTraced program _ }
  | generic => exact agree_common _ _ program

end Strategy

namespace Scanner

/- Scanners that do the same. -/
def Agree (s s' : Scanner) : Prop :=
  ∀ i dir, Job.Agree (s i dir) (s' i dir)

theorem agree_ofCompiler (compiler : String) :
    Agree (ofCompiler compiler) (ofCompiler compiler) := by
  intro i dir
  refine .bind (agree_run _) fun report => ?_
  split
  · exact .pure _
  · exact .bind (agree_record _) fun _ => .throw _

/- What is found out depends on what the scanners answer. -/
theorem Agree.resolveFrom
    {s s' : Scanner}
    (hAgree : Agree s s')
    (dir : Path)
    (set : List Dependency)
    (is : List Inclusion) :
    Job.Agree (s.resolveFrom dir set is)
      (s'.resolveFrom dir set is) := by
  induction is generalizing set with
  | nil => exact .pure _
  | cons i is ih =>
      refine .bind agree_check fun _ => .get ?_
      intro w w' h
      rw [h.files_eq]
      split
      · exact .bind (hAgree i dir) fun _ => ih _
      · exact .bind (agree_record _) fun _ => ih _

end Scanner

------------------------------------------------------------
-- Steps of Compositions
------------------------------------------------------------

theorem DotConfig.agree_write
    (p : Path)
    (features : Features)
    (ignore : String → Bool) :
    Job.Agree (DotConfig.write p features ignore)
      (DotConfig.write p features ignore) :=
  .bind (agree_look p _) fun _ => agree_edit p _

theorem DotConfig.agree_verify
    (p : Path)
    (features : Features)
    (ignore : String → Bool) :
    Job.Agree (DotConfig.verify p features ignore)
      (DotConfig.verify p features ignore) :=
  .bind (agree_look p _) fun _ =>
    .bind (agree_record _) fun _ => .pure _

namespace Generation

theorem agree_writeCompiled
    (source destination : Path)
    (i : Inclusion) :
    Job.Agree (writeCompiled source destination i)
      (writeCompiled source destination i) :=
  .bind (agree_look source _) fun _ =>
    .bind (agree_edit _ _) fun _ => .pure _

theorem agree_writeEach
    (source destination file : Path)
    (copied : Bool)
    (dependencies : List Dependency) :
    Job.Agree
      (writeEach source destination file copied dependencies)
      (writeEach source destination file copied
        dependencies) := by
  induction dependencies generalizing copied with
  | nil => exact .pure _
  | cons d dependencies ih =>
      cases d with
      | compiled i =>
          exact
            .bind (agree_writeCompiled _ _ i) fun _ =>
              .bind (ih copied) fun _ => .pure _
      | header p =>
          unfold writeEach
          split
          · exact ih copied
          · refine .bind ?_ fun _ => .bind (ih true) fun _ => .pure _
            exact .bind (agree_edit _ _) fun _ => .pure _

theorem agree_writeFile
    (sourceDir destination file : Path)
    (dependencies : List Dependency) :
    Job.Agree
      (writeFile sourceDir destination file dependencies)
      (writeFile sourceDir destination file dependencies) := by
  apply Job.Agree.get
  intro w w' h
  rw [h.files_eq]
  split
  · split
    · exact
        .bind (agree_edit _ _) fun _ =>
          agree_writeEach _ _ file false dependencies
    · exact agree_writeEach _ _ file false dependencies
  · exact .bind (agree_record _) fun _ => .pure _

theorem agree_generate
    (dependencies : List Dependency)
    (sourceDir destination : Path) :
    Job.Agree (generate dependencies sourceDir destination)
      (generate dependencies sourceDir destination) := by
  refine .bind ?_ fun _ => .pure _
  induction targets dependencies with
  | nil => exact .pure _
  | cons group groups ih =>
      exact
        .bind (agree_writeFile _ _ group.1 group.2) fun _ =>
          .bind ih fun _ => .pure _

end Generation

end Variability
