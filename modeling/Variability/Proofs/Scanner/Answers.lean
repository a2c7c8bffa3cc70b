import Variability.Proofs.Inclusion.Sameness
import Variability.Proofs.Job.Running
import Variability.Proofs.Path.Components
import Variability.Scanner

/-
  What resolving makes of the answers of a scanner.

  The dependencies of some files are the files themselves and
  what the prerequisites in the answers mean, each once.

  Main declarations:
    * `Scanner.rules`
    * `Scanner.given`
    * `Scanner.resolveFrom_of_answers`
    * `Scanner.resolve_eq_ok`
-/

namespace Variability

------------------------------------------------------------
-- Sets of Dependencies
------------------------------------------------------------

namespace Dependency

variable {d d' : Dependency}
variable {set ds es deps mid : List Dependency}

theorem components_eq_of_same
    (hSame : d.same d' = true) :
    d.file.components = d'.file.components := by
  cases d with
  | compiled a =>
      cases d' with
      | compiled b =>
          simp only [same, Inclusion.same, Bool.and_eq_true] at hSame
          exact beq_iff_eq.mp hSame.1.1
      | header q => cases hSame
  | header p =>
      cases d' with
      | compiled b => cases hSame
      | header q => exact beq_iff_eq.mp hSame

/-
  A set that holds what was there and what was put in, where a
  dependency may stand for another one of the same file.
-/
structure Collects
    (set ds deps : List Dependency) : Prop where
  mem : ∀ d ∈ deps, d ∈ set ∨ d ∈ ds
  file :
    ∀ d, d ∈ set ∨ d ∈ ds →
      ∃ d' ∈ deps, d'.file.components = d.file.components

theorem Collects.refl
    (set : List Dependency) :
    Collects set [] set where
  mem := fun _ hMem => Or.inl hMem
  file := fun d hMem => ⟨d, by simpa using hMem, rfl⟩

theorem Collects.trans
    (hFirst : Collects set ds mid)
    (hSecond : Collects mid es deps) :
    Collects set (ds ++ es) deps where
  mem := fun d hMem => by
    rw [List.mem_append, ← or_assoc]
    rcases hSecond.mem d hMem with hMid | hNew
    · exact Or.inl (hFirst.mem d hMid)
    · exact Or.inr hNew
  file := fun d hMem => by
    rw [List.mem_append, ← or_assoc] at hMem
    rcases hMem with hEarly | hNew
    · rcases hFirst.file d hEarly with ⟨d₁, hMid, hFile⟩
      rcases hSecond.file d₁ (Or.inl hMid) with
        ⟨d₂, hLast, hNext⟩
      exact ⟨d₂, hLast, hNext.trans hFile⟩
    · exact hSecond.file d (Or.inr hNew)

theorem collects_foldl
    (set ds : List Dependency) :
    Collects set ds (ds.foldl insert set) where
  mem := fun _ hMem => mem_of_mem_foldl hMem
  file := fun d hMem => by
    rcases hMem with hOld | hNew
    · exact ⟨d, subset_foldl ds set hOld, rfl⟩
    · rcases exists_same_foldl hNew set with ⟨d', hd', hSame⟩
      exact ⟨d', hd', (components_eq_of_same hSame).symm⟩

theorem collects_insert
    (set : List Dependency)
    (d : Dependency) :
    Collects set [d] (insert set d) :=
  collects_foldl set [d]

end Dependency

------------------------------------------------------------
-- Answers
------------------------------------------------------------

namespace Scanner

variable {scanner : Scanner}
variable {sourceDir : Path}
variable {w w' : Workspace}
variable {set deps : List Dependency}
variable {compiled : List Inclusion}

/- The rules that are answered for some files, one after the other. -/
def rules
    (scanner : Scanner)
    (sourceDir : Path) :
    List Inclusion → Job (List (Inclusion × String))
  | [] => pure []
  | i :: rest => do
      Job.check
      if (← get).files.exists? (sourceDir.join i.file) then
        let rule ← scanner i sourceDir
        return (i, rule) :: (← rules scanner sourceDir rest)
      else
        Job.record [missing i.file]
        rules scanner sourceDir rest

/- The files themselves, and what the rules list for them. -/
def given
    (compiled : List Inclusion)
    (answers : List (Inclusion × String)) :
    List Dependency :=
  compiled.map .compiled ++
    answers.flatMap fun (i, rule) => MakeRule.dependencies i rule

theorem mem_given_cons
    (i : Inclusion)
    (compiled : List Inclusion)
    (rule : String)
    (answers : List (Inclusion × String))
    (d : Dependency) :
    d ∈ given (i :: compiled) ((i, rule) :: answers) ↔
      d = .compiled i ∨ d ∈ MakeRule.dependencies i rule ∨
        d ∈ given compiled answers := by
  simp [given, or_left_comm]

/- Every file is resolved by what the scanner answers for it. -/
theorem resolveFrom_eq_ok
    (hRun :
      resolveFrom scanner sourceDir set compiled w =
        (.ok deps, w')) :
    ∃ answers,
      rules scanner sourceDir compiled w = (.ok answers, w') ∧
        ∃ ds, Dependency.Collects set ds deps ∧
          ∀ d, d ∈ ds ↔ d ∈ given compiled answers := by
  induction compiled generalizing set w with
  | nil =>
      cases hRun
      exact ⟨[], rfl, [], .refl _, fun d => Iff.rfl⟩
  | cons i rest ih =>
      rcases Job.bind_eq_ok hRun with ⟨_, w₁, hCheck, hRest⟩
      cases Job.check_eq_ok hCheck
      rcases Job.bind_eq_ok hRest with ⟨_, _, hGet, hRest⟩
      cases hGet
      have hFirst :=
        Dependency.collects_insert set (.compiled i)
      cases hExists :
          w.files.exists? (sourceDir.join i.file) with
      | true =>
          rw [hExists, if_pos rfl] at hRest
          rcases Job.bind_eq_ok hRest with
            ⟨rule, w₂, hRule, hRest⟩
          rcases ih hRest with
            ⟨answers, hAnswers, ds, hCollects, hMem⟩
          have hFound :=
            Dependency.collects_foldl
              (Dependency.insert set (.compiled i))
              (MakeRule.dependencies i rule)
          refine
            ⟨(i, rule) :: answers, ?_, _,
              hFirst.trans (hFound.trans hCollects), ?_⟩
          · rw [rules, Job.bind_of_ok hCheck, Job.get_bind_apply,
              hExists, if_pos rfl, Job.bind_of_ok hRule,
              Job.bind_of_ok hAnswers]
            rfl
          · intro d
            rw [mem_given_cons, ← hMem]
            simp
      | false =>
          rw [hExists, if_neg Bool.false_ne_true] at hRest
          rcases Job.bind_eq_ok hRest with
            ⟨_, w₂, hRecord, hRest⟩
          rcases ih hRest with
            ⟨answers, hAnswers, ds, hCollects, hMem⟩
          refine
            ⟨answers, ?_, _, hFirst.trans hCollects, ?_⟩
          · rw [rules, Job.bind_of_ok hCheck, Job.get_bind_apply,
              hExists, if_neg Bool.false_ne_true,
              Job.bind_of_ok hRecord]
            exact hAnswers
          · intro d
            rw [List.singleton_append, List.mem_cons, hMem,
              given, given, List.map_cons, List.cons_append,
              List.mem_cons]

/-
  If each file is there and is answered about, whatever is kept
  by answering is kept by resolving, and all that is answered is
  put into the set.
-/
theorem resolveFrom_of_answers
    {Kept : Workspace → Prop}
    {rule : Inclusion → String}
    (hAnswers :
      ∀ i ∈ compiled, ∀ v, Kept v →
        v.cancelled = false ∧
          v.files.exists? (sourceDir.join i.file) = true ∧
          ∃ v', scanner i sourceDir v = (.ok (rule i), v') ∧
            Kept v')
    (hKept : Kept w)
    (set : List Dependency) :
    ∃ w',
      resolveFrom scanner sourceDir set compiled w =
          (.ok ((compiled.flatMap fun i =>
            .compiled i :: MakeRule.dependencies i (rule i)).foldl
              Dependency.insert set), w') ∧
        Kept w' := by
  induction compiled generalizing set w with
  | nil => exact ⟨w, rfl, hKept⟩
  | cons i rest ih =>
      rcases hAnswers i List.mem_cons_self w hKept with
        ⟨hActive, hThere, w₁, hAnswer, hKept₁⟩
      rcases ih
        (fun j hj => hAnswers j (List.mem_cons_of_mem i hj)) hKept₁
        ((MakeRule.dependencies i (rule i)).foldl Dependency.insert
          (Dependency.insert set (.compiled i))) with
        ⟨w', hRest, hKept'⟩
      refine ⟨w', ?_, hKept'⟩
      rw [resolveFrom, Job.bind_of_ok (Job.check_apply hActive),
        Job.get_bind_apply, if_pos hThere, Job.bind_of_ok hAnswer,
        List.flatMap_cons, List.foldl_append, List.foldl_cons]
      exact hRest

/-
  What is resolved is given, and all that is given is resolved
  but for what has the same file.
-/
theorem resolve_eq_ok
    (hRun :
      resolve scanner sourceDir compiled w = (.ok deps, w')) :
    ∃ answers,
      rules scanner sourceDir compiled w = (.ok answers, w') ∧
        (∀ d ∈ deps, d ∈ given compiled answers) ∧
        ∀ d ∈ given compiled answers,
          ∃ d' ∈ deps,
            d'.file.components = d.file.components := by
  rcases resolveFrom_eq_ok hRun with
    ⟨answers, hAnswers, ds, hCollects, hMem⟩
  refine ⟨answers, hAnswers, fun d hd => ?_, fun d hd => ?_⟩
  · rcases hCollects.mem d hd with hNone | hNew
    · cases hNone
    · exact (hMem d).mp hNew
  · exact hCollects.file d (Or.inr ((hMem d).mpr hd))

end Scanner

end Variability
