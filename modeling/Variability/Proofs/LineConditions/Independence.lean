import Variability.Presence
import Variability.Proofs.Condition.Alike
import Variability.Proofs.Dict.Entries
import Variability.Proofs.Feature.Sanitizing
import Variability.Proofs.Preprocessor.Coupling

/-
  Extraction does not depend on what was extracted before.

  A run of the preprocessor asks about conditions only whether
  they hold nowhere or everywhere and whether they are equal, and
  sound spaces answer that alike. So a file fails in both of two
  spaces or has conditions for the same lines in both, and the
  formulas of a line have the same values.

  Formulas with the same values for the lines of every file give
  every location a formula with the same values, or none. It does
  not matter in which order the files were told.

  Main declarations:
    * `LineContext.couples_preprocess`
    * `LineConditions.Alike`
    * `LineConditions.extract_alike`
    * `LineConditions.reached_extract`
    * `Presence.Alike`
    * `Presence.Alike.condition`
-/

namespace Variability

open Coupling

variable {s t : Space}

namespace LineContext

/- A file is preprocessed alike behind the same flags. -/
theorem couples_preprocess
    {R : Coupling}
    (hLawful : R.Lawful)
    (x : LineContext)
    (i : Inclusion)
    {st tt : Preprocessor.State}
    (hAlike : st.Alike R tt) :
    Preprocessor.Couples R (x.preprocess i) (x.preprocess i)
      st tt (Preprocessor.ResultsAlike R) := by
  unfold preprocess Preprocessor.injectBuiltins
  apply (Preprocessor.couples_inject hLawful hAlike _ _).bind
  intro st' tt' _ _ hAlike' _ _
  apply (Preprocessor.couples_inject hLawful hAlike' _ _).bind
  intro st'' tt'' _ _ hAlike'' _ _
  exact Preprocessor.couples_run hLawful hAlike'' _

/- At the start nothing was defined. -/
theorem start_alike
    {R : Coupling}
    (hSpaces : R.spaces s t) :
    Preprocessor.State.Alike R (.start s) (.start t) :=
  ⟨hSpaces, .nil, rfl, rfl⟩

end LineContext

namespace LineConditions

------------------------------------------------------------
-- Formulas of Lines
------------------------------------------------------------

/- That equal neighbours are converted once does not show. -/
theorem withFormulas_eq
    (convert : Condition → Option Formula)
    (last : Option (Condition × Option Formula))
    (hLast : ∀ d f, last = some (d, f) → f = convert d)
    (cs : List Condition) :
    withFormulas convert last cs = cs.map convert := by
  induction cs generalizing last with
  | nil => rfl
  | cons c cs ih =>
      have hNew :
          withFormulas convert (some (c, convert c)) cs =
            cs.map convert := by
        apply ih
        rintro d f ⟨⟩
        rfl
      unfold withFormulas
      cases last with
      | none => exact congrArg _ hNew
      | some entry =>
          rcases entry with ⟨d, f⟩
          have hFormula := hLast d f rfl
          by_cases hSame : c = d
          · subst hSame
            dsimp only
            rw [if_pos rfl, ih _ hLast, hFormula,
              List.map_cons]
          · dsimp only
            rw [if_neg hSame]
            exact congrArg _ hNew

/- The same lines, with formulas that have the same values. -/
def Alike (a b : LineConditions) : Prop :=
  List.Forall₂ (fun p q => p.1 = q.1 ∧ FormulasAlike p.2 q.2)
    a b

theorem Alike.symm
    {a b : LineConditions}
    (hAlike : Alike a b) :
    Alike b a :=
  hAlike.flip.imp fun _ _ h =>
    ⟨h.1.symm, fun v => (h.2 v).symm⟩

theorem Alike.trans
    {a b c : LineConditions}
    (hFirst : Alike a b)
    (hSecond : Alike b c) :
    Alike a c := by
  unfold Alike at hFirst hSecond ⊢
  induction hFirst generalizing c with
  | nil => exact hSecond
  | cons hpq _ ih =>
      cases hSecond with
      | cons hqr hRest =>
          exact
            .cons
              ⟨hpq.1.trans hqr.1,
                fun v => (hpq.2 v).trans (hqr.2 v)⟩
              (ih hRest)

/- Formulas with the same values give line conditions alike. -/
theorem ofFormulas_alike
    (model : FeatureModel)
    (file : Path)
    (line : Nat)
    {fs gs : List (Option Formula)}
    (hEach : List.Forall₂ (Option.Rel FormulasAlike) fs gs) :
    Alike (ofFormulas model file line fs).1
      (ofFormulas model file line gs).1 := by
  induction hEach generalizing line with
  | nil => exact .nil
  | cons hFirst _ ih =>
      cases hFirst with
      | none => exact ih (line + 1)
      | @some f g hSame =>
          refine .cons ⟨rfl, ?_⟩ (ih (line + 1))
          intro v
          change
            (model.sanitize (placeText file line) f).1.eval v =
              (model.sanitize (placeText file line) g).1.eval v
          rw [model.eval_sanitize, model.eval_sanitize]
          exact hSame _

------------------------------------------------------------
-- Extraction
------------------------------------------------------------

/- The same failure, or line conditions that say the same. -/
inductive AnswersAlike :
    Except Fault LineConditions →
    Except Fault LineConditions → Prop where
  | error (e : Fault) : AnswersAlike (.error e) (.error e)
  | ok {a b : LineConditions} (hAlike : Alike a b) :
      AnswersAlike (.ok a) (.ok b)

/- A file is given the same answer in any two sound spaces. -/
theorem extract_alike
    (hs : s.Sound)
    (ht : t.Sound)
    (x : LineContext)
    (i : Inclusion) :
    AnswersAlike (extract x i s).1.1 (extract x i t).1.1 := by
  have hRun :=
    x.couples_preprocess lawful_byAtoms i
      (LineContext.start_alike ⟨hs, ht⟩)
  have hSpaces := hRun.later.spaces
  have hResults := hRun.post
  unfold extract
  generalize x.preprocess i (.start s) = out
    at hSpaces hResults ⊢
  generalize x.preprocess i (.start t) = out'
    at hSpaces hResults ⊢
  rcases out with ⟨result, st⟩
  rcases out' with ⟨result', tt⟩
  dsimp only at hSpaces hResults ⊢
  cases hResults with
  | error e => exact .error _
  | ok hEach =>
      apply AnswersAlike.ok
      rw [withFormulas_eq _ none (by simp),
        withFormulas_eq _ none (by simp)]
      apply ofFormulas_alike
      apply List.forall₂_map_left_iff.mpr
      apply List.forall₂_map_right_iff.mpr
      exact hEach.imp fun _ _ hAlike =>
        Coupling.Alike.toFormula hAlike hSpaces.1 hSpaces.2 _

/- An extraction leaves the atoms and no diagrams. -/
theorem extract_snd
    (x : LineContext)
    (i : Inclusion)
    (s : Space) :
    (extract x i s).2 =
      (x.preprocess i (.start s)).2.space.collectGarbage
        [] := by
  unfold extract
  rcases x.preprocess i (.start s) with ⟨_ | _, st⟩ <;> rfl

/- An extraction leads to a reached space, also if it fails. -/
theorem reached_extract
    (hReached : s.Reached)
    (x : LineContext)
    (i : Inclusion) :
    (extract x i s).2.Reached := by
  have hRun :=
    x.couples_preprocess lawful_reached i
      (LineContext.start_alike ⟨rfl, hReached⟩)
  rw [extract_snd]
  exact hRun.later.spaces.2.collect [] (by simp)

end LineConditions

------------------------------------------------------------
-- Presence
------------------------------------------------------------

namespace Presence

open Coupling (FormulasAlike)

variable {p q : Presence}

/- The same is known, but for formulas with the same values. -/
structure Alike (p q : Presence) : Prop where
  sources_eq : p.sources = q.sources
  files_eq : p.files = q.files
  wholeOnly : p.wholeOnly.Perm q.wholeOnly
  lines :
    ∀ file,
      Option.Rel LineConditions.Alike (Dict.find? file p.lines)
        (Dict.find? file q.lines)

/- Answers about a location that say the same. -/
def Tells (a b : Option Formula × Log) : Prop :=
  Option.Rel FormulasAlike a.1 b.1 ∧ a.2 = b.2

theorem Tells.refl (a : Option Formula × Log) : Tells a a := by
  refine ⟨?_, rfl⟩
  cases a.1 with
  | none => exact .none
  | some f => exact .some fun _ => rfl

/- The condition of a line is found in the same way. -/
theorem Alike.lineCondition
    (hAlike : p.Alike q)
    {conditions conditions' : LineConditions}
    (hLines : conditions.Alike conditions')
    (l : Location) :
    Option.Rel FormulasAlike (p.lineCondition conditions l)
      (q.lineCondition conditions' l) := by
  unfold Presence.lineCondition
  rw [hAlike.sources_eq]
  cases q.sources.unmarked l with
  | none => exact .none
  | some plain => exact Dict.Related.find? hLines plain.line

theorem Alike.conditionWithin
    (hAlike : p.Alike q)
    (l : Location)
    (whole : Formula) :
    Tells (p.conditionWithin l whole)
      (q.conditionWithin l whole) := by
  unfold Presence.conditionWithin
  rw [hAlike.wholeOnly.any_eq]
  split
  · rw [hAlike.sources_eq]
    exact .refl _
  · have hFile := hAlike.lines l.file
    generalize Dict.find? l.file p.lines = found at hFile ⊢
    generalize Dict.find? l.file q.lines = found' at hFile ⊢
    cases hFile with
    | none => exact .refl _
    | @some conditions conditions' hLines =>
        dsimp only
        have hLine := hAlike.lineCondition hLines l
        generalize p.lineCondition conditions l = f at hLine ⊢
        generalize q.lineCondition conditions' l = g at hLine ⊢
        cases hLine with
        | none => exact .refl _
        | some hSame =>
            refine ⟨.some fun b => ?_, rfl⟩
            simp only [Formula.and, Formula.eval,
              Formula.evalAll, hSame b]

/- The conditions of a location have the same values. -/
theorem Alike.condition
    (hAlike : p.Alike q)
    (l : Location) :
    Tells (p.condition l) (q.condition l) := by
  unfold Presence.condition
  rw [hAlike.sources_eq, hAlike.files_eq]
  split
  · exact .refl _
  · split
    · exact .refl _
    · exact hAlike.conditionWithin l _

end Presence

end Variability
