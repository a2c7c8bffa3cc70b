import Variability.Proofs.Condition.Coupling
import Variability.Proofs.Condition.Expansion

/-
  Formulas of conditions do not depend on the space.

  A reduced diagram tests exactly the variables that its function
  depends on. So conditions that agree for equal values of the
  atoms test the same atoms, although the atoms may have other
  variables and come in another order; they both have a formula
  or both have none, and two formulas have the same values.

  A condition that has the value of a macro tests that macro alone,
  and its formula is about the macro's new name and no other.

  Main declarations:
    * `Coupling.Alike.exists_tests`
    * `Coupling.Alike.isAboutMacros_iff`
    * `Coupling.Alike.toFormula`
    * `Space.Means.tests_iff`
    * `Space.Means.macros_eq`
    * `Space.Means.exists_toFormula`
-/

namespace Variability

namespace Coupling

variable {s t : Space}
variable {c d : Condition}

/- An assignment has other values than one that differs in an atom. -/
theorem assigns_update
    {a : Nat → Bool}
    {atom : Atom}
    (hAtom : atom ∈ s.atoms)
    (truth : Bool) :
    Assigns s (Function.update (s.atomValue a) atom truth)
      (Function.update a (s.atoms.idxOf atom + 1) truth) := by
  intro other hOther
  unfold Space.atomValue
  by_cases hSame : other = atom
  · subst hSame
    simp
  · have hPlace :
        s.atoms.idxOf other + 1 ≠
          s.atoms.idxOf atom + 1 := by
      intro hEq
      exact
        hSame ((List.idxOf_inj hOther).mp (by omega))
    rw [Function.update_of_ne hPlace,
      Function.update_of_ne hSame]

/- A variable that stands for no atom can have any value. -/
theorem assigns_update_of_ne
    {a : Nat → Bool}
    {v : Nat}
    (hNone : ∀ atom ∈ s.atoms, s.atoms.idxOf atom + 1 ≠ v)
    (truth : Bool) :
    Assigns s (s.atomValue a) (Function.update a v truth) := by
  intro atom hAtom
  unfold Space.atomValue
  rw [Function.update_of_ne (hNone atom hAtom)]

namespace Alike

/-
  A variable that a condition tests stands for an atom, and a
  condition that is alike tests the variable of that atom.
-/
theorem exists_tests
    (hAlike : Alike s t c d)
    (hs : s.Sound)
    (ht : t.Sound)
    {v : Nat}
    (hTests : s.manager.Tests c v) :
    ∃ atom w, s.atomOf? v = some atom ∧
      t.manager.Tests d w ∧ t.atomOf? w = some atom := by
  rcases hs.manager.reduced.exists_eval_update_ne hTests
      hAlike.left with
    ⟨a, hNe⟩
  -- The function depends on the variable, so there is its atom.
  have hSome :
      ∃ atom ∈ s.atoms, s.atoms.idxOf atom + 1 = v := by
    by_contra hNone
    push Not at hNone
    have hb := assigns_assignment t (s.atomValue a)
    apply hNe
    rw [hAlike.eval_eq _ _ _
        (assigns_update_of_ne hNone false) hb,
      hAlike.eval_eq _ _ _
        (assigns_update_of_ne hNone true) hb]
  rcases hSome with ⟨atom, hAtom, rfl⟩
  -- The other function depends on the atom, too.
  rw [hAlike.eval_eq _ _ _ (assigns_update hAtom false)
      (assigns_assignment t _),
    hAlike.eval_eq _ _ _ (assigns_update hAtom true)
      (assigns_assignment t _)] at hNe
  have hDiffer :
      ∃ w, t.manager.Tests d w ∧
        assignment t
            (Function.update (s.atomValue a) atom false) w ≠
          assignment t
            (Function.update (s.atomValue a) atom true)
            w := by
    by_contra hAgree
    push Not at hAgree
    exact
      hNe (ht.manager.reduced.eval_congr hAlike.right hAgree)
  rcases hDiffer with ⟨w, hTests', hValues⟩
  refine ⟨atom, w, atomOf?_idxOf hAtom, hTests', ?_⟩
  unfold assignment at hValues
  cases hOther : t.atomOf? w with
  | none => simp [hOther] at hValues
  | some other =>
      by_cases hSame : other = atom
      · rw [hSame]
      · simp [hOther, hSame] at hValues

theorem isAboutMacros
    (hAlike : Alike s t c d)
    (hs : s.Sound)
    (ht : t.Sound)
    (hMacros : t.IsAboutMacros d) :
    s.IsAboutMacros c := by
  intro v hTests
  rcases hAlike.exists_tests hs ht hTests with
    ⟨atom, w, hAtom, hTests', hAtom'⟩
  rcases hMacros w hTests' with ⟨name, hName⟩
  rw [hAtom', Option.some.injEq] at hName
  exact ⟨name, hAtom.trans (congrArg some hName)⟩

theorem isAboutMacros_iff
    (hAlike : Alike s t c d)
    (hs : s.Sound)
    (ht : t.Sound) :
    s.IsAboutMacros c ↔ t.IsAboutMacros d :=
  ⟨hAlike.symm.isAboutMacros ht hs,
    hAlike.isAboutMacros hs ht⟩

end Alike

/- Macros have the given values; what is not looked into is false. -/
def macroValue (b : String → Bool) : Atom → Bool
  | .defined name => b name
  | .verbatim _ => false

theorem assigns_assigned
    (s : Space)
    (b : String → Bool) :
    Assigns s (macroValue b) (s.assigned b) := by
  intro atom hAtom
  unfold Space.atomValue Space.assigned
  rw [atomOf?_idxOf hAtom]
  cases atom <;> rfl

/- Formulas with the same values. -/
def FormulasAlike (f g : Formula) : Prop :=
  ∀ b, f.eval b = g.eval b

/- Alike conditions have formulas with the same values, or none. -/
theorem Alike.toFormula
    (hAlike : Alike s t c d)
    (hs : s.Sound)
    (ht : t.Sound)
    (rename : String → String) :
    Option.Rel FormulasAlike (s.toFormula rename c)
      (t.toFormula rename d) := by
  have hLeft := hs.expands_toFormula hAlike.left rename
  have hRight := ht.expands_toFormula hAlike.right rename
  have hMacros := hAlike.isAboutMacros_iff hs ht
  have hSome :
      (s.toFormula rename c).isSome = true ↔
        (t.toFormula rename d).isSome = true := by
    rw [hLeft.isSome_iff, hMacros, hRight.isSome_iff]
  cases hf : s.toFormula rename c with
  | none =>
      cases hg : t.toFormula rename d with
      | none => exact .none
      | some g => simp [hf, hg] at hSome
  | some f =>
      cases hg : t.toFormula rename d with
      | none => simp [hf, hg] at hSome
      | some g =>
          apply Option.Rel.some
          intro b
          rw [hLeft.eval_eq f hf b, hRight.eval_eq g hg b]
          exact
            hAlike.eval_eq _ _ _ (assigns_assigned s _)
              (assigns_assigned t _)

end Coupling

namespace Space

variable {s : Space}
variable {c : Condition}
variable {atom : Atom}
variable {name : String}

/- A condition with the value of an atom tests the atom's variable only. -/
theorem Means.tests_iff
    (hMeans : s.Means (fun s' a => s'.atomValue a atom) c)
    (hSound : s.Sound)
    (v : Nat) :
    s.manager.Tests c v ↔ v = s.atoms.idxOf atom + 1 := by
  have hEval (a : Nat → Bool) :
      s.manager.eval c a = a (s.atoms.idxOf atom + 1) :=
    hMeans.eval_self hSound
  constructor
  · intro hTests
    by_contra hOther
    rcases hSound.manager.reduced.exists_eval_update_ne hTests
        hMeans.isLive with
      ⟨a, hNe⟩
    rw [hEval, hEval, Function.update_of_ne (Ne.symm hOther),
      Function.update_of_ne (Ne.symm hOther)] at hNe
    exact hNe rfl
  · rintro rfl
    by_contra hNone
    have hSame :
        s.manager.eval c (fun _ => true) =
          s.manager.eval c
            fun v => v != s.atoms.idxOf atom + 1 := by
      apply hSound.manager.reduced.eval_congr hMeans.isLive
      intro v hTests
      have hOther : v ≠ s.atoms.idxOf atom + 1 := by
        rintro rfl
        exact hNone hTests
      simpa using hOther
    rw [hEval, hEval] at hSame
    simp at hSame

/- A condition with the value of a macro is about this macro. -/
theorem Means.macros_eq
    (hMeans :
      s.Means (fun s' a => s'.atomValue a (.defined name)) c)
    (hSound : s.Sound)
    (hAtom : .defined name ∈ s.atoms) :
    s.macros c = {name} := by
  have hVariable := Coupling.atomOf?_idxOf hAtom
  ext other
  constructor
  · rintro ⟨v, hTests, hOther⟩
    rw [(hMeans.tests_iff hSound v).mp hTests, hVariable] at hOther
    cases hOther
    rfl
  · rintro rfl
    exact ⟨_, (hMeans.tests_iff hSound _).mpr rfl, hVariable⟩

/-
  Its formula depends on the macro's new name, so that name is a
  literal of it, and the only one.
-/
theorem Means.exists_toFormula
    (hMeans :
      s.Means (fun s' a => s'.atomValue a (.defined name)) c)
    (hSound : s.Sound)
    (hAtom : .defined name ∈ s.atoms)
    (rename : String → String) :
    ∃ f, s.toFormula rename c = some f ∧
      ∀ literal, literal ∈ f.literals ↔ literal = rename name := by
  have hExpands :=
    hSound.expands_toFormula hMeans.isLive rename
  have hVariable := Coupling.atomOf?_idxOf hAtom
  have hMacros : s.IsAboutMacros c := by
    intro v hTests
    rw [(hMeans.tests_iff hSound v).mp hTests]
    exact ⟨name, hVariable⟩
  rcases Option.isSome_iff_exists.mp
      (hExpands.isSome_iff.mpr hMacros) with
    ⟨f, hFormula⟩
  refine ⟨f, hFormula, fun literal => ⟨fun hLiteral => ?_, ?_⟩⟩
  · rcases hExpands.literals f hFormula literal hLiteral with
      ⟨other, hOther, rfl⟩
    rw [hMeans.macros_eq hSound hAtom] at hOther
    rw [Set.mem_singleton_iff.mp hOther]
  · rintro rfl
    by_contra hNone
    have hValue (b : String → Bool) :
        f.eval b = b (rename name) := by
      rw [hExpands.eval_eq f hFormula, hMeans.eval_self hSound]
      exact assigned_eq hVariable _
    have hSame :
        f.eval (fun _ => true) =
          f.eval fun other => other != rename name := by
      apply Formula.eval_congr
      intro other hOther
      have hNe : other ≠ rename name :=
        ne_of_mem_of_not_mem hOther hNone
      simpa using hNe
    rw [hValue, hValue] at hSame
    simp at hSame

end Space

end Variability
