import Mathlib.Data.List.Pairwise
import Variability.Proofs.Trace.Flags
import Variability.Strategy

/-
  The names of macros and of features.

  Of several beginnings the first one that fits decides which
  feature a macro stands for, whereas a feature has a macro for
  each of them. The two agree exactly if no beginning goes on
  with another one, as those of all systems do.

  Main declarations:
    * `FeatureNaming.feature?_beginnings_eq_some_iff`
    * `FeatureNaming.inverts_beginnings_iff`
    * `FeatureNaming.inverts_of_isUnambiguous`
-/

namespace Variability

namespace FeatureNaming

variable {starts : List String}
variable {start start' name feature : String}

------------------------------------------------------------
-- What a Macro Stands For
------------------------------------------------------------

/- A beginning fits if a name starts with it. -/
def Fits (start name : String) : Prop :=
  start.toList <+: name.toList

instance (start name : String) : Decidable (Fits start name) :=
  inferInstanceAs (Decidable (start.toList <+: name.toList))

theorem fits_append (start feature : String) :
    Fits start (start ++ feature) := by
  rw [Fits, String.toList_append]
  exact List.prefix_append _ _

/- Of two beginnings that fit one starts with the other one. -/
theorem Fits.total
    (hFits : Fits start name)
    (hFits' : Fits start' name) :
    Fits start start' ∨ Fits start' start :=
  List.prefix_or_prefix_of_prefix hFits hFits'

theorem Fits.exists_eq_append
    (hFits : Fits start name) :
    ∃ rest, name = start ++ rest := by
  rcases hFits with ⟨rest, hRest⟩
  refine ⟨String.ofList rest, ?_⟩
  rw [← String.toList_inj, String.toList_append,
    String.toList_ofList, hRest]

/-
  A macro stands for what is behind the first beginning that
  fits, unless nothing is.
-/
theorem feature?_beginnings_eq_some_iff :
    (beginnings starts).feature? name = some feature ↔
      feature ≠ "" ∧
        ∃ before start behind,
          starts = before ++ start :: behind ∧
            name = start ++ feature ∧
            ∀ other ∈ before, ¬ Fits other name := by
  have hFirst :
      starts.findSome? (Text.after? · name) = some feature ↔
        ∃ before start behind,
          starts = before ++ start :: behind ∧
            name = start ++ feature ∧
            ∀ other ∈ before, ¬ Fits other name := by
    simp only [List.findSome?_eq_some_iff,
      Text.after?_eq_some_iff, Text.after?_eq_none_iff, Fits]
  rw [← hFirst, feature?]
  cases starts.findSome? (Text.after? · name) with
  | none => simp
  | some found =>
      simp only [Option.some.injEq, String.isEmpty_iff]
      by_cases hEmpty : found = ""
      · rw [if_pos hEmpty]
        simp only [reduceCtorEq, false_iff, not_and]
        rintro hFeature rfl
        exact hFeature hEmpty
      · rw [if_neg hEmpty, Option.some.injEq, iff_and_self]
        rintro rfl
        exact hEmpty

theorem mem_macroNames_beginnings_iff :
    name ∈ (beginnings starts).macroNames feature ↔
      ∃ start ∈ starts, name = start ++ feature := by
  simp [macroNames, eq_comm]

------------------------------------------------------------
-- Naming There and Back
------------------------------------------------------------

/- The macros of a feature are those that stand for it. -/
def Inverts (naming : FeatureNaming) : Prop :=
  ∀ name feature, feature ≠ "" →
    (naming.feature? name = some feature ↔
      name ∈ naming.macroNames feature)

/- No beginning starts with another one that differs from it. -/
def AreApart (starts : List String) : Prop :=
  ∀ start ∈ starts, ∀ start' ∈ starts,
    Fits start start' → start = start'

/- A macro that stands for a feature is one of its macros. -/
theorem mem_macroNames_of_feature?
    (hFeature :
      (beginnings starts).feature? name = some feature) :
    name ∈ (beginnings starts).macroNames feature := by
  rcases feature?_beginnings_eq_some_iff.mp hFeature with
    ⟨-, before, start, behind, rfl, hName, -⟩
  exact mem_macroNames_beginnings_iff.mpr ⟨start, by simp, hName⟩

/- Among beginnings that are apart the first that fits is the only one. -/
theorem AreApart.feature?_append
    (hApart : AreApart starts)
    (hStart : start ∈ starts)
    (hFeature : feature ≠ "") :
    (beginnings starts).feature? (start ++ feature) =
      some feature := by
  rcases List.eq_append_cons_of_mem hStart with
    ⟨before, behind, rfl, hNew⟩
  apply feature?_beginnings_eq_some_iff.mpr
  refine ⟨hFeature, before, start, behind, rfl, rfl, ?_⟩
  intro other hOther hFits
  have hMem : other ∈ before ++ start :: behind :=
    List.mem_append_left _ hOther
  have hEq : other = start := by
    rcases hFits.total (fits_append start feature) with hLess | hMore
    · exact hApart other hMem start hStart hLess
    · exact (hApart start hStart other hMem hMore).symm
  exact hNew (hEq ▸ hOther)

/-
  If a beginning goes on with another one then one macro of some
  feature stands for something else: the longer beginning takes
  away what belongs to the feature, or the shorter one leaves it.
-/
theorem Inverts.areApart
    (hInverts : (beginnings starts).Inverts) :
    AreApart starts := by
  intro start hStart start' hStart' hFits
  rcases hFits.exists_eq_append with ⟨rest, rfl⟩
  have hShort :=
    (hInverts (start ++ rest ++ "x") (rest ++ "x")
      (by simp)).mpr
      (mem_macroNames_beginnings_iff.mpr
        ⟨start, hStart, String.append_assoc⟩)
  have hLong :=
    (hInverts (start ++ rest ++ "x") "x" (by decide)).mpr
      (mem_macroNames_beginnings_iff.mpr
        ⟨start ++ rest, hStart', rfl⟩)
  rw [hShort, Option.some.injEq] at hLong
  have hEmpty : rest = "" := by
    simpa using hLong
  rw [hEmpty, String.append_empty]

/- Naming goes there and back exactly between beginnings that are apart. -/
theorem inverts_beginnings_iff :
    (beginnings starts).Inverts ↔ AreApart starts := by
  refine ⟨Inverts.areApart, fun hApart name feature hFeature => ?_⟩
  refine ⟨mem_macroNames_of_feature?, fun hMem => ?_⟩
  rcases mem_macroNames_beginnings_iff.mp hMem with
    ⟨start, hStart, rfl⟩
  exact hApart.feature?_append hStart hFeature

theorem inverts_identity : identity.Inverts := by
  intro name feature _
  simp [feature?, macroNames]

------------------------------------------------------------
-- Beginnings at Different Positions
------------------------------------------------------------

/- No beginning starts with the one at another position. -/
def IsUnambiguous : FeatureNaming → Prop
  | .identity => True
  | .beginnings starts =>
      starts.Pairwise fun start start' =>
        ¬ Fits start start' ∧ ¬ Fits start' start

instance : DecidablePred IsUnambiguous
  | .identity => .isTrue trivial
  | .beginnings starts =>
      inferInstanceAs
        (Decidable
          (starts.Pairwise fun start start' =>
            ¬ Fits start start' ∧ ¬ Fits start' start))

theorem IsUnambiguous.areApart
    (hUnambiguous : (beginnings starts).IsUnambiguous) :
    AreApart starts := by
  intro start hStart start' hStart' hFits
  by_contra hNe
  have hSymm :
      Std.Symm fun s t : String => ¬ Fits s t ∧ ¬ Fits t s :=
    ⟨fun _ _ h => h.symm⟩
  exact
    (List.Pairwise.forall hUnambiguous hStart hStart' hNe).1 hFits

/- The beginnings of all systems are unambiguous. -/
theorem isUnambiguous_ofSystem
    (system : BuildSystem)
    (program : String) :
    (Strategy.ofSystem system program).naming.IsUnambiguous := by
  have hThree :
      (beginnings ["CONFIG_", "ENABLE_", "IF_"]).IsUnambiguous := by
    decide
  have hOne : (beginnings ["CONFIG_"]).IsUnambiguous := by
    decide
  cases system with
  | busybox => exact hThree
  | linux | toybox => exact hOne
  | generic => trivial

/-
  In a naming by macros' own names, and in one by beginnings of
  which none starts with the one at another position, a macro
  stands for a feature if and only if it is one of the macros of
  the feature. The systems name their features so.
-/
theorem inverts_of_isUnambiguous :
    (∀ naming : FeatureNaming, naming.IsUnambiguous →
      ∀ name feature, feature ≠ "" →
        (naming.feature? name = some feature ↔
          name ∈ naming.macroNames feature)) ∧
      ∀ system program,
        (Strategy.ofSystem system program).naming.IsUnambiguous := by
  refine ⟨fun naming hUnambiguous => ?_, isUnambiguous_ofSystem⟩
  cases naming with
  | identity => exact inverts_identity
  | beginnings starts =>
      exact inverts_beginnings_iff.mpr hUnambiguous.areApart

/- Of three beginnings the second one fits. -/
theorem inverts_of_isUnambiguous_threeBeginnings :
    (beginnings ["CONFIG_", "ENABLE_", "IF_"]).IsUnambiguous ∧
      "FOO" ≠ "" ∧
      ((beginnings ["CONFIG_", "ENABLE_", "IF_"]).feature?
          "ENABLE_FOO" = some "FOO" ↔
        "ENABLE_FOO" ∈
          (beginnings ["CONFIG_", "ENABLE_", "IF_"]).macroNames
            "FOO") := by
  have hUnambiguous :
      (beginnings ["CONFIG_", "ENABLE_", "IF_"]).IsUnambiguous := by
    decide
  have hFeature : "FOO" ≠ "" := by decide
  exact
    ⟨hUnambiguous, hFeature,
      inverts_of_isUnambiguous.1 _ hUnambiguous _ _ hFeature⟩

end FeatureNaming

end Variability
