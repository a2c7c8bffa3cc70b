import Variability.MakeRule
import Variability.Proofs.Inclusion.Sameness
import Variability.Proofs.Path.Components

/-
  Flags that the files of a rule inherit.

  A file that a rule lists is compiled with the flags of the file
  that was asked about. It is not forced into itself if the rule
  writes it as its normal form is written; written in another way,
  it is compared before it is brought into its normal form, and
  stays among its own forced includes.

  Main declarations:
    * `Inclusion.Forces`
    * `MakeRule.Inherits`
    * `MakeRule.compiled_mem_dependencies_iff`
    * `MakeRule.dependencies_inherit`
-/

namespace Variability

------------------------------------------------------------
-- Forced Files
------------------------------------------------------------

namespace Path

variable {p q : Path}

/- What is the same as a normal path has it as its normal form. -/
theorem same_normalize_of_same
    (hSelf : p.normalize = p)
    (hSame : p.same q = true) :
    q.same q.normalize = true := by
  have hNormal := isNormal_of_normalize_eq hSelf
  rw [same_iff] at hSame
  rw [hSame] at hNormal
  rw [same_iff, components_normalize_eq hNormal]

end Path

namespace Inclusion

/- A file is among the forced includes, however it is written. -/
def Forces (i : Inclusion) (p : Path) : Prop :=
  ∃ f ∈ i.forced, f.same p = true

instance decidableForces
    (i : Inclusion)
    (p : Path) :
    Decidable (i.Forces p) :=
  List.decidableBEx _ i.forced

end Inclusion

------------------------------------------------------------
-- Listed Files
------------------------------------------------------------

namespace MakeRule

variable {i d : Inclusion}
variable {q : Path}

/-
  All that there is to the inclusion of a listed file. It loses
  itself as a forced include if it is listed by the components of
  its normal form, and nothing otherwise.
-/
structure Inherits
    (i : Inclusion)
    (q : Path)
    (d : Inclusion) :
    Prop where
  file : d.file = q.normalize
  forced :
    d.forced =
      if q.same q.normalize then
        i.forced.filter fun f => !f.same q.normalize
      else
        i.forced
  defines : d.defines = i.defines
  includePaths : d.includePaths = i.includePaths
  systemIncludePaths :
    d.systemIncludePaths = i.systemIncludePaths

theorem Inherits.unique
    {d' : Inclusion}
    (hd : Inherits i q d)
    (hd' : Inherits i q d') :
    d = d' := by
  cases d
  cases d'
  rw [Inclusion.mk.injEq]
  exact
    ⟨hd.file.trans hd'.file.symm,
      hd.forced.trans hd'.forced.symm,
      hd.defines.trans hd'.defines.symm,
      hd.includePaths.trans hd'.includePaths.symm,
      hd.systemIncludePaths.trans hd'.systemIncludePaths.symm⟩

/-
  Of normal includes only the one that is written like a file is
  the same, so none is lost if the file is written otherwise.
-/
theorem filter_not_same
    {forced : List Path}
    (hForced : ∀ f ∈ forced, f.normalize = f)
    (q : Path) :
    forced.filter (fun f => !f.same q) =
      if q.same q.normalize then
        forced.filter fun f => !f.same q.normalize
      else
        forced := by
  split
  · rename_i hWritten
    simp only [Path.same_congr hWritten]
  · rename_i hOther
    rw [List.filter_eq_self]
    intro f hMem
    rw [Bool.not_eq_true', Bool.eq_false_iff]
    exact fun hSame =>
      hOther (Path.same_normalize_of_same (hForced f hMem) hSame)

theorem dependency_of_isHeader_eq_false
    {prerequisite : String}
    (hUnit : isHeader prerequisite = false) :
    dependency i prerequisite =
      .compiled
        (.make ⟨prerequisite⟩
          (i.forced.filter fun p => !p.same ⟨prerequisite⟩)
          i.defines i.includePaths i.systemIncludePaths) := by
  rw [dependency, if_neg (by rw [hUnit]; exact Bool.false_ne_true)]

/- The compiled files of a rule are those that are no headers. -/
theorem compiled_mem_dependencies_iff
    (hForced : ∀ f ∈ i.forced, f.normalize = f)
    (rule : String)
    (d : Inclusion) :
    .compiled d ∈ dependencies i rule ↔
      ∃ q ∈ prerequisites rule,
        isHeader q = false ∧ Inherits i ⟨q⟩ d := by
  have hMade (q : String) :
      Inherits i ⟨q⟩
        (.make ⟨q⟩ (i.forced.filter fun p => !p.same ⟨q⟩)
          i.defines i.includePaths i.systemIncludePaths) :=
    ⟨rfl, filter_not_same hForced _, rfl, rfl, rfl⟩
  rw [dependencies, List.mem_map]
  constructor
  · rintro ⟨q, hMem, hDependency⟩
    cases hKind : isHeader q with
    | true =>
        rw [dependency, if_pos hKind] at hDependency
        cases hDependency
    | false =>
        rw [dependency_of_isHeader_eq_false hKind] at hDependency
        cases hDependency
        exact ⟨q, hMem, hKind, hMade q⟩
  · rintro ⟨q, hMem, hKind, hInherits⟩
    refine ⟨q, hMem, ?_⟩
    rw [dependency_of_isHeader_eq_false hKind,
      (hMade q).unique hInherits]

/- A file is forced into itself if it was, and is written otherwise. -/
theorem Inherits.forces_iff
    (hInherits : Inherits i q d) :
    d.Forces d.file ↔
      i.Forces d.file ∧ q.same d.file = false := by
  have hForced := hInherits.forced
  rw [← hInherits.file] at hForced
  rw [Inclusion.Forces, hForced]
  cases hWritten : q.same d.file with
  | true => simp
  | false => simp [Inclusion.Forces]

/- The file that was asked about is compiled as it was before. -/
theorem Inherits.same
    (hInherits : Inherits i q d)
    (hFile : d.file.same i.file = true)
    (hItself : ¬ i.Forces i.file) :
    d.same i = true ∧ d.forced = i.forced := by
  have hForced : d.forced = i.forced := by
    rw [hInherits.forced, ← hInherits.file]
    split
    · rw [List.filter_eq_self]
      intro f hMem
      rw [Bool.not_eq_true', Bool.eq_false_iff,
        Path.same_congr hFile]
      exact fun hSame => hItself ⟨f, hMem, hSame⟩
    · rfl
  refine ⟨?_, hForced⟩
  rw [Inclusion.same, hFile, hForced, hInherits.defines,
    Path.sameAll_self, beq_self_eq_true]
  rfl

/-
  What a rule lists besides headers is compiled with the flags of
  the file that was asked about. It is forced into itself exactly
  if that file forces it and the rule does not write it like its
  normal form; and that file itself is no other variant, if it does
  not force itself.
-/
theorem dependencies_inherit
    (hForced : ∀ f ∈ i.forced, f.normalize = f)
    (rule : String) :
    (∀ d, .compiled d ∈ dependencies i rule ↔
      ∃ q ∈ prerequisites rule,
        isHeader q = false ∧ Inherits i ⟨q⟩ d) ∧
    ∀ q d, Inherits i q d →
      (d.Forces d.file ↔
        i.Forces d.file ∧ q.same d.file = false) ∧
      (d.file.same i.file = true → ¬ i.Forces i.file →
        d.same i = true ∧ d.forced = i.forced) :=
  ⟨compiled_mem_dependencies_iff hForced rule,
    fun _ _ hInherits =>
      ⟨hInherits.forces_iff, hInherits.same⟩⟩

------------------------------------------------------------
-- A File Forced into Itself
------------------------------------------------------------

/- A file that is compiled with another one in front of it. -/
def forcingFile : Inclusion :=
  { file := ⟨"main.c"⟩, forced := [⟨"extra.c"⟩, ⟨"x.h"⟩] }

theorem dependencies_inherit_forcingFile :
    .compiled { forcingFile with
        file := ⟨"extra.c"⟩
        forced := [⟨"x.h"⟩] } ∈
        dependencies forcingFile "main.o: ./main.c extra.c\n" ∧
      .compiled forcingFile ∈
        dependencies forcingFile "main.o: ./main.c extra.c\n" := by
  have hForced :
      ∀ f ∈ forcingFile.forced, f.normalize = f := by
    decide +kernel
  have hListed :=
    (dependencies_inherit hForced "main.o: ./main.c extra.c\n").1
  exact
    ⟨(hListed _).mpr
        ⟨"extra.c", by decide +kernel, by decide +kernel,
          by decide +kernel, by decide +kernel, rfl, rfl, rfl⟩,
      (hListed _).mpr
        ⟨"./main.c", by decide +kernel, by decide +kernel,
          by decide +kernel, by decide +kernel, rfl, rfl, rfl⟩⟩

/-
  The file that is forced is listed with a step to where it is. It
  is compared as it is written there, and so is forced into itself.
-/
theorem forces_itself_forcingFile :
    (∀ f ∈ forcingFile.forced, f.normalize = f) ∧
      ∃ d : Inclusion,
        .compiled d ∈
            dependencies forcingFile
              "main.o: main.c ./extra.c x.h\n" ∧
          d.Forces d.file := by
  refine
    ⟨by decide +kernel,
      { forcingFile with file := ⟨"extra.c"⟩ }, ?_, ?_⟩
  all_goals decide +kernel

end MakeRule

end Variability
