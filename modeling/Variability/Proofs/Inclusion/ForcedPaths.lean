import Variability.Preamble
import Variability.Proofs.Generation.Targets
import Variability.Proofs.Path.Resolving

/-
  Forced includes as a generated file writes them.

  The path that leads from a directory to a target steps up out of
  the names that only the directory has, and then goes down. Joined
  to the directory it leads to the target again. So the directive
  for a forced include, read where the generated file lies, leads to
  the include in the output tree.

  Main declarations:
    * `Path.SharesStart`
    * `Path.components_relativeTo`
    * `Path.normalize_join_relativeTo`
    * `Inclusion.IsInside`
    * `Inclusion.relativeTo_leadsBack`
-/

namespace Variability

namespace Path

variable {p base target : Path}
variable {cs ds stack below : List Component}

------------------------------------------------------------
-- Steps Up
------------------------------------------------------------

/- What is under the upper components of a normal path is normal. -/
theorem IsStack.of_append_right
    (hStack : IsStack (stack ++ below)) :
    IsStack below := by
  induction stack with
  | nil => exact hStack
  | cons c stack ih => exact ih hStack.tail

/- Steps up may be put under all components but the root. -/
theorem IsStack.append_replicate_up
    (hStack : IsStack stack)
    (hRoot : .root ∉ stack)
    (n : Nat) :
    IsStack (stack ++ List.replicate n .up) := by
  induction stack with
  | nil => exact .of_all_up fun c => List.eq_of_mem_replicate
  | cons c stack ih =>
      rw [List.mem_cons, not_or] at hRoot
      cases c with
      | root => exact absurd rfl hRoot.1
      | here => exact hStack.elim
      | name text => exact ⟨hStack.1, ih hStack.2 hRoot.2⟩
      | up =>
          intro c hMem
          rcases List.mem_append.mp hMem with hUpper | hUnder
          · exact hStack c hUpper
          · exact List.eq_of_mem_replicate hUnder

theorem IsNormal.replicate_up_append
    (hNormal : IsNormal cs)
    (hRoot : .root ∉ cs)
    (n : Nat) :
    IsNormal (List.replicate n .up ++ cs) := by
  constructor
  rw [List.reverse_append, List.reverse_replicate]
  exact
    hNormal.isStack.append_replicate_up
      (by rwa [List.mem_reverse]) n

/- Each step up takes away one name. -/
theorem foldl_pushComponent_up
    (hNames : AreNames cs)
    (stack : List Component) :
    (List.replicate cs.length .up).foldl pushComponent
        (cs ++ stack) =
      stack := by
  induction cs with
  | nil => rfl
  | cons c cs ih =>
      rcases hNames c List.mem_cons_self with ⟨text, rfl, -⟩
      rw [List.length_cons, List.replicate_succ, List.foldl_cons]
      exact ih fun d hd => hNames d (List.mem_cons_of_mem _ hd)

/- The last components of a normal path are pushed upon the others. -/
theorem IsNormal.foldl_pushComponent_append
    (hNormal : IsNormal (cs ++ ds)) :
    ds.foldl pushComponent cs.reverse = (cs ++ ds).reverse := by
  have hStack := hNormal.isStack
  have hBelow : IsStack cs.reverse := by
    rw [List.reverse_append] at hStack
    exact hStack.of_append_right
  have hLower := foldl_pushComponent hBelow
  have hWhole := foldl_pushComponent hStack
  rw [List.reverse_reverse] at hLower hWhole
  rw [List.foldl_append, hLower] at hWhole
  exact hWhole

------------------------------------------------------------
-- Relative Paths
------------------------------------------------------------

/- What is dropped from two lists is the same in both. -/
theorem exists_dropCommon_eq
    (cs ds : List Component) :
    ∃ common,
      cs = common ++ (dropCommon cs ds).1 ∧
        ds = common ++ (dropCommon cs ds).2 := by
  fun_induction dropCommon cs ds with
  | case1 cs d ds ih =>
      rcases ih with ⟨common, hcs, hds⟩
      exact
        ⟨d :: common, congrArg (d :: ·) hcs,
          congrArg (d :: ·) hds⟩
  | case2 | case3 => exact ⟨[], rfl, rfl⟩

/-
  Two paths start at one place: at the root, or at a place that the
  first of them does not lead out of.
-/
def SharesStart (base target : Path) : Prop :=
  base.isAbsolute = true ∧ target.isAbsolute = true ∨
    base.isAbsolute = false ∧ target.isAbsolute = false ∧
      base.normalize.components.head? ≠ some .up

instance (base target : Path) :
    Decidable (base.SharesStart target) := by
  unfold SharesStart
  infer_instance

/-
  Behind what the base has in common with the target there are only
  names, and the target does not begin there.
-/
theorem SharesStart.exists_common
    (hShares : base.SharesStart target) :
    ∃ common back forth,
      dropCommon base.normalize.components
          target.normalize.components =
        (back, forth) ∧
        base.normalize.components = common ++ back ∧
        target.normalize.components = common ++ forth ∧
        AreNames back ∧ .root ∉ forth := by
  have hBase := isNormal_components_normalize base
  have hTarget := isNormal_components_normalize target
  rcases hShares with
    ⟨hKind, hKind'⟩ | ⟨hKind, hKind', hInside⟩ <;>
    rw [← isAbsolute_normalize] at hKind hKind'
  · rcases hBase.eq_cons_of_isAbsolute hKind with
      ⟨names, hNames, hEq⟩
    rcases hTarget.eq_cons_of_isAbsolute hKind' with
      ⟨names', hNames', hEq'⟩
    rcases exists_dropCommon_eq names names' with
      ⟨common, hBack, hForth⟩
    refine
      ⟨.root :: common, (dropCommon names names').1,
        (dropCommon names names').2, ?_, ?_, ?_,
        fun c hMem => ?_, ?_⟩
    · rw [hEq, hEq', dropCommon, if_pos rfl]
    · rw [hEq, List.cons_append, ← hBack]
    · rw [hEq', List.cons_append, ← hForth]
    · apply hNames
      rw [hBack]
      exact List.mem_append_right common hMem
    · intro hMem
      have hRoot : Component.root ∈ names' := by
        rw [hForth]
        exact List.mem_append_right common hMem
      rcases hNames' _ hRoot with ⟨text, hName, -⟩
      cases hName
  · have hNames :=
      (hBase.cases_of_relative hKind).resolve_right hInside
    rcases exists_dropCommon_eq base.normalize.components
        target.normalize.components with
      ⟨common, hBack, hForth⟩
    refine
      ⟨common, _, _, rfl, hBack, hForth, fun c hMem => ?_,
        fun hMem => ?_⟩
    · apply hNames
      rw [hBack]
      exact List.mem_append_right common hMem
    · apply root_not_mem_components hKind'
      rw [hForth]
      exact List.mem_append_right common hMem

/- A relative path steps up first, and does not begin at the root. -/
theorem components_relativeTo
    {back forth : List Component}
    (hDrop :
      dropCommon base.normalize.components
          target.normalize.components =
        (back, forth))
    (hForth : IsNormal forth)
    (hRoot : .root ∉ forth) :
    (target.relativeTo base).components =
      List.replicate back.length .up ++ forth := by
  rw [relativeTo, hDrop]
  dsimp only
  rw [List.map_const',
    components_ofComponents
      (hForth.replicate_up_append hRoot back.length)]

/- The path from a directory to a target is relative. -/
theorem SharesStart.isAbsolute_relativeTo
    (hShares : base.SharesStart target) :
    (target.relativeTo base).isAbsolute = false := by
  rcases hShares.exists_common with
    ⟨common, back, forth, hDrop, -, hForth, -, hRoot⟩
  have hNormal := isNormal_components_normalize target
  rw [hForth] at hNormal
  rw [Bool.eq_false_iff, ne_eq, isAbsolute_iff_mem,
    components_relativeTo hDrop hNormal.of_append hRoot]
  simpa using hRoot

/- It leads from the directory to the target. -/
theorem SharesStart.normalize_join_relativeTo
    (hShares : base.SharesStart target) :
    (base.join (target.relativeTo base)).normalize =
      target.normalize := by
  have hRelative := hShares.isAbsolute_relativeTo
  rcases hShares.exists_common with
    ⟨common, back, forth, hDrop, hBack, hForth, hNames, hRoot⟩
  have hNormal := isNormal_components_normalize target
  rw [hForth] at hNormal
  have hUp : AreNames back.reverse := fun c hMem =>
    hNames c (List.mem_reverse.mp hMem)
  have hSteps := foldl_pushComponent_up hUp common.reverse
  rw [List.length_reverse] at hSteps
  rw [normalize_eq_iff, normalizeComponents_join base hRelative,
    components_relativeTo hDrop hNormal.of_append hRoot,
    ← components_normalize, ← components_normalize, hBack,
    List.reverse_append, List.foldl_append, hSteps,
    hNormal.foldl_pushComponent_append, List.reverse_reverse,
    hForth]

end Path

namespace Inclusion

variable {i : Inclusion}
variable {p : Path}

------------------------------------------------------------
-- Forced Includes
------------------------------------------------------------

/- The directory that a file's forced includes are seen from. -/
def directory (i : Inclusion) : Path :=
  i.file.parent?.getD ⟨""⟩

theorem components_directory (i : Inclusion) :
    i.directory.components = i.directoryComponents := by
  rw [directory, directoryComponents]
  cases i.file.parent? <;> rfl

/- A file inside the source tree, by its normal path. -/
structure IsInside (i : Inclusion) : Prop where
  normal : i.file.normalize = i.file
  relative : i.file.isAbsolute = false
  inside : i.file.components.head? ≠ some .up

/- An inclusion is made by the normal path of its file. -/
theorem isInside_make
    (hRelative : p.isAbsolute = false)
    (hInside : p.normalize.components.head? ≠ some .up)
    (forced : List Path)
    (defines : Dict String String)
    (paths systemPaths : List Path) :
    (make p forced defines paths systemPaths).IsInside where
  normal := Path.normalize_normalize p
  relative := (Path.isAbsolute_normalize p).trans hRelative
  inside := hInside

theorem IsInside.areNames_file
    (hInside : i.IsInside) :
    Path.AreNames i.file.components :=
  ((Path.isNormal_of_normalize_eq
    hInside.normal).cases_of_relative
      hInside.relative).resolve_right hInside.inside

theorem IsInside.areNames_directory
    (hInside : i.IsInside) :
    Path.AreNames i.directory.components := by
  rw [components_directory,
    Generation.directoryComponents_eq_dropLast
      hInside.areNames_file]
  exact hInside.areNames_file.dropLast

/- The path of a forced include leads there from the file's directory. -/
theorem IsInside.normalize_join_forcedPath
    (hInside : i.IsInside)
    (p : Path) :
    (i.directory.join (i.forcedPath p)).normalize =
      p.normalize := by
  have hNames := hInside.areNames_directory
  unfold forcedPath
  cases hKind : p.isAbsolute with
  | true => rw [if_pos rfl, Path.join, if_pos hKind]
  | false =>
      have hNormal := Path.IsNormal.of_names hNames
      have hStays : i.directory.normalize.components.head? ≠
          some .up := by
        rw [Path.components_normalize_eq hNormal]
        exact hNames.head?_ne (by simp)
      have hShares : i.directory.SharesStart p :=
        Or.inr ⟨hNames.isAbsolute_eq, hKind, hStays⟩
      rw [if_neg Bool.false_ne_true]
      exact hShares.normalize_join_relativeTo

/- The generated file lies where the file lies in the source tree. -/
theorem IsInside.exists_parent?_target
    (hInside : i.IsInside)
    (destination : Path) :
    ∃ directory,
      (destination.join i.composedPath).parent? =
          some directory ∧
        directory.normalize =
          (destination.join i.directory).normalize := by
  have hTarget :=
    Path.components_join_names destination
      (Generation.areNames_composedPath hInside.areNames_file)
  have hDirectory :=
    Path.components_join_names destination
      hInside.areNames_directory
  rw [components_composedPath, ← List.append_assoc,
    ← components_directory, ← hDirectory] at hTarget
  rcases Path.exists_parent? hTarget with ⟨directory, hParent⟩
  refine ⟨directory, hParent, ?_⟩
  rw [Path.normalize_eq_iff, Path.components_parent? hParent,
    hTarget, List.dropLast_concat]

/- The text of a preamble has the directive for every forced include. -/
theorem exists_preamble_eq
    (hForced : p ∈ i.forced) :
    ∃ before behind,
      i.preamble =
        before ++ includeLine (i.forcedPath p) ++ behind := by
  rcases List.append_of_mem hForced with ⟨ps, qs, hEq⟩
  have hMem :
      includeLine (i.forcedPath p) ∈
        i.forced.map fun q => includeLine (i.forcedPath q) :=
    List.mem_map_of_mem hForced
  rcases List.append_of_mem hMem with ⟨before, behind, hEq⟩
  refine
    ⟨String.join (i.defines.map fun d => defineLine d.1 d.2) ++
      String.join before, String.join behind, ?_⟩
  rw [preamble, hEq, String.join_append, String.join_cons]
  simp only [String.append_assoc]

/-
  The path from a directory to a target leads back to the target, if
  both are absolute, or both are relative and the directory's normal
  form does not start with a step up. So a forced include of a file
  inside the source tree, by the path that the preamble has for it,
  is found from the directory of the generated file at its place in
  the output tree; absolute ones are written as they are.
-/
theorem relativeTo_leadsBack :
    (∀ base target : Path,
      base.isAbsolute = true ∧ target.isAbsolute = true ∨
          base.isAbsolute = false ∧ target.isAbsolute = false ∧
            base.normalize.components.head? ≠ some .up →
        (target.relativeTo base).isAbsolute = false ∧
          (base.join (target.relativeTo base)).normalize =
            target.normalize) ∧
      ∀ (i : Inclusion) (destination : Path), i.IsInside →
        ∃ directory,
          (destination.join i.composedPath).parent? =
              some directory ∧
            ∀ p ∈ i.forced,
              (∃ before behind,
                i.preamble =
                  before ++ includeLine (i.forcedPath p) ++
                    behind) ∧
                (directory.join (i.forcedPath p)).normalize =
                  (destination.join p).normalize := by
  constructor
  · intro base target hShares
    have hStart : base.SharesStart target := hShares
    exact
      ⟨hStart.isAbsolute_relativeTo,
        hStart.normalize_join_relativeTo⟩
  · intro i destination hInside
    rcases hInside.exists_parent?_target destination with
      ⟨directory, hParent, hSame⟩
    refine
      ⟨directory, hParent, fun p hForced =>
        ⟨exists_preamble_eq hForced, ?_⟩⟩
    calc (directory.join (i.forcedPath p)).normalize
      _ = ((destination.join i.directory).join
            (i.forcedPath p)).normalize :=
          Path.normalize_join_congr hSame rfl
      _ = (destination.join
            (i.directory.join (i.forcedPath p))).normalize :=
          Path.normalize_join_join _ _ _
      _ = (destination.join p).normalize :=
          Path.normalize_join_congr rfl
            (hInside.normalize_join_forcedPath p)

/- A header beside the directory, and a forced include of a file. -/
theorem relativeTo_leadsBack_nestedFile :
    ((⟨"/src/x"⟩ : Path).isAbsolute = true ∧
        (⟨"/include/./a.h"⟩ : Path).isAbsolute = true ∧
        Path.relativeTo ⟨"/include/./a.h"⟩ ⟨"/src/x"⟩ =
          ⟨"../../include/a.h"⟩ ∧
        ((⟨"/src/x"⟩ : Path).join
            ⟨"../../include/a.h"⟩).normalize =
          (⟨"/include/./a.h"⟩ : Path).normalize) ∧
      ∃ i : Inclusion, i.IsInside ∧
        i = make ⟨"src/./main.c"⟩ [⟨"include/config.h"⟩]
          [] [] [] ∧
        ∃ directory before behind,
          ((⟨"/out"⟩ : Path).join i.composedPath).parent? =
              some directory ∧
            i.preamble =
              before ++ "#include \"../include/config.h\"\n" ++
                behind ∧
            (directory.join ⟨"../include/config.h"⟩).normalize =
              ((⟨"/out"⟩ : Path).join
                ⟨"include/config.h"⟩).normalize := by
  have hBase : (⟨"/src/x"⟩ : Path).isAbsolute = true := by
    decide
  have hTarget : (⟨"/include/./a.h"⟩ : Path).isAbsolute = true := by
    decide
  have hBetween :
      Path.relativeTo ⟨"/include/./a.h"⟩ ⟨"/src/x"⟩ =
        ⟨"../../include/a.h"⟩ := by
    decide
  have hBack :=
    (relativeTo_leadsBack.1 _ _ (Or.inl ⟨hBase, hTarget⟩)).2
  rw [hBetween] at hBack
  refine ⟨⟨hBase, hTarget, hBetween, hBack⟩, ?_⟩
  have hInside :
      (make ⟨"src/./main.c"⟩ [⟨"include/config.h"⟩]
        [] [] []).IsInside :=
    isInside_make (by decide) (by decide) _ _ _ _
  have hPath :
      (make ⟨"src/./main.c"⟩ [⟨"include/config.h"⟩]
          [] [] []).forcedPath ⟨"include/config.h"⟩ =
        ⟨"../include/config.h"⟩ := by
    decide
  have hMem :
      (⟨"include/config.h"⟩ : Path) ∈
        (make ⟨"src/./main.c"⟩ [⟨"include/config.h"⟩]
          [] [] []).forced :=
    List.mem_singleton.mpr rfl
  rcases relativeTo_leadsBack.2 _ ⟨"/out"⟩ hInside with
    ⟨directory, hParent, hForced⟩
  rcases hForced _ hMem with ⟨⟨before, behind, hText⟩, hSame⟩
  rw [hPath] at hText hSame
  exact
    ⟨_, hInside, rfl, directory, before, behind, hParent, hText,
      hSame⟩

end Inclusion

end Variability
