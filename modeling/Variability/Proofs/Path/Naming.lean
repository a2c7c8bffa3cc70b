import Variability.Proofs.Dict.Ordered
import Variability.Proofs.Inclusion.Variants

/-
  Paths that name what they named before.

  A path that was rebased onto the source tree is in its normal
  form, or it is the tree itself. Rebasing it from the tree once
  more keeps it, if it is not empty and follows the convention of
  the tree; it always does if it was seen from an absolute
  directory. Ordered sets of paths are kept as a whole.

  Main declarations:
    * `Path.IsNamed`
    * `Path.rebase_eq_self`
    * `Path.isNamed_rebase`
    * `Path.orderedSet_eq_self`
-/

namespace Variability

namespace Path

variable {p q base root : Path}
variable {ps : List Path}

------------------------------------------------------------
-- Ordered Sets
------------------------------------------------------------

/- The paths stand in their order, each once. -/
def IsOrderedSet (ps : List Path) : Prop :=
  ps.Pairwise fun p q => Ord.compare p q = .lt

theorem isOrderedSet_insertOrdered
    (hOrdered : IsOrderedSet ps)
    (p : Path) :
    IsOrderedSet (insertOrdered p ps) := by
  induction ps with
  | nil => exact List.pairwise_singleton _ _
  | cons q ps ih =>
      rcases List.pairwise_cons.mp hOrdered with ⟨hFirst, hRest⟩
      unfold insertOrdered
      cases hOrder : p.compare q with
      | lt =>
          have hLess : Ord.compare p q = .lt := hOrder
          refine List.pairwise_cons.mpr ⟨fun r hr => ?_, hOrdered⟩
          rcases List.mem_cons.mp hr with rfl | hr
          · exact hLess
          · exact Std.TransCmp.lt_trans hLess (hFirst r hr)
      | eq => exact hOrdered
      | gt =>
          have hGreater : Ord.compare p q = .gt := hOrder
          refine
            List.pairwise_cons.mpr ⟨fun r hr => ?_, ih hRest⟩
          rcases mem_insertOrdered hr with rfl | hr
          · exact Std.OrientedCmp.gt_iff_lt.mp hGreater
          · exact hFirst r hr

theorem orderedSet_cons
    (p : Path)
    (ps : List Path) :
    orderedSet (p :: ps) = insertOrdered p (orderedSet ps) := by
  simp [orderedSet]

theorem isOrderedSet_orderedSet
    (ps : List Path) :
    IsOrderedSet (orderedSet ps) := by
  induction ps with
  | nil => exact List.Pairwise.nil
  | cons p ps ih =>
      rw [orderedSet_cons]
      exact isOrderedSet_insertOrdered ih p

/- The paths of an ordered set are put in from the last, each in front. -/
theorem orderedSet_eq_self
    (hOrdered : IsOrderedSet ps) :
    orderedSet ps = ps := by
  induction ps with
  | nil => rfl
  | cons p ps ih =>
      rcases List.pairwise_cons.mp hOrdered with ⟨hFirst, hRest⟩
      rw [orderedSet_cons, ih hRest]
      cases ps with
      | nil => rfl
      | cons q ps =>
          have hLess : p.compare q = .lt :=
            hFirst q List.mem_cons_self
          rw [insertOrdered, hLess]

------------------------------------------------------------
-- Rebased Paths
------------------------------------------------------------

/- A path that names a file, or the tree, as it is seen from the tree. -/
structure IsNamed (root p : Path) : Prop where
  nonempty : p.text ≠ ""
  proper : root.IsProper p

theorem FollowsConvention.isNamed
    (hFollows : root.FollowsConvention q)
    (hRoot : root.normalize = root)
    (hNormal : IsNormal q.components)
    (hText : q.text ≠ "") :
    root.IsNamed q :=
  ⟨hText,
    (followsConvention_iff (isNormal_of_normalize_eq hRoot)
      hNormal).mp hFollows⟩

/- A path in its normal form, or the directory it is seen from. -/
def IsReduced (p : Path) : Prop :=
  p.normalize = p ∨ p = ⟨"."⟩

theorem normalize_eq_self
    (hSpelled : p.IsSpelled)
    (hNormal : IsNormal p.components) :
    p.normalize = p := by
  rw [normalize, normalizeComponents_eq hNormal]
  exact hSpelled.symm

theorem isReduced_rebase
    (p base root : Path) :
    (rebase p base root).IsReduced := by
  rw [rebase_eq]
  have hNormal := isNormal_components_normalize (base.join p)
  have hSelf := normalize_normalize (base.join p)
  generalize (base.join p).normalize = whole
    at hNormal hSelf ⊢
  rw [strip?]
  cases hStrip :
      stripComponents root.normalize.components
        whole.components with
  | none => exact Or.inl hSelf
  | some rest =>
      rw [(stripComponents_eq_some_iff _ _ _).mp hStrip]
        at hNormal
      have hRest := hNormal.of_append
      rw [Option.map_some]
      dsimp only
      split
      · exact Or.inr rfl
      · refine Or.inl (normalize_eq_self ?_ ?_)
        · exact isSpelled_ofComponents hRest
        · rw [components_ofComponents hRest]
          exact hRest

theorem isProper_here
    (root : Path) :
    root.IsProper ⟨"."⟩ := by
  have hRelative : (⟨"."⟩ : Path).isAbsolute ≠ true := by decide
  rw [IsProper, if_neg hRelative]
  decide

/- Seen from an absolute directory, every path is named. -/
theorem isNamed_rebase
    (hRoot : root.normalize = root)
    (hAbsolute : root.isAbsolute = true)
    (hBase : base.isAbsolute = true)
    (p : Path) :
    root.IsNamed (rebase p base root) := by
  have hFollows := followsConvention_rebase hRoot hAbsolute hBase p
  have hText := rebase_ne_empty hBase p root
  rcases isReduced_rebase p base root with hSelf | hHere
  · rw [hSelf] at hFollows
    exact
      hFollows.isNamed hRoot (isNormal_of_normalize_eq hSelf) hText
  · rw [hHere]
    exact ⟨by decide, isProper_here root⟩

/- The directory itself adds no component. -/
theorem components_join_here
    (hText : p.text.toList ≠ []) :
    (p.join ⟨"."⟩).components = p.components := by
  have hHere : partsOf (⟨"."⟩ : Path).text.toList = [] := by decide
  rw [components_join_parts hText (by decide), hHere,
    List.append_nil]

theorem rebase_here
    (hRoot : root.normalize = root)
    (hAbsolute : root.isAbsolute = true) :
    rebase ⟨"."⟩ root root = ⟨"."⟩ := by
  have hText : root.text.toList ≠ [] := by
    intro hEmpty
    rw [isAbsolute, hEmpty] at hAbsolute
    cases hAbsolute
  have hWhole : (root.join ⟨"."⟩).normalize = root := by
    rw [normalize, components_join_here hText]
    exact hRoot
  have hStrip : root.strip? root = some ⟨""⟩ := by
    have hSelf :=
      (stripComponents_eq_some_iff root.components
        root.components []).mpr (List.append_nil _).symm
    rw [strip?, hSelf]
    rfl
  rw [rebase_eq, hWhole, hRoot, hStrip]
  rfl

/- A named path is kept if it is rebased from the tree. -/
theorem rebase_eq_self
    (hRoot : root.normalize = root)
    (hAbsolute : root.isAbsolute = true)
    (hReduced : p.IsReduced)
    (hNamed : root.IsNamed p) :
    rebase p root root = p := by
  have hRootNormal := isNormal_of_normalize_eq hRoot
  rcases hReduced with hSelf | rfl
  · have hNormal := isNormal_of_normalize_eq hSelf
    have hSpelled : p.IsSpelled := hSelf ▸ isSpelled_normalize p
    cases hKind : p.isAbsolute with
    | true =>
        have hOutside := hNamed.proper
        rw [IsProper, if_pos hKind] at hOutside
        have hJoin : root.join p = p := by
          rw [join, if_pos hKind]
        have hNone : p.strip? root = none := by
          rw [strip?, Option.map_eq_none_iff,
            Option.eq_none_iff_forall_ne_some]
          intro rest hRest
          exact hOutside
            ⟨rest, ((stripComponents_eq_some_iff _ _ _).mp
              hRest).symm⟩
        rw [rebase_eq, hJoin, hSelf, hRoot, hNone]
    | false =>
        have hNames := hNamed.proper.names hNormal hKind
        have hJoin := components_join_names root hNames
        have hWhole :
            (root.join p).normalize.components =
              root.components ++ p.components := by
          rw [components_normalize_eq, hJoin]
          rw [hJoin]
          exact hRootNormal.append_names hNames
        have hStrip :
            (root.join p).normalize.strip? root = some p := by
          rw [strip?, hWhole,
            (stripComponents_eq_some_iff _ _ _).mpr rfl,
            Option.map_some, ← hSpelled]
        rw [rebase_eq, hRoot, hStrip]
        exact if_neg hNamed.nonempty
  · exact rebase_here hRoot hAbsolute

end Path

end Variability
