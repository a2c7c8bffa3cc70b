import Variability.Inclusion
import Variability.Proofs.Path.Components

/-
  When variants and dependencies are the same.

  Two of them are the same if certain parts are equal: the
  components of all paths, and the definitions. So being the same
  is an equivalence, and of a list of dependencies that are put
  into a set each stays, or one that is the same.

  Main declarations:
    * `Inclusion.same_iff`
    * `Dependency.same_iff`
    * `Dependency.SameSet`
    * `Dependency.exists_same_foldl`
-/

namespace Variability

------------------------------------------------------------
-- Paths
------------------------------------------------------------

namespace Path

variable {p q : Path}

theorem same_iff :
    p.same q = true ↔ p.components = q.components := by
  rw [same, beq_iff_eq]

theorem compare_eq_iff_same :
    Ord.compare p q = .eq ↔ q.same p = true := by
  rw [compare_eq_iff, same_iff, eq_comm]

theorem same_congr
    (hSame : p.same q = true)
    (r : Path) :
    r.same p = r.same q := by
  rw [same, same, same_iff.mp hSame]

theorem sameAll_iff_map
    (ps qs : List Path) :
    sameAll ps qs = true ↔
      ps.map components = qs.map components := by
  induction ps generalizing qs with
  | nil => cases qs <;> simp [sameAll]
  | cons p ps ih =>
      cases qs with
      | nil => simp [sameAll]
      | cons q qs => simp [sameAll, same_iff, ih]

theorem sameAll_self
    (ps : List Path) :
    sameAll ps ps = true :=
  (sameAll_iff_map ps ps).mpr rfl

end Path

------------------------------------------------------------
-- Variants
------------------------------------------------------------

namespace Inclusion

/- What tells a variant from others. -/
def variant (i : Inclusion) :
    List Component × List (List Component) × Dict String String :=
  (i.file.components, i.forced.map Path.components, i.defines)

theorem same_iff
    (a b : Inclusion) :
    a.same b = true ↔ a.variant = b.variant := by
  rw [same, Bool.and_eq_true, Bool.and_eq_true, Path.same_iff,
    Path.sameAll_iff_map, beq_iff_eq, variant, variant,
    Prod.mk.injEq, Prod.mk.injEq, and_assoc]

end Inclusion

------------------------------------------------------------
-- Sets of Dependencies
------------------------------------------------------------

namespace Dependency

variable {d : Dependency}
variable {ds ds' es es' set : List Dependency}

/- What tells a dependency from others. -/
def variant :
    Dependency →
      (List Component × List (List Component) ×
        Dict String String) ⊕ List Component
  | .compiled i => .inl i.variant
  | .header p => .inr p.components

theorem same_iff
    (d d' : Dependency) :
    d.same d' = true ↔ d.variant = d'.variant := by
  cases d <;> cases d' <;>
    simp [same, variant, Inclusion.same_iff, Path.same_iff]

theorem same_self (d : Dependency) : d.same d = true :=
  (same_iff d d).mpr rfl

/- Two sets hold the same dependencies. -/
def SameSet (ds ds' : List Dependency) : Prop :=
  (∀ d ∈ ds, ∃ d' ∈ ds', d.same d' = true) ∧
    ∀ d' ∈ ds', ∃ d ∈ ds, d'.same d = true

theorem SameSet.perm
    (hSame : SameSet ds ds')
    (hds : ds.Perm es)
    (hds' : ds'.Perm es') :
    SameSet es es' := by
  constructor
  · intro d hMem
    rcases hSame.1 d (hds.mem_iff.mpr hMem) with ⟨d', hd', hEq⟩
    exact ⟨d', hds'.mem_iff.mp hd', hEq⟩
  · intro d' hMem
    rcases hSame.2 d' (hds'.mem_iff.mpr hMem) with ⟨d, hd, hEq⟩
    exact ⟨d, hds.mem_iff.mp hd, hEq⟩

theorem subset_insert
    (set : List Dependency)
    (d : Dependency) :
    set ⊆ insert set d := by
  unfold insert
  split
  · exact List.Subset.refl set
  · exact List.subset_append_left set [d]

theorem exists_same_insert
    (set : List Dependency)
    (d : Dependency) :
    ∃ d' ∈ insert set d, d.same d' = true := by
  unfold insert
  split
  · rename_i hAny
    exact List.any_eq_true.mp hAny
  · exact ⟨d, by simp, same_self d⟩

theorem subset_foldl
    (ds set : List Dependency) :
    set ⊆ ds.foldl insert set := by
  induction ds generalizing set with
  | nil => exact List.Subset.refl set
  | cons d ds ih =>
      exact List.Subset.trans (subset_insert set d) (ih _)

/- What is put in, or one that is the same, is in the set. -/
theorem exists_same_foldl
    (hMem : d ∈ ds)
    (set : List Dependency) :
    ∃ d' ∈ ds.foldl insert set, d.same d' = true := by
  induction ds generalizing set with
  | nil => cases hMem
  | cons first ds ih =>
      rcases List.mem_cons.mp hMem with rfl | hRest
      · rcases exists_same_insert set d with ⟨d', hd', hSame⟩
        exact ⟨d', subset_foldl ds _ hd', hSame⟩
      · exact ih hRest _

/- Nothing else is in the set. -/
theorem mem_of_mem_foldl
    (hMem : d ∈ ds.foldl insert set) :
    d ∈ set ∨ d ∈ ds := by
  induction ds generalizing set with
  | nil => exact Or.inl hMem
  | cons first ds ih =>
      rcases ih hMem with hSet | hRest
      · unfold insert at hSet
        split at hSet
        · exact Or.inl hSet
        · rcases List.mem_append.mp hSet with hOld | hNew
          · exact Or.inl hOld
          · exact
              Or.inr (List.mem_cons.mpr
                (Or.inl (List.mem_singleton.mp hNew)))
      · exact Or.inr (List.mem_cons_of_mem first hRest)

theorem foldl_subset
    (ds : List Dependency) :
    ds.foldl insert [] ⊆ ds :=
  fun _ hMem => (mem_of_mem_foldl hMem).resolve_left nofun

/- The same dependencies make the same set, in whatever order. -/
theorem sameSet_foldl
    (hSame : ∀ d, d ∈ ds ↔ d ∈ ds') :
    SameSet (ds.foldl insert []) (ds'.foldl insert []) :=
  ⟨fun d hMem =>
      exists_same_foldl ((hSame d).mp (foldl_subset ds hMem)) [],
    fun d hMem =>
      exists_same_foldl ((hSame d).mpr (foldl_subset ds' hMem)) []⟩

end Dependency

end Variability
