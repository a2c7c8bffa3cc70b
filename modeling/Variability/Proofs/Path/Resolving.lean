import Variability.Proofs.Path.Naming
import Variability.Proofs.Path.Places

/-
  Paths resolved against a directory.

  A path that is joined to a directory goes on from the normal form
  of the directory, and only its own normal form counts. So a path
  names the same file after it was rebased: from the root if that
  file lies there, and by an absolute path otherwise.

  Main declarations:
    * `Path.normalizeComponents_join`
    * `Path.normalize_join_congr`
    * `Path.normalize_join_join`
    * `Path.rebase_namesSame`
-/

namespace Variability

namespace Path

variable {p q r base root : Path}
variable {c : Component}
variable {cs stack upper : List Component}

------------------------------------------------------------
-- Components upon Components
------------------------------------------------------------

@[simp] theorem pushComponent_here
    (stack : List Component) :
    pushComponent stack .here = stack := by
  cases stack <;> rfl

@[simp] theorem pushComponent_name
    (stack : List Component)
    (text : String) :
    pushComponent stack (.name text) = .name text :: stack := by
  cases stack <;> rfl

/-
  A component may be pushed before the components that it is pushed
  upon are put upon others. The root would not give way to them.
-/
theorem foldl_pushComponent_pushComponent
    (hRoot : .root ∉ upper)
    (stack : List Component)
    (c : Component) :
    (pushComponent upper c).reverse.foldl pushComponent stack =
      pushComponent (upper.reverse.foldl pushComponent stack) c := by
  fun_cases pushComponent upper c
  · rw [pushComponent_here]
  · rename_i text rest
    rw [List.reverse_cons, List.foldl_append, List.foldl_cons,
      List.foldl_nil, pushComponent_name]
    rfl
  · exact absurd List.mem_cons_self hRoot
  · rw [List.reverse_cons, List.foldl_append]
    rfl

/- So may all components of a relative path. -/
theorem foldl_pushComponent_foldl
    (hUpper : .root ∉ upper)
    (hcs : .root ∉ cs)
    (stack : List Component) :
    (cs.foldl pushComponent upper).reverse.foldl
        pushComponent stack =
      cs.foldl pushComponent
        (upper.reverse.foldl pushComponent stack) := by
  induction cs generalizing upper with
  | nil => rfl
  | cons c cs ih =>
      rw [List.mem_cons, not_or] at hcs
      have hPushed : .root ∉ pushComponent upper c := by
        rw [root_mem_pushComponent_iff, not_or]
        exact ⟨hUpper, Ne.symm hcs.1⟩
      rw [List.foldl_cons, ih hPushed hcs.2,
        foldl_pushComponent_pushComponent hUpper]
      rfl

theorem foldl_pushComponent_normalizeComponents
    (hcs : .root ∉ cs)
    (stack : List Component) :
    (normalizeComponents cs).foldl pushComponent stack =
      cs.foldl pushComponent stack :=
  foldl_pushComponent_foldl List.not_mem_nil hcs stack

------------------------------------------------------------
-- Joined Paths
------------------------------------------------------------

theorem root_not_mem_components
    (hRelative : p.isAbsolute = false) :
    .root ∉ p.components := by
  rw [← isAbsolute_iff_mem, hRelative]
  exact Bool.false_ne_true

/- A relative path goes on from the normal form of its directory. -/
theorem normalizeComponents_join
    (p : Path)
    (hRelative : q.isAbsolute = false) :
    normalizeComponents (p.join q).components =
      (q.components.foldl pushComponent
        (normalizeComponents p.components).reverse).reverse := by
  by_cases hText : p.text.toList = []
  · have hEmpty : p = ⟨""⟩ := by
      rcases p with ⟨text⟩
      exact congrArg mk (String.toList_eq_nil_iff.mp hText)
    have hJoined : p.join q = q := by
      simp [join, hRelative, hEmpty]
    rw [hJoined, hEmpty]
    rfl
  · have hParts :
        (partsOf q.text.toList).foldl pushComponent
            (p.components.foldl pushComponent []) =
          q.components.foldl pushComponent
            (p.components.foldl pushComponent []) := by
      rcases components_eq_partsOf_or hRelative with
        hSame | hHere
      · rw [hSame]
      · rw [hHere, List.foldl_cons, pushComponent_here]
    rw [normalizeComponents, components_join_parts hText hRelative,
      List.foldl_append, hParts, normalizeComponents,
      List.reverse_reverse]

theorem isAbsolute_congr
    (hEq : p.normalize = q.normalize) :
    p.isAbsolute = q.isAbsolute := by
  rw [← isAbsolute_normalize, hEq, isAbsolute_normalize]

/- Of a joined path only the normal forms of both parts count. -/
theorem normalize_join_congr
    {p' q' : Path}
    (hp : p.normalize = p'.normalize)
    (hq : q.normalize = q'.normalize) :
    (p.join q).normalize = (p'.join q').normalize := by
  have hKind := isAbsolute_congr hq
  cases hAbsolute : q.isAbsolute with
  | true =>
      rw [join, if_pos hAbsolute, join,
        if_pos (hKind ▸ hAbsolute), hq]
  | false =>
      have hRelative : q'.isAbsolute = false := hKind ▸ hAbsolute
      rw [normalize_eq_iff] at hp hq ⊢
      rw [normalizeComponents_join p hAbsolute,
        normalizeComponents_join p' hRelative, hp,
        ← foldl_pushComponent_normalizeComponents
          (root_not_mem_components hAbsolute),
        hq,
        foldl_pushComponent_normalizeComponents
          (root_not_mem_components hRelative)]

/- It does not count where a path of three parts is joined first. -/
theorem normalize_join_join
    (p q r : Path) :
    ((p.join q).join r).normalize =
      (p.join (q.join r)).normalize := by
  cases hr : r.isAbsolute with
  | true =>
      have hJoin (s : Path) : s.join r = r := by
        rw [join, if_pos hr]
      rw [hJoin, hJoin, hJoin]
  | false =>
      cases hq : q.isAbsolute with
      | true =>
          have hJoin : (q.join r).isAbsolute = true :=
            isAbsolute_join hq
          rw [join.eq_def p q, if_pos hq, join.eq_def p,
            if_pos hJoin]
      | false =>
          have hqRoot := root_not_mem_components hq
          have hrRoot := root_not_mem_components hr
          have hNormal :
              .root ∉ (normalizeComponents q.components).reverse := by
            rw [normalizeComponents, List.reverse_reverse,
              root_mem_foldl_iff]
            simpa using hqRoot
          have hInner : (q.join r).normalize.isAbsolute = false := by
            rw [Bool.eq_false_iff, ne_eq, isAbsolute_iff_mem,
              components_normalize, normalizeComponents_join q hr,
              List.mem_reverse, root_mem_foldl_iff, not_or]
            exact ⟨hNormal, hrRoot⟩
          have hJoin : (q.join r).isAbsolute = false := by
            rwa [isAbsolute_normalize] at hInner
          rw [normalize_eq_iff, normalizeComponents_join _ hr,
            normalizeComponents_join p hq,
            normalizeComponents_join p hJoin,
            ← foldl_pushComponent_normalizeComponents
              (root_not_mem_components hJoin),
            normalizeComponents_join q hr,
            foldl_pushComponent_foldl hNormal hrRoot,
            List.reverse_reverse, List.reverse_reverse,
            foldl_pushComponent_normalizeComponents hqRoot]

------------------------------------------------------------
-- Rebased Paths
------------------------------------------------------------

/- A path is rebased onto the normal form of its root. -/
theorem rebase_normalize
    (p base root : Path) :
    rebase p base root.normalize = rebase p base root := by
  rw [rebase, rebase, normalize_normalize]

/- The base counts by its normal form only. -/
theorem rebase_base_normalize
    (p base root : Path) :
    rebase p base.normalize root = rebase p base root := by
  rw [rebase_eq, rebase_eq,
    normalize_join_congr (normalize_normalize base) rfl]

section Rebased

variable (hBase : base.isAbsolute = true)
variable (hRoot : root.isAbsolute = true)
include hBase hRoot

/-
  Rebasing leaves the names behind the root, or an absolute path to
  a place outside.
-/
theorem rebase_cases (p : Path) :
    AreNames (rebase p base root).normalize.components ∧
        (base.join p).normalize.components =
          root.normalize.components ++
            (rebase p base root).normalize.components ∨
      (rebase p base root).isAbsolute = true ∧
        ¬ root.normalize.components <+:
          (base.join p).normalize.components ∧
        (rebase p base root).normalize =
          (base.join p).normalize := by
  have hSelf := normalize_normalize root
  have hKind : root.normalize.isAbsolute = true := by
    rwa [isAbsolute_normalize]
  have hCases := components_rebase hSelf hKind p base
  rw [rebase_normalize] at hCases
  rcases hCases with
    ⟨names, hNames, hWhole, hMade⟩ | ⟨hOutside, hMade⟩
  · rw [hMade]
    exact Or.inl ⟨hNames, hWhole⟩
  · have hAbsolute : (rebase p base root).isAbsolute = true := by
      rw [← isAbsolute_normalize, isAbsolute_iff_mem, hMade,
        ← isAbsolute_iff_mem, isAbsolute_normalize]
      exact isAbsolute_join hBase
    rw [components_normalize, components_normalize] at hMade
    exact
      Or.inr
        ⟨hAbsolute, hOutside, (normalize_eq_iff _ _).mpr hMade⟩

/- A rebased path is seen from the root as it was from the base. -/
theorem normalize_join_rebase (p : Path) :
    (root.join (rebase p base root)).normalize =
      (base.join p).normalize := by
  rcases rebase_cases hBase hRoot p with
    ⟨hNames, hWhole⟩ | ⟨hAbsolute, -, hMade⟩
  · have hJoin := components_join_names root.normalize hNames
    rw [← normalize_normalize (base.join p),
      ← normalize_join_congr (normalize_normalize root)
        (normalize_normalize (rebase p base root)),
      normalize_eq_iff, hJoin, hWhole]
  · rw [join, if_pos hAbsolute, hMade]

/- A rebased path is relative where it leads into the root. -/
theorem isAbsolute_rebase_iff (p : Path) :
    (rebase p base root).isAbsolute = false ↔
      root.normalize.components <+:
        (base.join p).normalize.components := by
  rcases rebase_cases hBase hRoot p with
    ⟨hNames, hWhole⟩ | ⟨hAbsolute, hOutside, -⟩
  · have hRelative : (rebase p base root).isAbsolute = false := by
      rw [← isAbsolute_normalize]
      exact hNames.isAbsolute_eq
    exact iff_of_true hRelative ⟨_, hWhole.symm⟩
  · exact iff_of_false (by simp [hAbsolute]) hOutside

/- No step of a rebased path leads up. -/
theorem up_not_mem_rebase (p : Path) :
    .up ∉ (rebase p base root).components := by
  have hReduced := isReduced_rebase p base root
  have hCases := rebase_cases hBase hRoot p
  have hWhole := isNormal_components_normalize (base.join p)
  have hBelow : (base.join p).normalize.isAbsolute = true := by
    rw [isAbsolute_normalize]
    exact isAbsolute_join hBase
  rcases hReduced with hSelf | hHere
  · rw [hSelf] at hCases
    intro hUp
    rcases hCases with ⟨hNames, -⟩ | ⟨-, -, hMade⟩
    · rcases hNames _ hUp with ⟨text, hName, -⟩
      cases hName
    · rcases hWhole.eq_cons_of_isAbsolute hBelow with
        ⟨names, hNames, hEq⟩
      rw [hMade, hEq, List.mem_cons] at hUp
      rcases hUp with hRoot | hUp
      · cases hRoot
      · rcases hNames _ hUp with ⟨text, hName, -⟩
        cases hName
  · rw [hHere]
    decide

/- A path that was rebased stays as it is. -/
theorem rebase_rebase (p : Path) :
    rebase (rebase p base root) root root = rebase p base root := by
  have hSelf := normalize_normalize root
  have hKind : root.normalize.isAbsolute = true := by
    rwa [isAbsolute_normalize]
  have hAgain :=
    rebase_eq_self hSelf hKind
      (isReduced_rebase p base root.normalize)
      (isNamed_rebase hSelf hKind hBase p)
  rwa [rebase_normalize, rebase_base_normalize, rebase_normalize]
    at hAgain

end Rebased

/-
  A rebased path names what the path named: seen from the root it
  leads to the place that the path led to from the base. It is
  relative if and only if this place is the root or lies below it.
  No step of it leads up, it is never empty, and rebasing it from the
  root once more leaves it as it is.
-/
theorem rebase_namesSame
    (hBase : base.isAbsolute = true)
    (hRoot : root.isAbsolute = true)
    (p : Path) :
    (root.join (rebase p base root)).normalize =
        (base.join p).normalize ∧
      ((rebase p base root).isAbsolute = false ↔
        root.normalize.components <+:
          (base.join p).normalize.components) ∧
      .up ∉ (rebase p base root).components ∧
      (rebase p base root).text ≠ "" ∧
      rebase (rebase p base root) root root =
        rebase p base root :=
  ⟨normalize_join_rebase hBase hRoot p,
    isAbsolute_rebase_iff hBase hRoot p,
    up_not_mem_rebase hBase hRoot p,
    rebase_ne_empty hBase p root,
    rebase_rebase hBase hRoot p⟩

/- Out of the root and into it again, over a name and a `.`. -/
theorem rebase_namesSame_climbingPath :
    (⟨"/tmp/src/sub"⟩ : Path).isAbsolute = true ∧
      (⟨"/tmp/./src/"⟩ : Path).isAbsolute = true ∧
      rebase ⟨"../../src/x/.././a.c"⟩ ⟨"/tmp/src/sub"⟩
          ⟨"/tmp/./src/"⟩ =
        ⟨"a.c"⟩ ∧
      ((⟨"/tmp/./src/"⟩ : Path).join ⟨"a.c"⟩).normalize =
        ((⟨"/tmp/src/sub"⟩ : Path).join
          ⟨"../../src/x/.././a.c"⟩).normalize := by
  have hBase : (⟨"/tmp/src/sub"⟩ : Path).isAbsolute = true := by
    decide
  have hRoot : (⟨"/tmp/./src/"⟩ : Path).isAbsolute = true := by
    decide
  have hMade :
      rebase ⟨"../../src/x/.././a.c"⟩ ⟨"/tmp/src/sub"⟩
          ⟨"/tmp/./src/"⟩ =
        ⟨"a.c"⟩ := by
    decide
  have hSame :=
    (rebase_namesSame hBase hRoot ⟨"../../src/x/.././a.c"⟩).1
  rw [hMade] at hSame
  exact ⟨hBase, hRoot, hMade, hSame⟩

end Path

end Variability
