import Variability.Proofs.Path.Components

/-
  Paths inside a directory and outside of it.

  A path that is seen from a directory lies in it if its normal
  form goes on behind the directory's. Of the normal paths those
  that are relative and do not start with a step up lie inside;
  absolute ones may lie on either side.

  Main declarations:
    * `Path.LiesIn`
    * `Path.FollowsConvention`
    * `Path.followsConvention_iff`
    * `Path.followsConvention_rebase_iff`
-/

namespace Variability

namespace Path

variable {p q root base : Path}
variable {c : Component}
variable {cs ds : List Component}

------------------------------------------------------------
-- Names
------------------------------------------------------------

/- Components that only lead down. -/
def AreNames (cs : List Component) : Prop :=
  ∀ c ∈ cs, ∃ text, c = .name text ∧ c.IsPlain

theorem AreNames.append
    (hcs : AreNames cs)
    (hds : AreNames ds) :
    AreNames (cs ++ ds) := by
  intro c hMem
  rcases List.mem_append.mp hMem with hMem | hMem
  · exact hcs c hMem
  · exact hds c hMem

theorem AreNames.dropLast
    (hcs : AreNames cs) :
    AreNames cs.dropLast :=
  fun c hMem => hcs c (List.dropLast_subset cs hMem)

theorem AreNames.head?_ne
    (hNames : AreNames cs)
    (hc : ∀ text, c ≠ .name text) :
    cs.head? ≠ some c := by
  intro hHead
  rcases hNames c (List.mem_of_head? hHead) with
    ⟨text, rfl, -⟩
  exact hc text rfl

/- Names may be put upon the components of a normal path. -/
theorem IsStack.append_names
    {stack : List Component}
    (hNames : AreNames cs)
    (hStack : IsStack stack) :
    IsStack (cs ++ stack) := by
  induction cs with
  | nil => exact hStack
  | cons c cs ih =>
      rcases hNames c List.mem_cons_self with ⟨text, rfl, hPlain⟩
      exact
        ⟨hPlain, ih fun d hd =>
          hNames d (List.mem_cons_of_mem _ hd)⟩

theorem IsNormal.append_names
    (hNormal : IsNormal cs)
    (hNames : AreNames ds) :
    IsNormal (cs ++ ds) := by
  constructor
  rw [List.reverse_append]
  exact
    hNormal.isStack.append_names fun c hMem =>
      hNames c (List.mem_reverse.mp hMem)

/- A stack of components is one of names but for what it starts with. -/
theorem IsStack.eq_append
    {stack : List Component}
    (hStack : IsStack stack) :
    ∃ names lead, stack = names ++ lead ∧ AreNames names ∧
      (lead = [] ∨ lead = [.root] ∨
        lead ≠ [] ∧ ∀ c ∈ lead, c = .up) := by
  induction stack with
  | nil => exact ⟨[], [], rfl, nofun, Or.inl rfl⟩
  | cons c rest ih =>
      cases c with
      | root =>
          have hNone : rest = [] := hStack
          rw [hNone]
          exact ⟨[], [.root], rfl, nofun, Or.inr (Or.inl rfl)⟩
      | here => exact hStack.elim
      | up =>
          refine
            ⟨[], .up :: rest, rfl, nofun,
              Or.inr (Or.inr ⟨List.cons_ne_nil _ _, ?_⟩)⟩
          intro c hMem
          rcases List.mem_cons.mp hMem with rfl | hMem
          · rfl
          · exact hStack c hMem
      | name text =>
          rcases ih hStack.2 with
            ⟨names, lead, rfl, hNames, hLead⟩
          refine ⟨.name text :: names, lead, rfl, ?_, hLead⟩
          intro c hMem
          rcases List.mem_cons.mp hMem with rfl | hMem
          · exact ⟨text, rfl, hStack.1⟩
          · exact hNames c hMem

/-
  The components of a normal path are names behind the root,
  behind nothing, or behind steps up.
-/
theorem IsNormal.cases
    (hNormal : IsNormal cs) :
    (∃ names, AreNames names ∧ cs = .root :: names) ∨
      AreNames cs ∨ cs.head? = some .up ∧ .root ∉ cs := by
  rcases hNormal.isStack.eq_append with
    ⟨names, lead, hEq, hNames, hLead⟩
  have hReversed : AreNames names.reverse := fun c hMem =>
    hNames c (List.mem_reverse.mp hMem)
  have hcs : cs = lead.reverse ++ names.reverse := by
    rw [← List.reverse_append, ← hEq, List.reverse_reverse]
  rcases hLead with rfl | rfl | ⟨hNonempty, hUp⟩
  · exact Or.inr (Or.inl (hcs ▸ hReversed))
  · exact Or.inl ⟨names.reverse, hReversed, hcs⟩
  · refine Or.inr (Or.inr ⟨?_, ?_⟩)
    · cases hLast : lead.reverse with
      | nil =>
          exact absurd (List.reverse_eq_nil_iff.mp hLast) hNonempty
      | cons c rest =>
          have hMem : c ∈ lead := by
            rw [← List.mem_reverse, hLast]
            exact List.mem_cons_self
          rw [hcs, hLast, hUp c hMem]
          rfl
    · intro hRoot
      rw [hcs] at hRoot
      rcases List.mem_append.mp hRoot with hMem | hMem
      · cases hUp _ (List.mem_reverse.mp hMem)
      · rcases hReversed _ hMem with ⟨text, hName, -⟩
        cases hName

theorem IsNormal.of_names
    (hNames : AreNames cs) :
    IsNormal cs := by
  have hEmpty : IsNormal [] := ⟨trivial⟩
  exact hEmpty.append_names hNames

------------------------------------------------------------
-- Joining Names
------------------------------------------------------------

/- A path of names is relative, and is written behind any path. -/
theorem components_join_names
    (p : Path)
    (hNames : AreNames q.components) :
    (p.join q).components = p.components ++ q.components := by
  apply components_join
  · rw [Bool.eq_false_iff, ne_eq, isAbsolute_iff]
    exact hNames.head?_ne nofun
  · exact hNames.head?_ne nofun

theorem isAbsolute_join
    (hAbsolute : p.isAbsolute = true) :
    (p.join q).isAbsolute = true := by
  unfold join
  split
  · assumption
  · cases hText : p.text.toList with
    | nil => simp [isAbsolute, hText] at hAbsolute
    | cons c rest =>
        have hRoot : c = '/' := by
          simpa [isAbsolute, hText] using hAbsolute
        split <;> simp [isAbsolute, hText, hRoot]

------------------------------------------------------------
-- Absolute Paths
------------------------------------------------------------

/- The root stands at the start of a path or nowhere. -/
theorem isAbsolute_iff_mem
    (p : Path) :
    p.isAbsolute = true ↔ .root ∈ p.components := by
  rw [isAbsolute_iff]
  refine ⟨List.mem_of_head?, fun hMem => ?_⟩
  rw [components, componentsOf_eq] at hMem ⊢
  rcases List.mem_append.mp hMem with hLead | hPart
  · unfold leadOf at hLead ⊢
    split
    · rfl
    · rename_i hRelative
      rw [if_neg hRelative] at hLead
      split at hLead
      · cases List.mem_singleton.mp hLead
      · cases hLead
  · exact (isPlain_of_mem_partsOf hPart).elim

theorem root_mem_pushComponent_iff
    (stack : List Component)
    (c : Component) :
    .root ∈ pushComponent stack c ↔
      .root ∈ stack ∨ c = .root := by
  unfold pushComponent
  split
  · simp
  · simp
  · simp
  · simp [eq_comm, or_comm]

theorem root_mem_foldl_iff
    (cs stack : List Component) :
    .root ∈ cs.foldl pushComponent stack ↔
      .root ∈ stack ∨ .root ∈ cs := by
  induction cs generalizing stack with
  | nil => simp
  | cons c cs ih =>
      rw [List.foldl_cons, ih, root_mem_pushComponent_iff,
        or_assoc, List.mem_cons, eq_comm]

/- A normal form starts where the path does. -/
theorem isAbsolute_normalize
    (p : Path) :
    p.normalize.isAbsolute = p.isAbsolute := by
  rw [Bool.eq_iff_iff, isAbsolute_iff_mem, isAbsolute_iff_mem,
    components_normalize, normalizeComponents, List.mem_reverse,
    root_mem_foldl_iff]
  simp

/- The components of an absolute normal path. -/
theorem IsNormal.eq_cons_of_isAbsolute
    (hNormal : IsNormal p.components)
    (hAbsolute : p.isAbsolute = true) :
    ∃ names, AreNames names ∧ p.components = .root :: names := by
  rw [isAbsolute_iff_mem] at hAbsolute
  rcases hNormal.cases with hRoot | hNames | ⟨-, hNone⟩
  · exact hRoot
  · rcases hNames _ hAbsolute with ⟨text, hName, -⟩
    cases hName
  · exact absurd hAbsolute hNone

/- The components of a relative normal path. -/
theorem IsNormal.cases_of_relative
    (hNormal : IsNormal p.components)
    (hRelative : p.isAbsolute = false) :
    AreNames p.components ∨ p.components.head? = some .up := by
  have hNone : .root ∉ p.components := by
    rw [← isAbsolute_iff_mem, hRelative]
    exact Bool.false_ne_true
  rcases hNormal.cases with ⟨names, -, hEq⟩ | hNames | ⟨hUp, -⟩
  · rw [hEq] at hNone
    exact absurd List.mem_cons_self hNone
  · exact Or.inl hNames
  · exact Or.inr hUp

------------------------------------------------------------
-- The Convention
------------------------------------------------------------

/- A path that is seen from a directory lies in it, links aside. -/
def LiesIn (root q : Path) : Prop :=
  root.components <+: (root.join q).normalize.components

/-
  How files are named: those in the source tree by a relative
  path that does not lead out of it, all others by an absolute
  one.
-/
structure FollowsConvention (root q : Path) : Prop where
  inside :
    root.LiesIn q →
      q.isAbsolute = false ∧ q.components.head? ≠ some .up
  outside : ¬ root.LiesIn q → q.isAbsolute = true

/-
  What the convention asks of a normal path: a relative one does
  not start with a step up, and an absolute one is not inside.
-/
def IsProper (root q : Path) : Prop :=
  if q.isAbsolute = true then
    ¬ root.components <+: q.components
  else
    q.components.head? ≠ some .up

instance
    (root q : Path) :
    Decidable (root.IsProper q) := by
  unfold IsProper
  infer_instance

theorem isProper_congr
    (hComponents : p.components = q.components) :
    root.IsProper p ↔ root.IsProper q := by
  have hAbsolute : p.isAbsolute = q.isAbsolute := by
    rw [Bool.eq_iff_iff, isAbsolute_iff, isAbsolute_iff,
      hComponents]
  rw [IsProper, IsProper, hAbsolute, hComponents]

/- A proper path does not start with a step up. -/
theorem IsProper.head?_ne
    (hProper : root.IsProper q) :
    q.components.head? ≠ some .up := by
  unfold IsProper at hProper
  split at hProper
  · rename_i hAbsolute
    rw [(isAbsolute_iff q).mp hAbsolute]
    simp
  · exact hProper

/- Names lead into every normal directory. -/
theorem liesIn_of_names
    (hRoot : IsNormal root.components)
    (hNames : AreNames q.components) :
    root.LiesIn q := by
  have hJoin := components_join_names root hNames
  have hNormal : IsNormal (root.join q).components := by
    rw [hJoin]
    exact hRoot.append_names hNames
  rw [LiesIn, components_normalize_eq hNormal, hJoin]
  exact List.prefix_append _ _

theorem liesIn_iff_of_isAbsolute
    (hNormal : IsNormal q.components)
    (hAbsolute : q.isAbsolute = true) :
    root.LiesIn q ↔ root.components <+: q.components := by
  rw [LiesIn, join, if_pos hAbsolute,
    components_normalize_eq hNormal]

theorem AreNames.isAbsolute_eq
    (hNames : AreNames q.components) :
    q.isAbsolute = false := by
  rw [Bool.eq_false_iff, ne_eq, isAbsolute_iff]
  exact hNames.head?_ne nofun

theorem followsConvention_iff
    (hRoot : IsNormal root.components)
    (hNormal : IsNormal q.components) :
    root.FollowsConvention q ↔ root.IsProper q := by
  unfold IsProper
  cases hAbsolute : q.isAbsolute with
  | true =>
      rw [if_pos rfl, ← liesIn_iff_of_isAbsolute hNormal hAbsolute]
      refine ⟨fun hFollows hInside => ?_, fun hOutside => ?_⟩
      · have hRelative := (hFollows.inside hInside).1
        rw [hAbsolute] at hRelative
        cases hRelative
      · exact ⟨fun hInside => absurd hInside hOutside,
          fun _ => hAbsolute⟩
  | false =>
      rw [if_neg Bool.false_ne_true]
      rcases hNormal.cases_of_relative hAbsolute with
        hNames | hUp
      · have hInside := liesIn_of_names hRoot hNames
        exact ⟨fun hFollows => (hFollows.inside hInside).2,
          fun hHead => ⟨fun _ => ⟨hAbsolute, hHead⟩,
            fun hOutside => absurd hInside hOutside⟩⟩
      · refine ⟨fun hFollows => ?_, fun hHead => absurd hUp hHead⟩
        intro hHead
        by_cases hInside : root.LiesIn q
        · exact (hFollows.inside hInside).2 hHead
        · have hOther := hFollows.outside hInside
          rw [hAbsolute] at hOther
          cases hOther

/- A relative path that is proper consists of names. -/
theorem IsProper.names
    (hProper : root.IsProper q)
    (hNormal : IsNormal q.components)
    (hRelative : q.isAbsolute = false) :
    AreNames q.components := by
  rcases hNormal.cases_of_relative hRelative with hNames | hUp
  · exact hNames
  · exact absurd hUp hProper.head?_ne

------------------------------------------------------------
-- Rebased Paths
------------------------------------------------------------

theorem stripComponents_eq_some_iff
    (ds cs rest : List Component) :
    stripComponents ds cs = some rest ↔ cs = ds ++ rest := by
  induction ds generalizing cs with
  | nil => simp [stripComponents]
  | cons d ds ih =>
      cases cs with
      | nil => simp [stripComponents]
      | cons c cs =>
          rw [stripComponents, List.cons_append, List.cons_eq_cons]
          split
          · rename_i hSame
            simp [ih, hSame]
          · rename_i hOther
            simp [Ne.symm hOther]

/-
  What is left behind an absolute normal directory in a normal
  path consists of names.
-/
theorem areNames_of_eq_append
    {cs rest : List Component}
    (hRoot : IsNormal root.components)
    (hAbsolute : root.isAbsolute = true)
    (hNormal : IsNormal cs)
    (hcs : cs = root.components ++ rest) :
    AreNames rest := by
  rcases hRoot.eq_cons_of_isAbsolute hAbsolute with
    ⟨names, -, hEq⟩
  rw [hEq, List.cons_append] at hcs
  rcases hNormal.cases with
    ⟨others, hOthers, hOther⟩ | hNames | ⟨hUp, -⟩
  · rw [hcs, List.cons.injEq] at hOther
    intro c hMem
    apply hOthers
    rw [← hOther.2]
    exact List.mem_append_right names hMem
  · rcases hNames .root (hcs ▸ List.mem_cons_self) with
      ⟨text, hName, -⟩
    cases hName
  · rw [hcs] at hUp
    cases hUp

/- Rebasing looks at the path as it is seen from the base. -/
theorem rebase_eq
    (p base root : Path) :
    rebase p base root =
      match (base.join p).normalize.strip? root.normalize with
      | none => (base.join p).normalize
      | some inside =>
          if inside.text = "" then ⟨"."⟩ else inside := by
  rw [rebase, join]
  cases p.isAbsolute <;> rfl

/- What rebasing leaves: names, or the whole path if it lies outside. -/
theorem components_rebase
    (hRoot : root.normalize = root)
    (hAbsolute : root.isAbsolute = true)
    (p base : Path) :
    (∃ names, AreNames names ∧
        (base.join p).normalize.components =
          root.components ++ names ∧
        (rebase p base root).normalize.components = names) ∨
      ¬ root.components <+: (base.join p).normalize.components ∧
        (rebase p base root).normalize.components =
          (base.join p).normalize.components := by
  rw [rebase_eq, hRoot]
  have hNormal := isNormal_components_normalize (base.join p)
  have hRootNormal := isNormal_of_normalize_eq hRoot
  generalize (base.join p).normalize = whole at hNormal ⊢
  rw [strip?]
  cases hStrip :
      stripComponents root.components whole.components with
  | none =>
      right
      refine ⟨?_, components_normalize_eq hNormal⟩
      rintro ⟨rest, hRest⟩
      have hSome :=
        (stripComponents_eq_some_iff root.components
          whole.components rest).mpr hRest.symm
      rw [hStrip] at hSome
      cases hSome
  | some rest =>
      left
      have hWhole := (stripComponents_eq_some_iff _ _ _).mp hStrip
      have hNames :=
        areNames_of_eq_append hRootNormal hAbsolute hNormal
          hWhole
      have hInside := components_ofComponents (.of_names hNames)
      refine ⟨rest, hNames, hWhole, ?_⟩
      rw [Option.map_some]
      dsimp only
      split
      · rename_i hNone
        have hRest : rest = [] := by
          rw [← hInside, components, hNone]
          rfl
        rw [hRest]
        decide
      · have hNormalInside :
            IsNormal (ofComponents rest).components :=
          hInside.symm ▸ .of_names hNames
        rw [components_normalize_eq hNormalInside, hInside]

/-
  A rebased path follows the convention unless it starts with a
  step up, which only a relative base can make it do.
-/
theorem followsConvention_rebase_iff
    (hRoot : root.normalize = root)
    (hAbsolute : root.isAbsolute = true)
    (p base : Path) :
    root.FollowsConvention (rebase p base root).normalize ↔
      (rebase p base root).normalize.components.head? ≠
        some .up := by
  have hRootNormal := isNormal_of_normalize_eq hRoot
  rw [followsConvention_iff hRootNormal
    (isNormal_components_normalize _), IsProper]
  split
  · rename_i hOther
    have hHead := (isAbsolute_iff _).mp hOther
    rw [hHead]
    rcases components_rebase hRoot hAbsolute p base with
      ⟨names, hNames, -, hEq⟩ | ⟨hOutside, hEq⟩
    · rw [← hEq] at hNames
      rw [hNames.isAbsolute_eq] at hOther
      cases hOther
    · simpa [hEq] using hOutside
  · rfl

/- Seen from an absolute base no path starts with a step up. -/
theorem followsConvention_rebase
    (hRoot : root.normalize = root)
    (hAbsolute : root.isAbsolute = true)
    (hBase : base.isAbsolute = true)
    (p : Path) :
    root.FollowsConvention (rebase p base root).normalize := by
  rw [followsConvention_rebase_iff hRoot hAbsolute]
  rcases components_rebase hRoot hAbsolute p base with
    ⟨names, hNames, -, hEq⟩ | ⟨-, hEq⟩
  · rw [hEq]
    exact hNames.head?_ne nofun
  · have hWhole : (base.join p).normalize.isAbsolute = true := by
      rw [isAbsolute_normalize]
      exact isAbsolute_join hBase
    rw [hEq, (isAbsolute_iff _).mp hWhole]
    simp

end Path

end Variability
