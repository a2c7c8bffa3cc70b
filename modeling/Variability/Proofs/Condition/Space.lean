import Variability.Condition
import Variability.Proofs.Diagram.Runs

/-
  Spaces of conditions only grow while conditions are built.

  A sound space numbers its atoms and shares their diagrams. It
  may get more of both, and what it has keeps its meaning. A
  computation is described by what it ensures in every space
  that has grown from the one where its arguments are known.

  Main declarations:
    * `Space.Sound`, `Space.Grows`
    * `Space.Reached`
    * `Space.Means`
    * `InSpace.Ensures`
    * `InSpace.Ensures.bind`
-/

namespace Variability

/- Tests that agree on the members of a list hold of some alike. -/
theorem any_congr
    {α : Type}
    {xs : List α}
    {p q : α → Bool}
    (hSame : ∀ x ∈ xs, p x = q x) :
    xs.any p = xs.any q := by
  rw [Bool.eq_iff_iff, List.any_eq_true, List.any_eq_true]
  apply exists_congr
  intro x
  apply and_congr_right
  intro hx
  rw [hSame x hx]

------------------------------------------------------------
-- Sound Spaces
------------------------------------------------------------

namespace Space

variable {s s' s'' : Space}
variable {a : Nat → Bool}
variable {atom : Atom}
variable {c d e : Condition}

/- A sound manager and atoms that are numbered once. -/
structure Sound (s : Space) : Prop where
  manager : s.manager.Sound
  nodup : s.atoms.Nodup

/- A space keeps the diagrams and the numbers of another one. -/
structure Grows (s s' : Space) : Prop where
  manager : s.manager.Extends s'.manager
  atoms : s.atoms <+: s'.atoms

namespace Grows

theorem refl (s : Space) : s.Grows s :=
  ⟨Diagram.Manager.Extends.refl _, List.prefix_refl _⟩

theorem trans
    (hFirst : s.Grows s')
    (hSecond : s'.Grows s'') :
    s.Grows s'' :=
  ⟨hFirst.manager.trans hSecond.manager,
    hFirst.atoms.trans hSecond.atoms⟩

theorem isLive
    (hGrows : s.Grows s')
    (hLive : s.manager.IsLive c) :
    s'.manager.IsLive c :=
  hGrows.manager.isLive hLive

/- A condition keeps its values. -/
theorem eval_eq
    (hGrows : s.Grows s')
    (hSound : s.Sound)
    (hSound' : s'.Sound)
    (hLive : s.manager.IsLive c) :
    s'.manager.eval c a = s.manager.eval c a :=
  hGrows.manager.eval_eq hSound.manager.reduced
    hSound'.manager.reduced hLive

end Grows

/- The spaces that atoms, constructions and collections lead to. -/
inductive Reached : Space → Prop where
  | empty : Reached .empty
  | ask {s : Space}
      (hReached : Reached s)
      (atom : Atom) :
      Reached (Condition.variableOf atom s).2
  | construct {s : Space}
      (hReached : Reached s)
      (construction : Diagram.Construction)
      (hAllowed : construction.Allowed s.manager) :
      Reached
        { s with manager := (construction.run s.manager).2 }
  | collect {s : Space}
      (hReached : Reached s)
      (roots : List Condition)
      (hRoots : ∀ c ∈ roots, s.manager.IsLive c) :
      Reached (s.collectGarbage roots)

/- A space in which an atom has a variable. -/
def withAtom (s : Space) (atom : Atom) : Space :=
  { s with
    atoms :=
      if atom ∈ s.atoms then s.atoms
      else s.atoms ++ [atom] }

theorem mem_withAtom
    (s : Space)
    (atom : Atom) :
    atom ∈ (s.withAtom atom).atoms := by
  unfold withAtom
  by_cases hOld : atom ∈ s.atoms
  · simp [hOld]
  · simp [hOld]

theorem idxOf_of_idxOf?_eq_some
    {atoms : List Atom}
    {i : Nat}
    (hIndex : atoms.idxOf? atom = some i) :
    atoms.idxOf atom = i := by
  induction atoms generalizing i with
  | nil => simp at hIndex
  | cons other atoms ih =>
      rw [List.idxOf?_cons] at hIndex
      rw [List.idxOf_cons]
      by_cases hEq : (other == atom) = true
      · simpa [hEq] using hIndex
      · simp only [hEq, Bool.false_eq_true, if_false,
          Option.map_eq_some_iff] at hIndex
        rcases hIndex with ⟨j, hj, rfl⟩
        simp [hEq, ih hj]

/- The variable of an atom is its place among the atoms. -/
theorem variableOf_eq
    (s : Space)
    (atom : Atom) :
    Condition.variableOf atom s =
      ((s.withAtom atom).atoms.idxOf atom + 1,
        s.withAtom atom) := by
  rcases s with ⟨manager, atoms⟩
  unfold Condition.variableOf withAtom
  cases hIndex : atoms.idxOf? atom with
  | none =>
      have hNew : atom ∉ atoms :=
        List.idxOf?_eq_none_iff.mp hIndex
      simp [hIndex, hNew, List.idxOf_append_of_notMem hNew]
  | some i =>
      have hOld : atom ∈ atoms := by
        rw [← List.isSome_idxOf?, hIndex]
        rfl
      have hPlace := idxOf_of_idxOf?_eq_some hIndex
      simp [hIndex, hOld, hPlace]

theorem grows_withAtom
    (s : Space)
    (atom : Atom) :
    s.Grows (s.withAtom atom) := by
  refine ⟨Diagram.Manager.Extends.refl _, ?_⟩
  unfold withAtom
  by_cases hOld : atom ∈ s.atoms
  · simp [hOld]
  · simp [hOld]

theorem Sound.withAtom
    (hSound : s.Sound)
    (atom : Atom) :
    (s.withAtom atom).Sound := by
  refine ⟨hSound.manager, ?_⟩
  unfold Space.withAtom
  by_cases hOld : atom ∈ s.atoms
  · simpa [hOld] using hSound.nodup
  · have hNodup := hSound.nodup.concat hOld
    simpa [hOld] using hNodup

/- Every space that can be reached is sound. -/
theorem Reached.sound
    (hReached : s.Reached) :
    s.Sound := by
  induction hReached with
  | empty =>
      exact ⟨Diagram.Manager.Sound.empty _, List.nodup_nil⟩
  | ask _ atom ih =>
      rw [variableOf_eq]
      exact ih.withAtom atom
  | construct _ construction hAllowed ih =>
      exact
        ⟨(ih.manager.makes_construction construction
            hAllowed).sound,
          ih.nodup⟩
  | collect _ roots hRoots ih =>
      exact
        ⟨(ih.manager.collectGarbage hRoots).sound, ih.nodup⟩

------------------------------------------------------------
-- Meanings
------------------------------------------------------------

/- The value of an atom is that of its variable. -/
def atomValue
    (s : Space)
    (a : Nat → Bool)
    (atom : Atom) :
    Bool :=
  a (s.atoms.idxOf atom + 1)

theorem Grows.atomValue_eq
    (hGrows : s.Grows s')
    (hAtom : atom ∈ s.atoms) :
    s'.atomValue a atom = s.atomValue a atom := by
  rcases hGrows.atoms with ⟨more, hMore⟩
  unfold atomValue
  rw [← hMore, List.idxOf_append_of_mem hAtom]

/-
  A condition with a value that is told by a space and an
  assignment, now and in every space that this one grows to.
-/
structure Means
    (s : Space)
    (value : Space → (Nat → Bool) → Bool)
    (c : Condition) : Prop where
  isLive : s.manager.IsLive c
  eval_eq :
    ∀ s', s'.Sound → s.Grows s' →
      ∀ a, s'.manager.eval c a = value s' a

/- A meaning lasts. -/
theorem Means.grows
    {value : Space → (Nat → Bool) → Bool}
    (hMeans : s.Means value c)
    (hGrows : s.Grows s') :
    s'.Means value c where
  isLive := hGrows.isLive hMeans.isLive
  eval_eq := fun s'' hSound hGrows' =>
    hMeans.eval_eq s'' hSound (hGrows.trans hGrows')

theorem Means.congr
    {value value' : Space → (Nat → Bool) → Bool}
    (hMeans : s.Means value c)
    (hValue :
      ∀ s', s'.Sound → s.Grows s' →
        ∀ a, value s' a = value' s' a) :
    s.Means value' c where
  isLive := hMeans.isLive
  eval_eq := fun s' hSound hGrows a => by
    rw [hMeans.eval_eq s' hSound hGrows,
      hValue s' hSound hGrows]

/- What a condition means does not change while a space grows. -/
theorem Means.value_eq
    {value : Space → (Nat → Bool) → Bool}
    (hMeans : s.Means value c)
    (hSound : s.Sound)
    (hSound' : s'.Sound)
    (hGrows : s.Grows s') :
    value s' a = value s a := by
  rw [← hMeans.eval_eq s' hSound' hGrows,
    ← hMeans.eval_eq s hSound (.refl s),
    hGrows.eval_eq hSound hSound' hMeans.isLive]

theorem Means.eval_self
    {value : Space → (Nat → Bool) → Bool}
    (hMeans : s.Means value c)
    (hSound : s.Sound) :
    s.manager.eval c a = value s a :=
  hMeans.eval_eq s hSound (.refl s) a

/- A complement means the opposite. -/
theorem Means.neg
    {value : Space → (Nat → Bool) → Bool}
    (hMeans : s.Means value c) :
    s.Means (fun s' a => !value s' a) (-c) where
  isLive := (s.manager.isLive_neg c).mpr hMeans.isLive
  eval_eq := fun s' hSound hGrows a => by
    rw [hSound.manager.reduced.eval_neg
        (hGrows.isLive hMeans.isLive),
      hMeans.eval_eq s' hSound hGrows]

/- What is live means itself. -/
theorem means_self
    (hLive : s.manager.IsLive c) :
    s.Means (fun s' => s'.manager.eval c) c :=
  ⟨hLive, fun _ _ _ _ => rfl⟩

end Space

------------------------------------------------------------
-- Computations
------------------------------------------------------------

namespace InSpace

variable {α β : Type}
variable {s s' s₀ : Space}

/-
  What a computation ensures from a space on: it leaves a sound
  space that has grown, and its result is as described.
-/
def Ensures
    (s₀ : Space)
    (f : InSpace α)
    (post : Space → α → Prop) : Prop :=
  ∀ s, s.Sound → s₀.Grows s →
    (f s).2.Sound ∧ s.Grows (f s).2 ∧ post (f s).2 (f s).1

namespace Ensures

variable {f : InSpace α}
variable {g : α → InSpace β}
variable {post post' : Space → α → Prop}
variable {post'' : Space → β → Prop}

theorem pure
    {x : α}
    (hPost : ∀ s, s.Sound → s₀.Grows s → post s x) :
    Ensures s₀ (Pure.pure x) post :=
  fun s hSound hGrows =>
    ⟨hSound, .refl s, hPost s hSound hGrows⟩

/- The rest of a computation begins where its first part ends. -/
theorem bind
    (hFirst : Ensures s₀ f post)
    (hRest :
      ∀ s x, s.Sound → s₀.Grows s → post s x →
        Ensures s (g x) post'') :
    Ensures s₀ (f >>= g) post'' := by
  intro s hSound hGrows
  rcases hFirst s hSound hGrows with
    ⟨hSound', hGrows', hPost⟩
  rcases hRest (f s).2 (f s).1 hSound'
      (hGrows.trans hGrows') hPost (f s).2 hSound'
      (.refl _) with
    ⟨hSound'', hGrows'', hPost''⟩
  exact ⟨hSound'', hGrows'.trans hGrows'', hPost''⟩

theorem imp
    (hEnsures : Ensures s₀ f post)
    (hPost :
      ∀ s x, s.Sound → s₀.Grows s → post s x →
        post' s x) :
    Ensures s₀ f post' := by
  intro s hSound hGrows
  rcases hEnsures s hSound hGrows with
    ⟨hSound', hGrows', hPost'⟩
  exact
    ⟨hSound', hGrows',
      hPost _ _ hSound' (hGrows.trans hGrows') hPost'⟩

theorem map
    {h : α → β}
    (hEnsures : Ensures s₀ f post)
    (hPost :
      ∀ s x, s.Sound → s₀.Grows s → post s x →
        post'' s (h x)) :
    Ensures s₀ (h <$> f) post'' :=
  hEnsures.imp hPost

/- One computation for each of a list, whose results last. -/
theorem mapM
    {xs : List α}
    {g : α → InSpace β}
    {each : Space → α → β → Prop}
    (hEach :
      ∀ x ∈ xs, Ensures s₀ (g x) fun s y => each s x y)
    (hLasts :
      ∀ s s' x y, s.Grows s' → each s x y →
        each s' x y) :
    Ensures s₀ (xs.mapM g) fun s ys =>
      List.Forall₂ (each s) xs ys := by
  induction xs generalizing s₀ with
  | nil => exact .pure fun _ _ _ => .nil
  | cons x xs ih =>
      rw [List.mapM_cons]
      apply (hEach x List.mem_cons_self).bind
      intro s y _ hGrows hy
      have hRest :
          Ensures s (xs.mapM g) fun s ys =>
            List.Forall₂ (each s) xs ys :=
        ih fun x' hx' =>
          fun s' hSound hGrows' =>
            hEach x' (List.mem_cons_of_mem x hx') s' hSound
              (hGrows.trans hGrows')
      apply hRest.bind
      intro s' ys _ hGrows' hys
      apply Ensures.pure
      intro s'' _ hGrows''
      refine .cons ?_ ?_
      · exact hLasts _ _ _ _ (hGrows'.trans hGrows'') hy
      · exact hys.imp fun x y => hLasts _ _ x y hGrows''

/- What is ensured from a space on is ensured later. -/
theorem grows
    (hEnsures : Ensures s₀ f post)
    (hGrows : s₀.Grows s) :
    Ensures s f post :=
  fun s' hSound hGrows' =>
    hEnsures s' hSound (hGrows.trans hGrows')

end Ensures

end InSpace

------------------------------------------------------------
-- Building Conditions
------------------------------------------------------------

namespace Condition

open InSpace

variable {s₀ : Space}
variable {c d e : Condition}

/-
  A diagram that is made from the diagrams of a space means what
  it is made of, because they keep their values.
-/
theorem ensures_build
    {f : Diagram.Manager → Condition × Diagram.Manager}
    {value : Space → (Nat → Bool) → Bool}
    (hMakes :
      ∀ s : Space, s.Sound → s₀.Grows s →
        s.manager.Makes (value s) (f s.manager))
    (hValue :
      ∀ s s' : Space, s.Sound → s'.Sound →
        s₀.Grows s → s.Grows s' →
          ∀ a, value s' a = value s a) :
    Ensures s₀ (build f) fun s c => s.Means value c := by
  intro s hSound hGrows
  have hMade := hMakes s hSound hGrows
  have hGrows' : s.Grows (build f s).2 :=
    ⟨hMade.keeps, List.prefix_refl _⟩
  have hSound' : (build f s).2.Sound :=
    ⟨hMade.sound, hSound.nodup⟩
  have hLive :
      (build f s).2.manager.IsLive (build f s).1 :=
    hMade.isLive
  refine ⟨hSound', hGrows', hLive, ?_⟩
  intro s' hLater hGrows'' a
  rw [hGrows''.eval_eq hSound' hLater hLive,
    hValue s s' hSound hLater hGrows
      (hGrows'.trans hGrows'') a]
  exact hMade.eval_eq a

/- The condition of an atom has the value of the atom. -/
theorem ensures_atom (atom : Atom) :
    Ensures s₀ (Condition.atom atom) fun s c =>
      s.Means (fun s' a => s'.atomValue a atom) c := by
  intro s hSound hGrows
  have hSoundAtom := hSound.withAtom atom
  have hGrowsAtom := s.grows_withAtom atom
  have hAtom := s.mem_withAtom atom
  have hMade :=
    hSoundAtom.manager.makes_mkVar
      (Nat.succ_pos ((s.withAtom atom).atoms.idxOf atom))
  have hEq :
      Condition.atom atom s =
        (((s.withAtom atom).manager.mkVar
            ((s.withAtom atom).atoms.idxOf atom + 1)).1,
          ⟨((s.withAtom atom).manager.mkVar
              ((s.withAtom atom).atoms.idxOf atom + 1)).2,
            (s.withAtom atom).atoms⟩) := by
    change
      build (·.mkVar (variableOf atom s).1)
        (variableOf atom s).2 = _
    rw [s.variableOf_eq atom]
    rfl
  have hGrowsMade :
      (s.withAtom atom).Grows (Condition.atom atom s).2 := by
    rw [hEq]
    exact ⟨hMade.keeps, List.prefix_refl _⟩
  have hSoundMade : (Condition.atom atom s).2.Sound := by
    rw [hEq]
    exact ⟨hMade.sound, hSoundAtom.nodup⟩
  have hLive :
      (Condition.atom atom s).2.manager.IsLive
        (Condition.atom atom s).1 := by
    rw [hEq]
    exact hMade.isLive
  refine
    ⟨hSoundMade, hGrowsAtom.trans hGrowsMade, hLive, ?_⟩
  intro s' hLater hGrows' a
  rw [hGrows'.eval_eq hSoundMade hLater hLive,
    (hGrowsMade.trans hGrows').atomValue_eq hAtom, hEq]
  exact hMade.eval_eq a

variable {p q w : Space → (Nat → Bool) → Bool}

theorem ensures_and
    (hc : s₀.Means p c)
    (hd : s₀.Means q d) :
    Ensures s₀ (Condition.and c d) fun s out =>
      s.Means (fun s' a => p s' a && q s' a) out := by
  apply ensures_build
  · intro s hSound hGrows
    have hc' := hc.grows hGrows
    have hd' := hd.grows hGrows
    have hMade :=
      hSound.manager.makes_and hc'.isLive hd'.isLive
    apply hMade.congr
    intro a
    rw [hc'.eval_self hSound, hd'.eval_self hSound]
  · intro s s' hSound hSound' hGrows hGrows' a
    rw [(hc.grows hGrows).value_eq hSound hSound' hGrows',
      (hd.grows hGrows).value_eq hSound hSound' hGrows']

theorem ensures_or
    (hc : s₀.Means p c)
    (hd : s₀.Means q d) :
    Ensures s₀ (Condition.or c d) fun s out =>
      s.Means (fun s' a => p s' a || q s' a) out := by
  apply ensures_build
  · intro s hSound hGrows
    have hc' := hc.grows hGrows
    have hd' := hd.grows hGrows
    have hMade :=
      hSound.manager.makes_or hc'.isLive hd'.isLive
    apply hMade.congr
    intro a
    rw [hc'.eval_self hSound, hd'.eval_self hSound]
  · intro s s' hSound hSound' hGrows hGrows' a
    rw [(hc.grows hGrows).value_eq hSound hSound' hGrows',
      (hd.grows hGrows).value_eq hSound hSound' hGrows']

theorem ensures_ite
    (hc : s₀.Means p c)
    (hd : s₀.Means q d)
    (he : s₀.Means w e) :
    Ensures s₀ (Condition.ite c d e) fun s out =>
      s.Means
        (fun s' a => if p s' a then q s' a else w s' a)
        out := by
  apply ensures_build
  · intro s hSound hGrows
    have hc' := hc.grows hGrows
    have hd' := hd.grows hGrows
    have he' := he.grows hGrows
    have hMade :=
      hSound.manager.makes_ite hc'.isLive hd'.isLive
        he'.isLive
    apply hMade.congr
    intro a
    rw [hc'.eval_self hSound, hd'.eval_self hSound,
      he'.eval_self hSound]
  · intro s s' hSound hSound' hGrows hGrows' a
    rw [(hc.grows hGrows).value_eq hSound hSound' hGrows',
      (hd.grows hGrows).value_eq hSound hSound' hGrows',
      (he.grows hGrows).value_eq hSound hSound' hGrows']

theorem ensures_anyOf
    {cs : List Condition}
    (hLive : ∀ c ∈ cs, s₀.manager.IsLive c) :
    Ensures s₀ (Condition.anyOf cs) fun s out =>
      s.Means
        (fun s' a => cs.any (s'.manager.eval · a)) out := by
  apply ensures_build
  · intro s hSound hGrows
    exact
      hSound.manager.makes_orMany fun c hc =>
        hGrows.isLive (hLive c hc)
  · intro s s' hSound hSound' hGrows hGrows' a
    apply any_congr
    intro c hc
    rw [hGrows'.eval_eq hSound hSound'
      (hGrows.isLive (hLive c hc))]

end Condition

end Variability
