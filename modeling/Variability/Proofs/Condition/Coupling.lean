import Variability.Proofs.Condition.Space

/-
  One computation in two spaces.

  A coupling says which spaces and which of their conditions
  belong together. It is lawful if all ways to build conditions
  keep what belongs together, and if it tells equal conditions
  from different ones in both spaces alike; a computation that
  only builds and compares conditions then runs alike in both.

  Three couplings are of use here. A space belongs to itself, and
  so does a reached space, which leads to reached spaces. Any two
  sound spaces belong together if conditions are compared by
  their values for equal values of the atoms.

  Main declarations:
    * `Coupling`, `Coupling.Lawful`
    * `Coupling.Couples`
    * `Coupling.lawful_same`
    * `Coupling.lawful_reached`
    * `Coupling.lawful_byAtoms`
-/

namespace Variability

open InSpace

variable {α β α' β' : Type}
variable {s t s' t' s'' t'' s₀ t₀ : Space}
variable {c d e c' d' e' : Condition}

/- The spaces of two runs and the conditions that belong together. -/
structure Coupling where
  spaces : Space → Space → Prop
  conditions : Space → Space → Condition → Condition → Prop

namespace Coupling

variable {R : Coupling}

------------------------------------------------------------
-- Two Runs
------------------------------------------------------------

/- Two spaces in which what belonged together still does. -/
structure Later (R : Coupling) (s t s' t' : Space) : Prop where
  spaces : R.spaces s' t'
  keeps :
    ∀ {c d}, R.conditions s t c d → R.conditions s' t' c d

theorem Later.refl
    (hSpaces : R.spaces s t) :
    R.Later s t s t :=
  ⟨hSpaces, id⟩

theorem Later.trans
    (hFirst : R.Later s t s' t')
    (hSecond : R.Later s' t' s'' t'') :
    R.Later s t s'' t'' :=
  ⟨hSecond.spaces, fun h => hSecond.keeps (hFirst.keeps h)⟩

/-
  Two computations run alike from two spaces on: they leave two
  spaces that belong together, and their results are related.
-/
def Couples
    (R : Coupling)
    (s₀ t₀ : Space)
    (f : InSpace α)
    (g : InSpace β)
    (post : Space → Space → α → β → Prop) : Prop :=
  ∀ s t, R.Later s₀ t₀ s t →
    R.Later s t (f s).2 (g t).2 ∧
      post (f s).2 (g t).2 (f s).1 (g t).1

namespace Couples

variable {f : InSpace α}
variable {g : InSpace β}
variable {post : Space → Space → α → β → Prop}
variable {post' : Space → Space → α' → β' → Prop}

theorem pure
    {x : α}
    {y : β}
    (hPost : ∀ s t, R.Later s₀ t₀ s t → post s t x y) :
    R.Couples s₀ t₀ (Pure.pure x) (Pure.pure y) post :=
  fun s t hLater =>
    ⟨.refl hLater.spaces, hPost s t hLater⟩

/- The rests of two computations begin where their first parts end. -/
theorem bind
    {f' : α → InSpace α'}
    {g' : β → InSpace β'}
    (hFirst : R.Couples s₀ t₀ f g post)
    (hRest :
      ∀ s t x y, R.Later s₀ t₀ s t → post s t x y →
        R.Couples s t (f' x) (g' y) post') :
    R.Couples s₀ t₀ (f >>= f') (g >>= g') post' := by
  intro s t hLater
  rcases hFirst s t hLater with ⟨hLater', hPost⟩
  rcases hRest _ _ _ _ (hLater.trans hLater') hPost
      (f s).2 (g t).2 (.refl hLater'.spaces) with
    ⟨hLater'', hPost'⟩
  exact ⟨hLater'.trans hLater'', hPost'⟩

theorem map
    {h : α → α'}
    {k : β → β'}
    (hCouples : R.Couples s₀ t₀ f g post)
    (hPost :
      ∀ s t x y, R.Later s₀ t₀ s t → post s t x y →
        post' s t (h x) (k y)) :
    R.Couples s₀ t₀ (h <$> f) (k <$> g) post' := by
  intro s t hLater
  rcases hCouples s t hLater with ⟨hLater', hRelated⟩
  exact
    ⟨hLater', hPost _ _ _ _ (hLater.trans hLater') hRelated⟩

theorem later
    (hCouples : R.Couples s₀ t₀ f g post)
    (hLater : R.Later s₀ t₀ s t) :
    R.Couples s t f g post :=
  fun s' t' hLater' => hCouples s' t' (hLater.trans hLater')

/- One computation for each member of two related lists. -/
theorem mapM
    {xs : List α}
    {ys : List β}
    {f : α → InSpace α'}
    {g : β → InSpace β'}
    {rel : α → β → Prop}
    (hRelated : List.Forall₂ rel xs ys)
    (hEach :
      ∀ x y, rel x y → R.Couples s₀ t₀ (f x) (g y) post')
    (hLasts :
      ∀ {s t s' t' x y}, R.Later s t s' t' →
        post' s t x y → post' s' t' x y) :
    R.Couples s₀ t₀ (xs.mapM f) (ys.mapM g) fun s t =>
      List.Forall₂ (post' s t) := by
  induction hRelated generalizing s₀ t₀ with
  | nil => exact .pure fun _ _ _ => .nil
  | cons hFirst _ ih =>
      rw [List.mapM_cons, List.mapM_cons]
      apply (hEach _ _ hFirst).bind
      intro s t x y hLater hxy
      have hRest :=
        ih fun x y hRel => (hEach x y hRel).later hLater
      apply hRest.bind
      intro s' t' xs' ys' hLater' hList
      apply Couples.pure
      intro s'' t'' hLater''
      refine .cons ?_ (hList.imp fun _ _ => hLasts hLater'')
      exact hLasts (hLater'.trans hLater'') hxy

end Couples

/- Building conditions and comparing them keeps a coupling. -/
structure Lawful (R : Coupling) : Prop where
  one :
    ∀ {s t}, R.spaces s t → R.conditions s t .one .one
  neg :
    ∀ {s t c d}, R.spaces s t → R.conditions s t c d →
      R.conditions s t (-c) (-d)
  eq_iff :
    ∀ {s t c d c' d'}, R.spaces s t →
      R.conditions s t c d → R.conditions s t c' d' →
        (c = c' ↔ d = d')
  atom :
    ∀ s t (a : Atom),
      R.Couples s t (Condition.atom a) (Condition.atom a) R.conditions
  and :
    ∀ {s t c d c' d'},
      R.conditions s t c d → R.conditions s t c' d' →
        R.Couples s t (Condition.and c c') (Condition.and d d') R.conditions
  or :
    ∀ {s t c d c' d'},
      R.conditions s t c d → R.conditions s t c' d' →
        R.Couples s t (Condition.or c c') (Condition.or d d') R.conditions
  ite :
    ∀ {s t c d c' d' e e'},
      R.conditions s t c d → R.conditions s t c' d' →
        R.conditions s t e e' →
          R.Couples s t (Condition.ite c c' e) (Condition.ite d d' e')
            R.conditions
  anyOf :
    ∀ {s t cs ds},
      List.Forall₂ (R.conditions s t) cs ds →
        R.Couples s t (Condition.anyOf cs) (Condition.anyOf ds) R.conditions

namespace Lawful

theorem zero
    (hLawful : R.Lawful)
    (hSpaces : R.spaces s t) :
    R.conditions s t .zero .zero :=
  hLawful.neg hSpaces (hLawful.one hSpaces)

theorem eq_one_iff
    (hLawful : R.Lawful)
    (hSpaces : R.spaces s t)
    (hAlike : R.conditions s t c d) :
    c = .one ↔ d = .one :=
  hLawful.eq_iff hSpaces hAlike (hLawful.one hSpaces)

theorem eq_zero_iff
    (hLawful : R.Lawful)
    (hSpaces : R.spaces s t)
    (hAlike : R.conditions s t c d) :
    c = .zero ↔ d = .zero :=
  hLawful.eq_iff hSpaces hAlike (hLawful.zero hSpaces)

end Lawful

------------------------------------------------------------
-- A Space and Itself
------------------------------------------------------------

/- A space with its conditions. -/
def same : Coupling where
  spaces := Eq
  conditions := fun _ _ => Eq

theorem couples_same
    {f g : InSpace Condition}
    (hEq : f = g) :
    same.Couples s t f g same.conditions := by
  intro s' t' hLater
  have hSpaces : s' = t' := hLater.spaces
  subst hEq
  subst hSpaces
  exact ⟨⟨rfl, id⟩, rfl⟩

/- Equal computations in one space run alike. -/
theorem lawful_same : same.Lawful where
  one _ := rfl
  neg _ := congrArg _
  eq_iff := by
    rintro s t c d c' d' _ rfl rfl
    rfl
  atom _ _ _ := couples_same rfl
  and := by
    rintro s t c d c' d' rfl rfl
    exact couples_same rfl
  or := by
    rintro s t c d c' d' rfl rfl
    exact couples_same rfl
  ite := by
    rintro s t c d c' d' e e' rfl rfl rfl
    exact couples_same rfl
  anyOf := by
    intro s t cs ds hEach
    have hEq : cs = ds := List.forall₂_eq_eq_eq ▸ hEach
    exact couples_same (congrArg _ hEq)

------------------------------------------------------------
-- A Reached Space and Itself
------------------------------------------------------------

/- A reached space with its live conditions. -/
def reached : Coupling where
  spaces s t := s = t ∧ s.Reached
  conditions s _ c d := c = d ∧ s.manager.IsLive c

/- A construction leads from a reached space to another one. -/
theorem couples_construct
    (construction : Diagram.Construction)
    {f : InSpace Condition}
    (hRun :
      ∀ s, f s =
        ((construction.run s.manager).1,
          ⟨(construction.run s.manager).2, s.atoms⟩))
    (hAllowed :
      ∀ s t, reached.Later s₀ t₀ s t →
        construction.Allowed s.manager) :
    reached.Couples s₀ t₀ f f reached.conditions := by
  intro s t hLater
  rcases hLater.spaces with ⟨rfl, hReached⟩
  have hMade :=
    hReached.sound.manager.makes_construction construction
      (hAllowed s s hLater)
  rw [hRun]
  refine ⟨⟨⟨rfl, ?_⟩, ?_⟩, rfl, hMade.isLive⟩
  · exact hReached.construct _ (hAllowed s s hLater)
  · rintro c d ⟨rfl, hLive⟩
    exact ⟨rfl, hMade.keeps.isLive hLive⟩

theorem couples_reached_atom
    (s₀ t₀ : Space)
    (a : Atom) :
    reached.Couples s₀ t₀ (Condition.atom a)
      (Condition.atom a) reached.conditions := by
  have hAsk :
      reached.Couples s₀ t₀ (Condition.variableOf a)
        (Condition.variableOf a)
        fun _ _ v w => v = w ∧ 0 < v := by
    intro s t hLater
    rcases hLater.spaces with ⟨rfl, hReached⟩
    refine ⟨⟨⟨rfl, hReached.ask a⟩, ?_⟩, rfl, ?_⟩
    · rintro c d ⟨rfl, hLive⟩
      rw [s.variableOf_eq]
      exact ⟨rfl, hLive⟩
    · rw [s.variableOf_eq]
      exact Nat.succ_pos _
  apply hAsk.bind
  rintro s t v _ _ ⟨rfl, hPos⟩
  exact
    couples_construct (.var v) (fun _ => rfl)
      fun _ _ _ => hPos

/- What is built in a reached space leads to a reached space. -/
theorem lawful_reached : reached.Lawful where
  one := fun hSpaces =>
    ⟨rfl, hSpaces.2.sound.manager.reduced.isLive_one⟩
  neg := fun {s _ c _} _ hAlike =>
    ⟨congrArg _ hAlike.1,
      (s.manager.isLive_neg c).mpr hAlike.2⟩
  eq_iff := fun _ hFirst hSecond => by
    rw [hFirst.1, hSecond.1]
  atom := couples_reached_atom
  and := fun {s t c d c' d'} hFirst hSecond => by
    rcases hFirst with ⟨rfl, hc⟩
    rcases hSecond with ⟨rfl, hc'⟩
    exact
      couples_construct (.and c c') (fun _ => rfl)
        fun _ _ hLater =>
          ⟨(hLater.keeps ⟨rfl, hc⟩).2,
            (hLater.keeps ⟨rfl, hc'⟩).2⟩
  or := fun {s t c d c' d'} hFirst hSecond => by
    rcases hFirst with ⟨rfl, hc⟩
    rcases hSecond with ⟨rfl, hc'⟩
    exact
      couples_construct (.or c c') (fun _ => rfl)
        fun _ _ hLater =>
          ⟨(hLater.keeps ⟨rfl, hc⟩).2,
            (hLater.keeps ⟨rfl, hc'⟩).2⟩
  ite := fun {s t c d c' d' e e'} hFirst hSecond hThird => by
    rcases hFirst with ⟨rfl, hc⟩
    rcases hSecond with ⟨rfl, hc'⟩
    rcases hThird with ⟨rfl, he⟩
    exact
      couples_construct (.ite c c' e) (fun _ => rfl)
        fun _ _ hLater =>
          ⟨(hLater.keeps ⟨rfl, hc⟩).2,
            (hLater.keeps ⟨rfl, hc'⟩).2,
            (hLater.keeps ⟨rfl, he⟩).2⟩
  anyOf := fun {s t cs ds} hEach => by
    have hEq : cs = ds := by
      rw [← List.forall₂_eq_eq_eq]
      exact hEach.imp fun _ _ h => h.1
    have hLive : ∀ c ∈ cs, s.manager.IsLive c := by
      subst hEq
      exact fun c hc =>
        (List.forall₂_same.mp hEach c hc).2
    subst hEq
    exact
      couples_construct (.orMany cs) (fun _ => rfl)
        fun _ _ hLater c hc =>
          (hLater.keeps ⟨rfl, hLive c hc⟩).2

------------------------------------------------------------
-- Any Two Spaces
------------------------------------------------------------

/- The variables of all atoms have the given values. -/
def Assigns
    (s : Space)
    (value : Atom → Bool)
    (a : Nat → Bool) : Prop :=
  ∀ atom ∈ s.atoms, s.atomValue a atom = value atom

/- The assignment of given values to the variables of the atoms. -/
def assignment
    (s : Space)
    (value : Atom → Bool)
    (v : Nat) :
    Bool :=
  (s.atomOf? v).any value

/- The variable of an atom stands for the atom. -/
theorem atomOf?_idxOf
    {atom : Atom}
    (hAtom : atom ∈ s.atoms) :
    s.atomOf? (s.atoms.idxOf atom + 1) = some atom := by
  have hPlace := List.idxOf_lt_length_of_mem hAtom
  change s.atoms[s.atoms.idxOf atom]? = some atom
  rw [List.getElem?_eq_getElem hPlace,
    List.getElem_idxOf hPlace]

theorem assigns_assignment
    (s : Space)
    (value : Atom → Bool) :
    Assigns s value (assignment s value) := by
  intro atom hAtom
  simp [Space.atomValue, assignment, atomOf?_idxOf hAtom]

theorem Assigns.of_grows
    {value : Atom → Bool}
    {a : Nat → Bool}
    (hAssigns : Assigns s' value a)
    (hGrows : s.Grows s') :
    Assigns s value a := by
  intro atom hAtom
  rw [← hGrows.atomValue_eq hAtom]
  exact hAssigns atom (hGrows.atoms.subset hAtom)

/- Conditions that agree for equal values of the atoms. -/
structure Alike (s t : Space) (c d : Condition) : Prop where
  left : s.manager.IsLive c
  right : t.manager.IsLive d
  eval_eq :
    ∀ value a b, Assigns s value a → Assigns t value b →
      s.manager.eval c a = t.manager.eval d b

/- Sound spaces, their conditions compared by the values of atoms. -/
def byAtoms : Coupling where
  spaces s t := s.Sound ∧ t.Sound
  conditions := Alike

namespace Alike

theorem symm
    (hAlike : Alike s t c d) :
    Alike t s d c where
  left := hAlike.right
  right := hAlike.left
  eval_eq := fun value a b ha hb =>
    (hAlike.eval_eq value b a hb ha).symm

theorem neg
    (hs : s.Sound)
    (ht : t.Sound)
    (hAlike : Alike s t c d) :
    Alike s t (-c) (-d) where
  left := (s.manager.isLive_neg c).mpr hAlike.left
  right := (t.manager.isLive_neg d).mpr hAlike.right
  eval_eq := fun value a b ha hb => by
    rw [hs.manager.reduced.eval_neg hAlike.left,
      ht.manager.reduced.eval_neg hAlike.right,
      hAlike.eval_eq value a b ha hb]

/- Handles of one function are equal, so different ones stay so. -/
theorem eq_of_eq
    (hSound : s.Sound)
    (hFirst : Alike s t c d)
    (hSecond : Alike s t c' d')
    (hEq : d = d') :
    c = c' := by
  subst hEq
  apply
    hSound.manager.reduced.eq_of_eval_eq hFirst.left
      hSecond.left
  intro a
  have ha : Assigns s (s.atomValue a) a := fun _ _ => rfl
  have hb := assigns_assignment t (s.atomValue a)
  rw [hFirst.eval_eq _ a _ ha hb,
    hSecond.eval_eq _ a _ ha hb]

end Alike

theorem isLive_of_alike
    {cs ds : List Condition}
    (hEach : List.Forall₂ (Alike s t) cs ds) :
    ∀ c ∈ cs, s.manager.IsLive c := by
  induction hEach with
  | nil => simp
  | cons hFirst _ ih =>
      exact List.forall_mem_cons.mpr ⟨hFirst.left, ih⟩

theorem any_eq_of_alike
    {cs ds : List Condition}
    {value : Atom → Bool}
    {a b : Nat → Bool}
    (hEach : List.Forall₂ (Alike s t) cs ds)
    (ha : Assigns s value a)
    (hb : Assigns t value b) :
    cs.any (s.manager.eval · a) =
      ds.any (t.manager.eval · b) := by
  induction hEach with
  | nil => rfl
  | cons hFirst _ ih =>
      rw [List.any_cons, List.any_cons, ih,
        hFirst.eval_eq value a b ha hb]

theorem later_of_grows
    (hs : s.Sound)
    (ht : t.Sound)
    (hs' : s'.Sound)
    (ht' : t'.Sound)
    (hLeft : s.Grows s')
    (hRight : t.Grows t') :
    byAtoms.Later s t s' t' where
  spaces := ⟨hs', ht'⟩
  keeps := fun {c d} hAlike =>
    { left := hLeft.isLive hAlike.left
      right := hRight.isLive hAlike.right
      eval_eq := fun value a b ha hb => by
        rw [hLeft.eval_eq hs hs' hAlike.left,
          hRight.eval_eq ht ht' hAlike.right]
        exact
          hAlike.eval_eq value a b (ha.of_grows hLeft)
            (hb.of_grows hRight) }

/-
  Two computations run alike if the values they ensure are the
  same for equal values of the atoms that are there then.
-/
theorem couples_of_ensures
    {f g : InSpace Condition}
    {p q : Space → (Nat → Bool) → Bool}
    (hLeft :
      ∀ s t, byAtoms.Later s₀ t₀ s t →
        Ensures s f fun s => s.Means p)
    (hRight :
      ∀ s t, byAtoms.Later s₀ t₀ s t →
        Ensures t g fun t => t.Means q)
    (hValue :
      ∀ s t, byAtoms.Later s₀ t₀ s t →
        byAtoms.Later s₀ t₀ (f s).2 (g t).2 →
          ∀ value a b, Assigns (f s).2 value a →
            Assigns (g t).2 value b →
              p (f s).2 a = q (g t).2 b) :
    byAtoms.Couples s₀ t₀ f g Alike := by
  intro s t hLater
  rcases hLater.spaces with ⟨hs, ht⟩
  rcases hLeft s t hLater s hs (.refl s) with
    ⟨hs', hsGrows, hMeans⟩
  rcases hRight s t hLater t ht (.refl t) with
    ⟨ht', htGrows, hMeans'⟩
  have hLater' :=
    later_of_grows hs ht hs' ht' hsGrows htGrows
  refine ⟨hLater', hMeans.isLive, hMeans'.isLive, ?_⟩
  intro value a b ha hb
  rw [hMeans.eval_self hs', hMeans'.eval_self ht']
  exact
    hValue s t hLater (hLater.trans hLater') value a b ha hb

/- An atom that was asked for is there. -/
theorem mem_atoms_atom
    (s : Space)
    (atom : Atom) :
    atom ∈ (Condition.atom atom s).2.atoms := by
  have hAtoms :
      (Condition.atom atom s).2.atoms =
        (Condition.variableOf atom s).2.atoms := rfl
  rw [hAtoms, s.variableOf_eq atom]
  exact s.mem_withAtom atom

theorem couples_atom
    (s₀ t₀ : Space)
    (atom : Atom) :
    byAtoms.Couples s₀ t₀ (Condition.atom atom)
      (Condition.atom atom) Alike := by
  apply couples_of_ensures
  · exact fun _ _ _ => Condition.ensures_atom atom
  · exact fun _ _ _ => Condition.ensures_atom atom
  · intro s t _ _ value a b ha hb
    rw [ha atom (mem_atoms_atom s atom),
      hb atom (mem_atoms_atom t atom)]

theorem couples_and
    (hFirst : Alike s₀ t₀ c d)
    (hSecond : Alike s₀ t₀ c' d') :
    byAtoms.Couples s₀ t₀ (Condition.and c c')
      (Condition.and d d') Alike := by
  apply couples_of_ensures
  · intro s t hLater
    exact
      Condition.ensures_and
        (Space.means_self (hLater.keeps hFirst).left)
        (Space.means_self (hLater.keeps hSecond).left)
  · intro s t hLater
    exact
      Condition.ensures_and
        (Space.means_self (hLater.keeps hFirst).right)
        (Space.means_self (hLater.keeps hSecond).right)
  · intro s t _ hLater value a b ha hb
    rw [(hLater.keeps hFirst).eval_eq value a b ha hb,
      (hLater.keeps hSecond).eval_eq value a b ha hb]

theorem couples_or
    (hFirst : Alike s₀ t₀ c d)
    (hSecond : Alike s₀ t₀ c' d') :
    byAtoms.Couples s₀ t₀ (Condition.or c c')
      (Condition.or d d') Alike := by
  apply couples_of_ensures
  · intro s t hLater
    exact
      Condition.ensures_or
        (Space.means_self (hLater.keeps hFirst).left)
        (Space.means_self (hLater.keeps hSecond).left)
  · intro s t hLater
    exact
      Condition.ensures_or
        (Space.means_self (hLater.keeps hFirst).right)
        (Space.means_self (hLater.keeps hSecond).right)
  · intro s t _ hLater value a b ha hb
    rw [(hLater.keeps hFirst).eval_eq value a b ha hb,
      (hLater.keeps hSecond).eval_eq value a b ha hb]

theorem couples_ite
    (hFirst : Alike s₀ t₀ c d)
    (hSecond : Alike s₀ t₀ c' d')
    (hThird : Alike s₀ t₀ e e') :
    byAtoms.Couples s₀ t₀ (Condition.ite c c' e)
      (Condition.ite d d' e') Alike := by
  apply couples_of_ensures
  · intro s t hLater
    exact
      Condition.ensures_ite
        (Space.means_self (hLater.keeps hFirst).left)
        (Space.means_self (hLater.keeps hSecond).left)
        (Space.means_self (hLater.keeps hThird).left)
  · intro s t hLater
    exact
      Condition.ensures_ite
        (Space.means_self (hLater.keeps hFirst).right)
        (Space.means_self (hLater.keeps hSecond).right)
        (Space.means_self (hLater.keeps hThird).right)
  · intro s t _ hLater value a b ha hb
    rw [(hLater.keeps hFirst).eval_eq value a b ha hb,
      (hLater.keeps hSecond).eval_eq value a b ha hb,
      (hLater.keeps hThird).eval_eq value a b ha hb]

theorem couples_anyOf
    {cs ds : List Condition}
    (hEach : List.Forall₂ (Alike s₀ t₀) cs ds) :
    byAtoms.Couples s₀ t₀ (Condition.anyOf cs)
      (Condition.anyOf ds) Alike := by
  have hKeeps {s t : Space}
      (hLater : byAtoms.Later s₀ t₀ s t) :
      List.Forall₂ (Alike s t) cs ds :=
    hEach.imp fun _ _ h => hLater.keeps h
  apply couples_of_ensures
  · intro s t hLater
    exact
      Condition.ensures_anyOf
        (isLive_of_alike (hKeeps hLater))
  · intro s t hLater
    have hSymm :=
      (hKeeps hLater).flip.imp fun _ _ h => Alike.symm h
    exact Condition.ensures_anyOf (isLive_of_alike hSymm)
  · intro s t _ hLater value a b ha hb
    exact any_eq_of_alike (hKeeps hLater) ha hb

/-
  Conditions are built and compared alike in any two sound
  spaces, whatever their atoms and diagrams are.
-/
theorem lawful_byAtoms : byAtoms.Lawful where
  one := fun hSpaces =>
    { left := hSpaces.1.manager.reduced.isLive_one
      right := hSpaces.2.manager.reduced.isLive_one
      eval_eq := fun _ _ _ _ _ => by
        rw [Diagram.Manager.eval_one,
          Diagram.Manager.eval_one] }
  neg := fun hSpaces hAlike =>
    hAlike.neg hSpaces.1 hSpaces.2
  eq_iff := fun hSpaces hFirst hSecond =>
    ⟨hFirst.symm.eq_of_eq hSpaces.2 hSecond.symm,
      hFirst.eq_of_eq hSpaces.1 hSecond⟩
  atom := couples_atom
  and := couples_and
  or := couples_or
  ite := couples_ite
  anyOf := couples_anyOf

end Coupling

end Variability
