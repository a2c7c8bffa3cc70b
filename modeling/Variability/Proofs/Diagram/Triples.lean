import Variability.Proofs.Diagram.Canonicity

/-
  The arguments of an if-then-else.

  A triple is standardized by rewriting that changes its answers
  at most by a complement, and a standard triple is split by the
  least variable that it tests. Answers to the two halves make
  an answer to the triple.

  Main declarations:
    * `Triple.eval`
    * `Manager.Solves`, `Manager.StandsFor`
    * `Manager.Reduced.standsFor_of_standardize`
    * `Manager.Reduced.halves`
-/

namespace Variability

namespace Diagram

------------------------------------------------------------
-- Triples
------------------------------------------------------------

namespace Triple

/- A property of all three handles. -/
def All (t : Triple) (p : Handle → Prop) : Prop :=
  p t.test ∧ p t.yes ∧ p t.no

theorem All.imp
    {t : Triple}
    {p q : Handle → Prop}
    (hAll : t.All p)
    (hImp : ∀ r, p r → q r) :
    t.All q :=
  ⟨hImp _ hAll.1, hImp _ hAll.2.1, hImp _ hAll.2.2⟩

/- The value that an if-then-else of its values has. -/
def eval
    (t : Triple)
    (m : Manager)
    (a : Nat → Bool) :
    Bool :=
  if m.eval t.test a then m.eval t.yes a
  else m.eval t.no a

/- The ranks of all three handles. -/
def rank (t : Triple) (m : Manager) : Nat :=
  m.rank t.test + m.rank t.yes + m.rank t.no

/- The triples of the two cofactors by the least variable. -/
def low (t : Triple) (m : Manager) : Triple where
  test := (m.cofactors t.test (m.splitVar t)).1
  yes := (m.cofactors t.yes (m.splitVar t)).1
  no := (m.cofactors t.no (m.splitVar t)).1

def high (t : Triple) (m : Manager) : Triple where
  test := (m.cofactors t.test (m.splitVar t)).2
  yes := (m.cofactors t.yes (m.splitVar t)).2
  no := (m.cofactors t.no (m.splitVar t)).2

end Triple

namespace Manager

variable {m m' : Manager}
variable {t t' : Triple}
variable {r : Handle}
variable {a : Nat → Bool}

/- A handle that is an answer to an if-then-else. -/
structure Solves
    (m : Manager)
    (t : Triple)
    (r : Handle) : Prop where
  isLive : m.IsLive r
  isAbove : ∀ v, t.All (m.IsAbove v) → m.IsAbove v r
  eval_eq : ∀ a, m.eval r a = t.eval m a

/- A triple with the answers of another one, up to a complement. -/
structure StandsFor
    (m : Manager)
    (t' t : Triple)
    (negate : Bool) : Prop where
  all_isLive : t'.All m.IsLive
  all_isAbove :
    ∀ v, t.All (m.IsAbove v) → t'.All (m.IsAbove v)
  eval_eq : ∀ a, t'.eval m a = (negate != t.eval m a)
  rank_le : t'.rank m ≤ t.rank m

namespace Extends

theorem all_isLive
    (hExtends : m.Extends m')
    (hLive : t.All m.IsLive) :
    t.All m'.IsLive :=
  hLive.imp fun _ => hExtends.isLive

theorem all_isAbove_iff
    (hExtends : m.Extends m')
    (hLive : t.All m.IsLive)
    (v : Nat) :
    t.All (m'.IsAbove v) ↔ t.All (m.IsAbove v) := by
  rcases hLive with ⟨hTest, hYes, hNo⟩
  simp only [Triple.All, hExtends.isAbove_iff hTest,
    hExtends.isAbove_iff hYes, hExtends.isAbove_iff hNo]

theorem triple_eval_eq
    (hExtends : m.Extends m')
    (hReduced : m.Reduced)
    (hReduced' : m'.Reduced)
    (hLive : t.All m.IsLive) :
    t.eval m' a = t.eval m a := by
  rcases hLive with ⟨hTest, hYes, hNo⟩
  rw [Triple.eval, Triple.eval,
    hExtends.eval_eq hReduced hReduced' hTest,
    hExtends.eval_eq hReduced hReduced' hYes,
    hExtends.eval_eq hReduced hReduced' hNo]

end Extends

/-
  An answer to a triple that stood for another one in a manager
  that was extended since.
-/
theorem Solves.of_standsFor
    (hReduced : m.Reduced)
    (hReduced' : m'.Reduced)
    (hExtends : m.Extends m')
    {negate : Bool}
    (hLive : t.All m.IsLive)
    (hStands : m.StandsFor t' t negate)
    (hSolves : m'.Solves t' r) :
    m'.Solves t (r.negateIf negate) where
  isLive := by simpa using hSolves.isLive
  isAbove := fun v hAll => by
    have hAll' :=
      (hExtends.all_isAbove_iff hLive v).mp hAll
    have hStandsAll :=
      (hExtends.all_isAbove_iff hStands.all_isLive v).mpr
        (hStands.all_isAbove v hAll')
    simpa using hSolves.isAbove v hStandsAll
  eval_eq := fun a => by
    rw [hReduced'.eval_negateIf hSolves.isLive,
      hSolves.eval_eq,
      hExtends.triple_eval_eq hReduced hReduced'
        hStands.all_isLive,
      hStands.eval_eq,
      hExtends.triple_eval_eq hReduced hReduced' hLive]
    simp

/- Answers stay answers in an extended manager. -/
theorem Solves.extends
    (hReduced : m.Reduced)
    (hReduced' : m'.Reduced)
    (hExtends : m.Extends m')
    (hLive : t.All m.IsLive)
    (hSolves : m.Solves t r) :
    m'.Solves t r where
  isLive := hExtends.isLive hSolves.isLive
  isAbove := fun v hAll => by
    rw [hExtends.isAbove_iff hSolves.isLive]
    apply hSolves.isAbove
    exact (hExtends.all_isAbove_iff hLive v).mp hAll
  eval_eq := fun a => by
    rw [hExtends.eval_eq hReduced hReduced' hSolves.isLive,
      hSolves.eval_eq,
      hExtends.triple_eval_eq hReduced hReduced' hLive]

theorem StandsFor.refl
    (hLive : t.All m.IsLive) :
    m.StandsFor t t false where
  all_isLive := hLive
  all_isAbove := fun _ hAll => hAll
  eval_eq := fun a => by simp
  rank_le := le_refl _

/- Triples that stand for each other in turn. -/
theorem StandsFor.trans
    {t'' : Triple}
    {negate : Bool}
    (hSecond : m.StandsFor t'' t' negate)
    (hFirst : m.StandsFor t' t false) :
    m.StandsFor t'' t negate where
  all_isLive := hSecond.all_isLive
  all_isAbove := fun v hAll =>
    hSecond.all_isAbove v (hFirst.all_isAbove v hAll)
  eval_eq := fun a => by
    rw [hSecond.eval_eq, hFirst.eval_eq]
    simp
  rank_le := hSecond.rank_le.trans hFirst.rank_le

------------------------------------------------------------
-- Standard Triples
------------------------------------------------------------

namespace Reduced

/- The trivial answers are right. -/
theorem solves_trivialIte
    (hReduced : m.Reduced)
    (hLive : t.All m.IsLive)
    (hTrivial : trivialIte t = some r) :
    m.Solves t r := by
  rcases t with ⟨f, g, h⟩
  rcases hLive with ⟨hf, hg, hh⟩
  simp only [trivialIte] at hTrivial
  split at hTrivial
  · rename_i hTest
    cases hTrivial
    exact ⟨hg, fun v hAll => hAll.2.1,
      fun a => by simp_all [Triple.eval]⟩
  split at hTrivial
  · rename_i hTest
    cases hTrivial
    exact ⟨hh, fun v hAll => hAll.2.2,
      fun a => by simp_all [Triple.eval]⟩
  split at hTrivial
  · rename_i hSame
    cases hTrivial
    exact ⟨hg, fun v hAll => hAll.2.1,
      fun a => by simp_all [Triple.eval]⟩
  split at hTrivial
  · rename_i hConstants
    cases hTrivial
    exact ⟨hf, fun v hAll => hAll.1,
      fun a => by simp_all [Triple.eval]⟩
  split at hTrivial
  · rename_i hConstants
    cases hTrivial
    refine ⟨by simpa using hf, fun v hAll => ?_, ?_⟩
    · simpa using hAll.1
    · intro a
      rw [hReduced.eval_neg hf]
      simp_all [Triple.eval]
  · cases hTrivial

/- A constant is live. -/
theorem isLive_of_isTerminal
    (hReduced : m.Reduced)
    (hTerminal : r.isTerminal = true) :
    m.IsLive r := by
  rcases (Handle.isTerminal_iff r).mp hTerminal with
    rfl | rfl
  · exact hReduced.isLive_one
  · exact hReduced.isLive_zero

/-
  Where the test has the value of a constant, a branch that
  repeats the test or its complement has a constant value.
-/
theorem constantBranch
    (hReduced : m.Reduced)
    {f g x : Handle}
    (hf : m.IsLive f)
    (hg : m.IsLive g)
    (hx : x.isTerminal = true) :
    let branch := if g = f then x else if g = -f then -x else g
    m.IsLive branch ∧
      (∀ v, m.IsAbove v g → m.IsAbove v branch) ∧
      m.rank branch ≤ m.rank g ∧
      ∀ a, m.eval f a = m.eval x a →
        m.eval branch a = m.eval g a := by
  intro branch
  have hxLive := hReduced.isLive_of_isTerminal hx
  have hxNeg : (-x).isTerminal = true := by simpa using hx
  by_cases hSame : g = f
  · have hBranch : branch = x := by simp [branch, hSame]
    rw [hBranch, m.rank_of_isTerminal hx]
    refine ⟨hxLive, fun _ _ => Or.inl hx, by simp, ?_⟩
    intro a hTest
    rw [hSame, hTest]
  · by_cases hOpposite : g = -f
    · have hBranch : branch = -x := by
        simp [branch, hSame, ← hOpposite]
      rw [hBranch, m.rank_of_isTerminal hxNeg]
      refine
        ⟨by simpa using hxLive, fun _ _ => Or.inl hxNeg,
          by simp, ?_⟩
      intro a hTest
      rw [hOpposite, hReduced.eval_neg hf,
        hReduced.eval_neg hxLive, hTest]
    · have hBranch : branch = g := by
        simp [branch, hSame, hOpposite]
      rw [hBranch]
      exact ⟨hg, fun _ h => h, le_refl _, fun _ _ => rfl⟩

/- Branches that repeat the test may be constants. -/
theorem standsFor_constantBranches
    (hReduced : m.Reduced)
    (hLive : t.All m.IsLive) :
    m.StandsFor (constantBranches t) t false := by
  rcases hReduced.constantBranch hLive.1 hLive.2.1
      Handle.isTerminal_one with
    ⟨hYesLive, hYesAbove, hYesRank, hYesEval⟩
  rcases hReduced.constantBranch hLive.1 hLive.2.2
      Handle.isTerminal_zero with
    ⟨hNoLive, hNoAbove, hNoRank, hNoEval⟩
  refine
    ⟨⟨hLive.1, hYesLive, hNoLive⟩, ?_, ?_, ?_⟩
  · rintro v ⟨hTest, hYes, hNo⟩
    exact ⟨hTest, hYesAbove v hYes, hNoAbove v hNo⟩
  · intro a
    change
      (if m.eval t.test a then
          m.eval (constantBranches t).yes a
        else
          m.eval (constantBranches t).no a) = _
    by_cases hTest : m.eval t.test a = true
    · rw [if_pos hTest]
      exact (hYesEval a (by simpa using hTest)).trans
        (by simp [Triple.eval, hTest])
    · rw [if_neg hTest]
      exact (hNoEval a (by simpa using hTest)).trans
        (by simp [Triple.eval, hTest])
  · have hYes :
        m.rank (constantBranches t).yes ≤ m.rank t.yes :=
      hYesRank
    have hNo :
        m.rank (constantBranches t).no ≤ m.rank t.no :=
      hNoRank
    have hTest :
        m.rank (constantBranches t).test = m.rank t.test :=
      rfl
    simp only [Triple.rank]
    omega

/- A complement of the test is one that swaps the branches. -/
theorem standsFor_swapped
    (hReduced : m.Reduced)
    (hLive : t.All m.IsLive) :
    m.StandsFor ⟨-t.test, t.no, t.yes⟩ t false := by
  rcases hLive with ⟨hTest, hYes, hNo⟩
  refine ⟨by simp_all [Triple.All], ?_, ?_, ?_⟩
  · rintro v ⟨hv, hv', hv''⟩
    simp_all [Triple.All]
  · intro a
    simp only [Triple.eval, hReduced.eval_neg hTest]
    cases m.eval t.test a <;> simp
  · simp only [Triple.rank, rank_neg]
    omega

/- Complements of both branches are one of the whole. -/
theorem standsFor_complemented
    (hReduced : m.Reduced)
    (hLive : t.All m.IsLive) :
    m.StandsFor { t with yes := -t.yes, no := -t.no } t
      true := by
  rcases hLive with ⟨hTest, hYes, hNo⟩
  refine ⟨by simp_all [Triple.All], ?_, ?_, ?_⟩
  · rintro v ⟨hv, hv', hv''⟩
    simp_all [Triple.All]
  · intro a
    simp only [Triple.eval, hReduced.eval_neg hYes,
      hReduced.eval_neg hNo]
    cases m.eval t.test a <;> simp
  · simp [Triple.rank]

/- Complements can be moved from the test and the first branch. -/
theorem standsFor_regular
    (hReduced : m.Reduced)
    (hLive : t.All m.IsLive) :
    m.StandsFor (regular t).1 t (regular t).2 := by
  have hTest :
      m.StandsFor
        (if t.test.negated then ⟨-t.test, t.no, t.yes⟩ else t)
        t false := by
    cases t.test.negated with
    | true => exact hReduced.standsFor_swapped hLive
    | false => exact .refl hLive
  unfold regular
  generalize
    (if t.test.negated then
      (⟨-t.test, t.no, t.yes⟩ : Triple)
    else t) = t' at hTest ⊢
  dsimp only
  cases t'.yes.negated with
  | true =>
      exact
        (hReduced.standsFor_complemented
          hTest.all_isLive).trans hTest
  | false => exact hTest

/- A test without a trivial answer is no constant. -/
theorem test_of_trivialIte_eq_none
    (hTrivial : trivialIte t = none) :
    t.test.isTerminal = false := by
  rw [Bool.eq_false_iff]
  intro hTerminal
  rcases (Handle.isTerminal_iff _).mp hTerminal with
    hOne | hZero
  · simp [trivialIte, hOne] at hTrivial
  · have hNe : Handle.zero ≠ Handle.one := by decide
    simp [trivialIte, hZero, hNe] at hTrivial

theorem isTerminal_test_regular (t : Triple) :
    (regular t).1.test.isTerminal = t.test.isTerminal := by
  simp only [regular]
  split <;> split <;> simp

/- What standardizing answers is right. -/
theorem solves_of_standardize
    (hReduced : m.Reduced)
    (hLive : t.All m.IsLive)
    (hStandard : standardize t = .inl r) :
    m.Solves t r := by
  have hBranches := hReduced.standsFor_constantBranches hLive
  cases hFirst : trivialIte t with
  | some r' =>
      simp only [standardize, hFirst, Sum.inl.injEq]
        at hStandard
      rw [← hStandard]
      exact hReduced.solves_trivialIte hLive hFirst
  | none =>
      cases hSecond : trivialIte (constantBranches t) with
      | some r' =>
          simp only [standardize, hFirst, hSecond,
            Sum.inl.injEq] at hStandard
          rw [← hStandard]
          have hSolves :=
            hReduced.solves_trivialIte hBranches.all_isLive
              hSecond
          exact
            hSolves.of_standsFor hReduced hReduced
              (Extends.refl m) hLive hBranches
      | none =>
          simp [standardize, hFirst, hSecond] at hStandard

/- What standardizing leaves to compute tests a node. -/
theorem standsFor_of_standardize
    (hReduced : m.Reduced)
    {negate : Bool}
    (hLive : t.All m.IsLive)
    (hStandard : standardize t = .inr (t', negate)) :
    m.StandsFor t' t negate ∧
      t'.test.isTerminal = false := by
  have hBranches := hReduced.standsFor_constantBranches hLive
  cases hFirst : trivialIte t with
  | some r =>
      simp [standardize, hFirst] at hStandard
  | none =>
      cases hSecond : trivialIte (constantBranches t) with
      | some r =>
          simp [standardize, hFirst, hSecond] at hStandard
      | none =>
          have hRegular :
              regular (constantBranches t) =
                (t', negate) := by
            simpa [standardize, hFirst, hSecond]
              using hStandard
          have hStands :=
            hReduced.standsFor_regular hBranches.all_isLive
          have hTest :=
            isTerminal_test_regular (constantBranches t)
          rw [hRegular] at hStands hTest
          rw [test_of_trivialIte_eq_none hSecond] at hTest
          exact ⟨hStands.trans hBranches, hTest⟩

end Reduced

------------------------------------------------------------
-- Cofactors
------------------------------------------------------------

/- The least variable is at or above every handle of a triple. -/
theorem splitVar_le
    (m : Manager)
    (t : Triple) :
    t.All fun r =>
      r.isTerminal = true ∨ m.splitVar t ≤ m.topVar r := by
  have hLeast :
      ∀ r ∈ [t.test, t.yes, t.no],
        r.isTerminal = true ∨
          m.splitVar t ≤ m.topVar r := by
    intro r hr
    by_cases hTerminal : r.isTerminal = true
    · exact Or.inl hTerminal
    · right
      have hMem :
          m.topVar r ∈
            ([t.test, t.yes, t.no].filter
              (!·.isTerminal)).map m.topVar := by
        apply List.mem_map_of_mem
        rw [List.mem_filter]
        exact ⟨hr, by simpa using hTerminal⟩
      exact List.min?_getD_le_of_mem hMem
  exact
    ⟨hLeast _ (by simp), hLeast _ (by simp),
      hLeast _ (by simp)⟩

/- Where the test is a node, the least variable is tested first. -/
theorem exists_topVar_eq_splitVar
    (m : Manager)
    (hTest : t.test.isTerminal = false) :
    ∃ r ∈ [t.test, t.yes, t.no],
      r.isTerminal = false ∧ m.topVar r = m.splitVar t := by
  have hMem :
      t.test ∈
        [t.test, t.yes, t.no].filter (!·.isTerminal) := by
    simp [hTest]
  have hNonempty :
      ([t.test, t.yes, t.no].filter
        (!·.isTerminal)).map m.topVar ≠ [] :=
    List.ne_nil_of_mem (List.mem_map_of_mem hMem)
  cases hLeast :
      (([t.test, t.yes, t.no].filter
        (!·.isTerminal)).map m.topVar).min? with
  | none =>
      rw [List.min?_eq_none_iff] at hLeast
      exact absurd hLeast hNonempty
  | some v =>
      rcases List.mem_map.mp (List.min?_mem hLeast) with
        ⟨r, hr, hTop⟩
      rcases List.mem_filter.mp hr with ⟨hr', hTerminal⟩
      refine ⟨r, hr', by simpa using hTerminal, ?_⟩
      rw [hTop, splitVar, hLeast, Option.getD_some]

/- What is above all of a triple is less than the variable it splits by. -/
theorem lt_splitVar
    {w : Nat}
    (hTest : t.test.isTerminal = false)
    (hAbove : t.All (m.IsAbove w)) :
    w < m.splitVar t := by
  rcases m.exists_topVar_eq_splitVar hTest with
    ⟨r, hr, hTerminal, hTop⟩
  have hAboveAll :
      ∀ r ∈ [t.test, t.yes, t.no], m.IsAbove w r := by
    simpa [Triple.All] using hAbove
  rw [← hTop]
  exact (hAboveAll r hr).resolve_left (by simp [hTerminal])

theorem Reduced.splitVar_pos
    (hReduced : m.Reduced)
    (hLive : t.All m.IsLive)
    (hTest : t.test.isTerminal = false) :
    0 < m.splitVar t := by
  rcases m.exists_topVar_eq_splitVar hTest with
    ⟨r, hr, hTerminal, hTop⟩
  have hLiveAll :
      ∀ r ∈ [t.test, t.yes, t.no], m.IsLive r := by
    simpa [Triple.All] using hLive
  rw [← hTop]
  exact hReduced.topVar_pos (hLiveAll r hr) hTerminal

/- The function of a handle where a variable has a fixed value. -/
structure Restricts
    (m : Manager)
    (r : Handle)
    (v : Nat)
    (x : Bool)
    (c : Handle) : Prop where
  isLive : m.IsLive c
  isAbove : m.IsAbove v c
  eval_eq : ∀ a, a v = x → m.eval c a = m.eval r a
  rank_le : m.rank c ≤ m.rank r
  rank_lt :
    r.isTerminal = false → m.topVar r = v →
      m.rank c < m.rank r

/- Cofactors fix a variable at or above the top. -/
theorem Reduced.cofactors
    (hReduced : m.Reduced)
    (hLive : m.IsLive r)
    {v : Nat}
    (hv : r.isTerminal = true ∨ v ≤ m.topVar r) :
    m.Restricts r v false (m.cofactors r v).1 ∧
      m.Restricts r v true (m.cofactors r v).2 := by
  by_cases hAbove : m.IsAbove v r
  · have hSame : m.cofactors r v = (r, r) := by
      rcases hAbove with hTerminal | hTop
      · simp [Manager.cofactors, hTerminal]
      · simp [Manager.cofactors, hTop]
    have hSelf (x : Bool) : m.Restricts r v x r := by
      refine
        ⟨hLive, hAbove, fun _ _ => rfl, le_refl _, ?_⟩
      intro hTerminal hTop
      rcases hAbove with hConstant | hLess
      · simp [hTerminal] at hConstant
      · omega
    rw [hSame]
    exact ⟨hSelf false, hSelf true⟩
  · rw [IsAbove, not_or] at hAbove
    rcases hAbove with ⟨hNode, hNotLess⟩
    have hTerminal : r.isTerminal = false := by
      simpa using hNode
    have hTop : m.topVar r = v := by
      have hLe := hv.resolve_left hNode
      omega
    have hSplit :
        m.cofactors r v = (m.low r, m.high r) := by
      simp [Manager.cofactors, hTerminal, hNotLess]
    have hLow := hReduced.low_child hLive hTerminal
    have hHigh := hReduced.high_child hLive hTerminal
    have hLowRank := hReduced.rank_low_lt hLive hTerminal
    have hHighRank := hReduced.rank_high_lt hLive hTerminal
    rw [hSplit, ← hTop]
    constructor
    · refine
        ⟨hLow.1, hLow.2, ?_, hLowRank.le, fun _ _ => hLowRank⟩
      intro a ha
      rw [hReduced.eval_node hLive hTerminal]
      simp [ha]
    · refine
        ⟨hHigh.1, hHigh.2, ?_, hHighRank.le,
          fun _ _ => hHighRank⟩
      intro a ha
      rw [hReduced.eval_node hLive hTerminal]
      simp [ha]

/- The triple of the cofactors by the variable it is split by. -/
structure Halves
    (m : Manager)
    (t : Triple)
    (x : Bool)
    (half : Triple) : Prop where
  all_isLive : half.All m.IsLive
  all_isAbove : half.All (m.IsAbove (m.splitVar t))
  eval_eq :
    ∀ a, a (m.splitVar t) = x → half.eval m a = t.eval m a
  rank_lt : half.rank m < t.rank m

/- A triple of cofactors is one node further down. -/
theorem Halves.of_restricts
    {x : Bool}
    {half : Triple}
    (hTest : t.test.isTerminal = false)
    (hRestrictsTest :
      m.Restricts t.test (m.splitVar t) x half.test)
    (hRestrictsYes :
      m.Restricts t.yes (m.splitVar t) x half.yes)
    (hRestrictsNo :
      m.Restricts t.no (m.splitVar t) x half.no) :
    m.Halves t x half where
  all_isLive :=
    ⟨hRestrictsTest.isLive, hRestrictsYes.isLive,
      hRestrictsNo.isLive⟩
  all_isAbove :=
    ⟨hRestrictsTest.isAbove, hRestrictsYes.isAbove,
      hRestrictsNo.isAbove⟩
  eval_eq := fun a ha => by
    rw [Triple.eval, Triple.eval,
      hRestrictsTest.eval_eq a ha,
      hRestrictsYes.eval_eq a ha,
      hRestrictsNo.eval_eq a ha]
  rank_lt := by
    have hTestLe := hRestrictsTest.rank_le
    have hYesLe := hRestrictsYes.rank_le
    have hNoLe := hRestrictsNo.rank_le
    unfold Triple.rank
    rcases m.exists_topVar_eq_splitVar hTest with
      ⟨r, hr, hTerminal, hTop⟩
    simp only [List.mem_cons, List.not_mem_nil,
      or_false] at hr
    rcases hr with rfl | rfl | rfl
    · have hLt := hRestrictsTest.rank_lt hTerminal hTop
      omega
    · have hLt := hRestrictsYes.rank_lt hTerminal hTop
      omega
    · have hLt := hRestrictsNo.rank_lt hTerminal hTop
      omega

theorem Reduced.halves
    (hReduced : m.Reduced)
    (hLive : t.All m.IsLive)
    (hTest : t.test.isTerminal = false) :
    m.Halves t false (t.low m) ∧
      m.Halves t true (t.high m) := by
  rcases m.splitVar_le t with ⟨hTestLe, hYesLe, hNoLe⟩
  have hTestSplit := hReduced.cofactors hLive.1 hTestLe
  have hYesSplit := hReduced.cofactors hLive.2.1 hYesLe
  have hNoSplit := hReduced.cofactors hLive.2.2 hNoLe
  exact
    ⟨.of_restricts hTest hTestSplit.1 hYesSplit.1
        hNoSplit.1,
      .of_restricts hTest hTestSplit.2 hYesSplit.2
        hNoSplit.2⟩

namespace Extends

theorem cofactors_eq
    (hExtends : m.Extends m')
    (hLive : m.IsLive r)
    (v : Nat) :
    m'.cofactors r v = m.cofactors r v := by
  unfold Manager.cofactors
  rw [hExtends.topVar_eq hLive, hExtends.low_eq hLive,
    hExtends.high_eq hLive]

/- An extended manager splits a triple in the same way. -/
theorem splitVar_eq
    (hExtends : m.Extends m')
    (hLive : t.All m.IsLive) :
    m'.splitVar t = m.splitVar t := by
  have hLiveAll :
      ∀ r ∈ [t.test, t.yes, t.no].filter (!·.isTerminal),
        m.IsLive r := by
    intro r hr
    have hMem := (List.mem_filter.mp hr).1
    rcases hLive with ⟨hTest, hYes, hNo⟩
    simp only [List.mem_cons, List.not_mem_nil,
      or_false] at hMem
    rcases hMem with rfl | rfl | rfl
    · exact hTest
    · exact hYes
    · exact hNo
  unfold Manager.splitVar
  rw [List.map_congr_left fun r hr =>
    hExtends.topVar_eq (hLiveAll r hr)]

theorem low_triple_eq
    (hExtends : m.Extends m')
    (hLive : t.All m.IsLive) :
    t.low m' = t.low m := by
  unfold Triple.low
  rw [hExtends.splitVar_eq hLive,
    hExtends.cofactors_eq hLive.1,
    hExtends.cofactors_eq hLive.2.1,
    hExtends.cofactors_eq hLive.2.2]

theorem high_triple_eq
    (hExtends : m.Extends m')
    (hLive : t.All m.IsLive) :
    t.high m' = t.high m := by
  unfold Triple.high
  rw [hExtends.splitVar_eq hLive,
    hExtends.cofactors_eq hLive.1,
    hExtends.cofactors_eq hLive.2.1,
    hExtends.cofactors_eq hLive.2.2]

end Extends

end Manager

end Diagram

end Variability
