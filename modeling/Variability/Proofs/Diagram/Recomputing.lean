import Variability.Proofs.Diagram.Acyclicity

/-
  If-then-else without a table of computed results.

  The plain recursion looks nothing up and records nothing. A
  triple is settled if that recursion ends without storing a
  node. What was computed once stays settled as long as nothing
  is freed, so a recorded result only saves the way to it.

  Main declarations:
    * `Manager.plainIte`, `Manager.Recomputes`
    * `Manager.Settles`
    * `Manager.Settles.plainIteWithin_eq`
-/

namespace Variability

namespace Diagram

------------------------------------------------------------
-- Standard Triples
------------------------------------------------------------

/- The sum of a measure over a triple. -/
def Triple.total
    (t : Triple)
    (measure : Handle → Nat) : Nat :=
  measure t.test + measure t.yes + measure t.no

namespace Manager

variable {m m' : Manager}
variable {t t' : Triple}
variable {r low high : Handle}
variable {v : Nat}
variable {negate : Bool}

/- What is left to compute is the regular form of the arguments. -/
theorem regular_of_standardize
    (hStandard : standardize t = .inr (t', negate)) :
    regular (constantBranches t) = (t', negate) ∧
      t'.test.isTerminal = false := by
  cases hFirst : trivialIte t with
  | some r => simp [standardize, hFirst] at hStandard
  | none =>
      cases hSecond : trivialIte (constantBranches t) with
      | some r =>
          simp [standardize, hFirst, hSecond] at hStandard
      | none =>
          have hRegular :
              regular (constantBranches t) = (t', negate) := by
            simpa [standardize, hFirst, hSecond]
              using hStandard
          have hTest :=
            Reduced.isTerminal_test_regular
              (constantBranches t)
          rw [hRegular,
            Reduced.test_of_trivialIte_eq_none hSecond]
            at hTest
          exact ⟨hRegular, hTest⟩

section Closed

variable {p : Handle → Prop}
variable (hNeg : ∀ r, p (-r) ↔ p r)
variable (hOne : p .one)
include hNeg hOne

/- A branch that repeats the test may be a constant. -/
theorem all_constantBranches
    (hAll : t.All p) :
    (constantBranches t).All p := by
  have hZero : p .zero := (hNeg .one).mpr hOne
  refine ⟨hAll.1, ?_, ?_⟩
  · simp only [constantBranches]
    split
    · exact hOne
    split
    · exact hZero
    · exact hAll.2.1
  · simp only [constantBranches]
    split
    · exact hZero
    split
    · exact hOne
    · exact hAll.2.2

/- A trivial result is an argument, up to a complement. -/
omit hOne in
theorem of_trivialIte
    (hAll : t.All p)
    (hTrivial : trivialIte t = some r) :
    p r := by
  rcases hAll with ⟨hTest, hYes, hNo⟩
  unfold trivialIte at hTrivial
  split at hTrivial
  · exact Option.some.inj hTrivial ▸ hYes
  split at hTrivial
  · exact Option.some.inj hTrivial ▸ hNo
  split at hTrivial
  · exact Option.some.inj hTrivial ▸ hYes
  split at hTrivial
  · exact Option.some.inj hTrivial ▸ hTest
  split at hTrivial
  · exact Option.some.inj hTrivial ▸ (hNeg _).mpr hTest
  · cases hTrivial

theorem of_standardize
    (hAll : t.All p)
    (hStandard : standardize t = .inl r) :
    p r := by
  cases hFirst : trivialIte t with
  | some s =>
      simp only [standardize, hFirst, Sum.inl.injEq]
        at hStandard
      exact hStandard ▸ of_trivialIte hNeg hAll hFirst
  | none =>
      cases hSecond : trivialIte (constantBranches t) with
      | some s =>
          simp only [standardize, hFirst, hSecond,
            Sum.inl.injEq] at hStandard
          exact
            hStandard ▸
              of_trivialIte hNeg
                (all_constantBranches hNeg hOne hAll) hSecond
      | none =>
          simp [standardize, hFirst, hSecond] at hStandard

/-
  What holds of the arguments, of constants and with every
  handle of its complement holds of the standard triple.
-/
theorem all_of_standardize
    (hAll : t.All p)
    (hStandard : standardize t = .inr (t', negate)) :
    t'.All p := by
  rcases all_constantBranches hNeg hOne hAll with
    ⟨hTest, hYes, hNo⟩
  have hRegular := (regular_of_standardize hStandard).1
  have hFirst : (regular (constantBranches t)).1 = t' := by
    rw [hRegular]
  rw [← hFirst]
  simp only [regular]
  split <;> split <;>
    simp only [Triple.All, hNeg] <;>
    exact ⟨by assumption, by assumption, by assumption⟩

end Closed

/- Standardizing adds nothing to a measure. -/
theorem Measures.total_of_standardize
    {measure : Handle → Nat}
    (hMeasures : m.Measures measure)
    (hStandard : standardize t = .inr (t', negate)) :
    t'.total measure ≤ t.total measure := by
  have hZero : measure .zero = 0 :=
    (hMeasures.neg .one).trans hMeasures.one
  have hBranch :
      ∀ r x s : Handle, measure x = 0 → measure s = 0 →
        measure
            (if r = t.test then x
              else if r = -t.test then s else r) ≤
          measure r := by
    intro r x s hx hs
    split
    · omega
    split
    · omega
    · exact le_refl _
  have hYes :
      measure (constantBranches t).yes ≤ measure t.yes :=
    hBranch t.yes _ _ hMeasures.one hZero
  have hNo :
      measure (constantBranches t).no ≤ measure t.no :=
    hBranch t.no _ _ hZero hMeasures.one
  have hTest :
      measure (constantBranches t).test = measure t.test :=
    rfl
  have hRegular := (regular_of_standardize hStandard).1
  have hFirst : (regular (constantBranches t)).1 = t' := by
    rw [hRegular]
  rw [← hFirst]
  simp only [regular, Triple.total]
  split <;> split <;> simp only [hMeasures.neg] <;> omega

------------------------------------------------------------
-- Halves
------------------------------------------------------------

/- A handle with no more of a measure than the one it is split off. -/
structure SplitOff
    (m : Manager)
    (measure : Handle → Nat)
    (v : Nat)
    (r c : Handle) : Prop where
  le : measure c ≤ measure r
  lt :
    r.isTerminal = false → m.topVar r = v →
      measure c < measure r

/- Cofactors are split off. -/
theorem Measures.cofactors
    {measure : Handle → Nat}
    (hMeasures : m.Measures measure)
    (hLive : m.IsLive r)
    (v : Nat) :
    m.SplitOff measure v r (m.cofactors r v).1 ∧
      m.SplitOff measure v r (m.cofactors r v).2 := by
  by_cases hAbove : r.isTerminal || decide (v < m.topVar r)
  · have hSame : m.cofactors r v = (r, r) := by
      simp [Manager.cofactors, hAbove]
    have hSelf : m.SplitOff measure v r r := by
      refine ⟨le_refl _, ?_⟩
      intro hTerminal hTop
      simp [hTerminal, hTop] at hAbove
    rw [hSame]
    exact ⟨hSelf, hSelf⟩
  · have hSplit :
        m.cofactors r v = (m.low r, m.high r) := by
      simp [Manager.cofactors, hAbove]
    have hTerminal : r.isTerminal = false := by
      simp_all
    have hLow := hMeasures.low_lt r hLive hTerminal
    have hHigh := hMeasures.high_lt r hLive hTerminal
    rw [hSplit]
    exact
      ⟨⟨hLow.le, fun _ _ => hLow⟩,
        ⟨hHigh.le, fun _ _ => hHigh⟩⟩

/- One handle of a triple is split by its own variable. -/
theorem total_lt_of_splitOff
    {measure : Handle → Nat}
    {half : Triple}
    (hNode : t.test.isTerminal = false)
    (hTest :
      m.SplitOff measure (m.splitVar t) t.test half.test)
    (hYes :
      m.SplitOff measure (m.splitVar t) t.yes half.yes)
    (hNo : m.SplitOff measure (m.splitVar t) t.no half.no) :
    half.total measure < t.total measure := by
  have hTestLe := hTest.le
  have hYesLe := hYes.le
  have hNoLe := hNo.le
  unfold Triple.total
  rcases m.exists_topVar_eq_splitVar hNode with
    ⟨r, hr, hTerminal, hTop⟩
  simp only [List.mem_cons, List.not_mem_nil,
    or_false] at hr
  rcases hr with rfl | rfl | rfl
  · have hLt := hTest.lt hTerminal hTop
    omega
  · have hLt := hYes.lt hTerminal hTop
    omega
  · have hLt := hNo.lt hTerminal hTop
    omega

/- Both halves of a triple that tests a node have less. -/
theorem Measures.halves
    {measure : Handle → Nat}
    (hMeasures : m.Measures measure)
    (hLive : t.All m.IsLive)
    (hNode : t.test.isTerminal = false) :
    (t.low m).total measure < t.total measure ∧
      (t.high m).total measure < t.total measure := by
  have hTest := hMeasures.cofactors hLive.1 (m.splitVar t)
  have hYes := hMeasures.cofactors hLive.2.1 (m.splitVar t)
  have hNo := hMeasures.cofactors hLive.2.2 (m.splitVar t)
  exact
    ⟨total_lt_of_splitOff hNode hTest.1 hYes.1 hNo.1,
      total_lt_of_splitOff hNode hTest.2 hYes.2 hNo.2⟩

namespace Intact

variable (hIntact : m.Intact)
include hIntact

theorem isLive_one : m.IsLive .one :=
  ⟨by decide, hIntact.terminal_occupied⟩

theorem isLive_of_standardize
    (hLive : t.All m.IsLive)
    (hStandard : standardize t = .inl r) :
    m.IsLive r :=
  of_standardize m.isLive_neg hIntact.isLive_one hLive
    hStandard

theorem all_isLive_of_standardize
    (hLive : t.All m.IsLive)
    (hStandard : standardize t = .inr (t', negate)) :
    t'.All m.IsLive :=
  all_of_standardize m.isLive_neg hIntact.isLive_one hLive
    hStandard

/- Cofactors of live handles are live. -/
theorem isLive_cofactors
    (hLive : m.IsLive r)
    (v : Nat) :
    m.IsLive (m.cofactors r v).1 ∧
      m.IsLive (m.cofactors r v).2 := by
  unfold Manager.cofactors
  split
  · exact ⟨hLive, hLive⟩
  · rename_i hAbove
    have hTerminal : r.isTerminal = false := by
      simp_all
    have hEdges :=
      hIntact.edges_live _ (hLive.isNode hTerminal)
    exact
      ⟨(m.isLive_negateIf _ _).mpr hEdges.1,
        (m.isLive_negateIf _ _).mpr hEdges.2⟩

theorem all_isLive_halves
    (hLive : t.All m.IsLive) :
    (t.low m).All m.IsLive ∧ (t.high m).All m.IsLive := by
  have hTest := hIntact.isLive_cofactors hLive.1 (m.splitVar t)
  have hYes := hIntact.isLive_cofactors hLive.2.1 (m.splitVar t)
  have hNo := hIntact.isLive_cofactors hLive.2.2 (m.splitVar t)
  exact ⟨⟨hTest.1, hYes.1, hNo.1⟩, ⟨hTest.2, hYes.2, hNo.2⟩⟩

end Intact

------------------------------------------------------------
-- The Plain Recursion
------------------------------------------------------------

/-
  Compute an if-then-else by splitting on top variables, every
  triple anew.
-/
def plainIteWithin :
    (depth : Nat) →
    Triple →
    Manager →
    Handle × Manager
  | 0, t, m => (t.test, m)
  | depth + 1, t, m =>
      match standardize t with
      | .inl r => (r, m)
      | .inr (t, negate) =>
          let (low, m₁) := plainIteWithin depth (t.low m) m
          let (high, m₂) := plainIteWithin depth (t.high m) m₁
          let (r, m₃) := m₂.mkNode (m.splitVar t) low high
          (r.negateIf negate, m₃)

/- If `f` then `g` else `h`, without computed results. -/
def plainIte
    (m : Manager)
    (f g h : Handle) :
    Handle × Manager :=
  plainIteWithin m.depthBound ⟨f, g, h⟩ m

section Steps

variable {depth : Nat}

theorem plainIteWithin_standard
    (hStandard : standardize t = .inl r) :
    plainIteWithin (depth + 1) t m = (r, m) := by
  simp [plainIteWithin, hStandard]

theorem plainIteWithin_split
    (hStandard : standardize t = .inr (t', negate)) :
    plainIteWithin (depth + 1) t m =
      let low := plainIteWithin depth (t'.low m) m
      let high := plainIteWithin depth (t'.high m) low.2
      let made :=
        high.2.mkNode (m.splitVar t') low.1 high.1
      (made.1.negateIf negate, made.2) := by
  simp only [plainIteWithin, hStandard]

end Steps

/- The plain recursion without a bound on its depth. -/
inductive Recomputes :
    Triple → Manager → Handle → Manager → Prop where
  | standard {t : Triple} {m : Manager} {r : Handle}
      (hStandard : standardize t = .inl r) :
      Recomputes t m r m
  | split {t t' : Triple} {negate : Bool}
      {m m₁ m₂ : Manager} {low high : Handle}
      (hStandard : standardize t = .inr (t', negate))
      (hLow : Recomputes (t'.low m) m low m₁)
      (hHigh : Recomputes (t'.high m) m₁ high m₂) :
      Recomputes t m
        ((m₂.mkNode (m.splitVar t') low high).1.negateIf
          negate)
        (m₂.mkNode (m.splitVar t') low high).2

------------------------------------------------------------
-- Settled Triples
------------------------------------------------------------

/-
  The plain recursion ends with a handle, and every node that it
  makes is at hand.
-/
inductive Settles (m : Manager) : Triple → Handle → Prop where
  | standard {t : Triple} {r : Handle}
      (hStandard : standardize t = .inl r) :
      Settles m t r
  | split {t t' : Triple} {negate : Bool}
      {low high r : Handle}
      (hStandard : standardize t = .inr (t', negate))
      (hLow : Settles m (t'.low m) low)
      (hHigh : Settles m (t'.high m) high)
      (hHolds : m.Holds (m.splitVar t') low high r) :
      Settles m t (r.negateIf negate)

/- What a live triple is settled with is live. -/
theorem Settles.isLive
    (hSettles : m.Settles t r)
    (hIntact : m.Intact)
    (hLive : t.All m.IsLive) :
    m.IsLive r := by
  induction hSettles with
  | standard hStandard =>
      exact hIntact.isLive_of_standardize hLive hStandard
  | split hStandard _ _ hHolds ihLow _ =>
      have hLive' :=
        hIntact.all_isLive_of_standardize hLive hStandard
      rw [isLive_negateIf]
      exact
        hHolds.isLive
          (ihLow (hIntact.all_isLive_halves hLive').1)

/- A live triple stays settled when nodes are added. -/
theorem Settles.extends
    (hSettles : m.Settles t r)
    (hIntact : m.Intact)
    (hExtends : m.Extends m')
    (hLive : t.All m.IsLive) :
    m'.Settles t r := by
  induction hSettles with
  | standard hStandard => exact .standard hStandard
  | split hStandard _ _ hHolds ihLow ihHigh =>
      have hLive' :=
        hIntact.all_isLive_of_standardize hLive hStandard
      have hHalves := hIntact.all_isLive_halves hLive'
      have hLow := ihLow hHalves.1
      have hHigh := ihHigh hHalves.2
      rw [← hExtends.low_triple_eq hLive'] at hLow
      rw [← hExtends.high_triple_eq hLive'] at hHigh
      have hHolds' := hHolds.extends hExtends
      rw [← hExtends.splitVar_eq hLive'] at hHolds'
      exact .split hStandard hLow hHigh hHolds'

/- The plain recursion ends at once for a settled triple. -/
theorem Settles.recomputes
    (hSettles : m.Settles t r)
    (hIntact : m.Intact) :
    Recomputes t m r m := by
  induction hSettles with
  | standard hStandard => exact .standard hStandard
  | split hStandard _ _ hHolds ihLow ihHigh =>
      have hSplit := Recomputes.split hStandard ihLow ihHigh
      rw [hHolds.mkNode_eq hIntact] at hSplit
      exact hSplit

/-
  Computing a settled triple again changes nothing. What the
  recursion meets is measured in a manager that has the
  arguments, because later nodes are no part of them.
-/
theorem Settles.plainIteWithin_eq
    {m₀ : Manager}
    {measure : Handle → Nat}
    (hSettles : m.Settles t r)
    (hIntact : m.Intact)
    (hIntact₀ : m₀.Intact)
    (hMeasures : m₀.Measures measure)
    (hExtends : m₀.Extends m)
    (hLive : t.All m₀.IsLive)
    {depth : Nat}
    (hDepth : t.total measure < depth) :
    plainIteWithin depth t m = (r, m) := by
  induction hSettles generalizing depth with
  | standard hStandard =>
      cases depth with
      | zero => omega
      | succ depth => exact plainIteWithin_standard hStandard
  | split hStandard _ _ hHolds ihLow ihHigh =>
      cases depth with
      | zero => omega
      | succ depth =>
          have hLive' :=
            hIntact₀.all_isLive_of_standardize hLive hStandard
          have hTotal :=
            hMeasures.total_of_standardize hStandard
          have hLess :=
            hMeasures.halves hLive'
              (regular_of_standardize hStandard).2
          have hHalves := hIntact₀.all_isLive_halves hLive'
          rw [← hExtends.low_triple_eq hLive',
            ← hExtends.high_triple_eq hLive'] at hLess hHalves
          have hLow :
              plainIteWithin depth _ m = _ :=
            ihLow hHalves.1 (by omega)
          have hHigh :
              plainIteWithin depth _ m = _ :=
            ihHigh hHalves.2 (by omega)
          rw [plainIteWithin_split hStandard]
          simp only [hLow, hHigh, hHolds.mkNode_eq hIntact]

end Manager

end Diagram

end Variability
