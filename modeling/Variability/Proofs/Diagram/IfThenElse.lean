import Variability.Proofs.Diagram.Triples

/-
  If-then-else computes what its name says.

  The recursion standardizes its arguments, looks the standard
  triple up among the results computed so far, and otherwise
  splits by the least variable. In a sound manager, whose
  computed results are right, it ends within its depth, its
  result is right, and no handle changes its value.

  Main declarations:
    * `Manager.Sound`
    * `Manager.Computes`
    * `Manager.Sound.iteWithin`
    * `Manager.Sound.ite`
-/

namespace Variability

namespace Diagram

------------------------------------------------------------
-- Caches
------------------------------------------------------------

namespace Cache

variable {κ ν : Type}
variable [Spread κ] [DecidableEq κ]

@[simp] theorem fst_find
    (c : Cache κ ν)
    (key : κ) :
    (c.find key).1 = c.peek key := by
  unfold find
  split <;> simp_all

@[simp] theorem peek_find
    (c : Cache κ ν)
    (key key' : κ) :
    (c.find key).2.peek key' = c.peek key' := by
  unfold find
  split <;> rfl

/- An entry is either the one that was put last or an old one. -/
theorem peek_insert
    (c : Cache κ ν)
    (key key' : κ)
    (value value' : ν)
    (hPeek :
      (c.insert key value).peek key' = some value') :
    key' = key ∧ value' = value ∨
      c.peek key' = some value' := by
  simp only [peek, insert, Array.size_setIfInBounds,
    Array.getElem?_setIfInBounds] at hPeek
  by_cases hSlot :
      bucketOf c.slots.size key = bucketOf c.slots.size key'
  · rw [if_pos hSlot] at hPeek
    by_cases hBound :
        bucketOf c.slots.size key < c.slots.size
    · rw [if_pos hBound] at hPeek
      by_cases hKey : key = key'
      · simp only [hKey, if_true, Option.some.injEq] at hPeek
        exact Or.inl ⟨hKey.symm, hPeek.symm⟩
      · simp [hKey] at hPeek
    · rw [if_neg hBound] at hPeek
      simp at hPeek
  · rw [if_neg hSlot] at hPeek
    exact Or.inr hPeek

@[simp] theorem peek_clear
    (c : Cache κ ν)
    (key : κ) :
    c.clear.peek key = none := by
  simp only [peek, clear, Array.getElem?_replicate]
  split
  · rename_i hEntry
    split at hEntry <;> simp at hEntry
  · rfl

@[simp] theorem peek_empty
    (bits : Nat)
    (key : κ) :
    (Cache.empty bits : Cache κ ν).peek key = none := by
  simp only [peek, Cache.empty, Array.getElem?_replicate]
  split
  · rename_i hEntry
    split at hEntry <;> simp at hEntry
  · rfl

end Cache

namespace Manager

variable {m m' : Manager}
variable {t t' : Triple}
variable {r : Handle}
variable {a : Nat → Bool}

------------------------------------------------------------
-- Sound Managers
------------------------------------------------------------

/- A reduced manager whose computed results are right. -/
structure Sound (m : Manager) : Prop where
  reduced : m.Reduced
  all_isLive :
    ∀ t r, m.computed.peek t = some r → t.All m.IsLive
  solves :
    ∀ t r, m.computed.peek t = some r → m.Solves t r

/- Results stay right while the nodes they are about stay. -/
theorem Sound.extends
    (hSound : m.Sound)
    (hReduced' : m'.Reduced)
    (hExtends : m.Extends m')
    (hComputed :
      ∀ t r, m'.computed.peek t = some r →
        m.computed.peek t = some r ∨
          t.All m'.IsLive ∧ m'.Solves t r) :
    m'.Sound where
  reduced := hReduced'
  all_isLive := by
    intro t r hPeek
    rcases hComputed t r hPeek with hOld | hNew
    · exact hExtends.all_isLive (hSound.all_isLive t r hOld)
    · exact hNew.1
  solves := by
    intro t r hPeek
    rcases hComputed t r hPeek with hOld | hNew
    · exact
        (hSound.solves t r hOld).extends hSound.reduced
          hReduced' hExtends (hSound.all_isLive t r hOld)
    · exact hNew.2

theorem extends_withComputed
    (m : Manager)
    (computed : Cache Triple Handle) :
    m.Extends { m with computed } :=
  fun _ hLive => ⟨hLive, rfl⟩

theorem Reduced.withComputed
    (hReduced : m.Reduced)
    (computed : Cache Triple Handle) :
    ({ m with computed } : Manager).Reduced where
  chained := hReduced.chained
  terminal_occupied := hReduced.terminal_occupied
  terminal_apart := hReduced.terminal_apart
  terminal_value := hReduced.terminal_value
  isChained_of_isNode := hReduced.isChained_of_isNode
  isCanonical := fun i hi =>
    (m.extends_withComputed computed).isCanonical
      (hReduced.isCanonical i hi)

theorem Sound.withComputed
    (hSound : m.Sound)
    {computed : Cache Triple Handle}
    (hComputed :
      ∀ t r, computed.peek t = some r →
        m.computed.peek t = some r ∨
          t.All m.IsLive ∧ m.Solves t r) :
    ({ m with computed } : Manager).Sound := by
  have hReduced' := hSound.reduced.withComputed computed
  have hExtends := m.extends_withComputed computed
  apply hSound.extends hReduced' hExtends
  intro t r hPeek
  rcases hComputed t r hPeek with hOld | ⟨hLive, hSolves⟩
  · exact Or.inl hOld
  · exact Or.inr
      ⟨hExtends.all_isLive hLive,
        hSolves.extends hSound.reduced hReduced' hExtends
          hLive⟩

/- A new manager has no results. -/
theorem Sound.empty
    (bits : Nat) :
    (Manager.empty bits).Sound where
  reduced := Reduced.empty bits
  all_isLive := by simp [Manager.empty]
  solves := by simp [Manager.empty]

/- Making a node keeps a manager sound. -/
theorem Sound.mkNode
    (hSound : m.Sound)
    {v : Nat}
    {low high : Handle}
    (hv : 0 < v)
    (hLow : m.IsLive low)
    (hHigh : m.IsLive high)
    (hAboveLow : m.IsAbove v low)
    (hAboveHigh : m.IsAbove v high) :
    (m.mkNode v low high).2.Sound := by
  have hMade :=
    hSound.reduced.mkNode hv hLow hHigh hAboveLow hAboveHigh
  apply hSound.extends hMade.reduced hMade.keeps
  intro t r hPeek
  rw [hMade.computed_eq] at hPeek
  exact Or.inl hPeek

------------------------------------------------------------
-- The Recursion
------------------------------------------------------------

/- A manager that counted a look-up among its results. -/
def lookedUp (m : Manager) (t : Triple) : Manager :=
  { m with computed := (m.computed.find t).2 }

/- A manager that made a node and recorded it as a result. -/
def recorded
    (m : Manager)
    (t : Triple)
    (v : Nat)
    (low high : Handle) :
    Manager :=
  let (r, m) := m.mkNode v low high
  { m with computed := m.computed.insert t r }

/-
  The recursion of if-then-else without a bound on its depth:
  a triple and a manager give a handle and a manager.
-/
inductive Computes :
    Triple → Manager → Handle → Manager → Prop where
  | standard {t : Triple} {m : Manager} {r : Handle}
      (hStandard : standardize t = .inl r) :
      Computes t m r m
  | known {t t' : Triple} {negate : Bool}
      {m : Manager} {r : Handle}
      (hStandard : standardize t = .inr (t', negate))
      (hKnown : m.computed.peek t' = some r) :
      Computes t m (r.negateIf negate) (m.lookedUp t')
  | split {t t' : Triple} {negate : Bool}
      {m m₁ m₂ : Manager} {low high : Handle}
      (hStandard : standardize t = .inr (t', negate))
      (hUnknown : m.computed.peek t' = none)
      (hLow : Computes (t'.low m) (m.lookedUp t') low m₁)
      (hHigh : Computes (t'.high m) m₁ high m₂) :
      Computes t m
        ((m₂.mkNode (m.splitVar t') low high).1.negateIf
          negate)
        (m₂.recorded t' (m.splitVar t') low high)

/- The recursion has at most one outcome. -/
theorem Computes.unique
    {r' : Handle}
    {m₁ m₂ : Manager}
    (hFirst : Computes t m r m₁)
    (hSecond : Computes t m r' m₂) :
    r = r' ∧ m₁ = m₂ := by
  induction hFirst generalizing r' m₂ with
  | standard hStandard =>
      cases hSecond <;> simp_all
  | known hStandard hKnown =>
      cases hSecond <;> simp_all
  | split hStandard hUnknown _ _ ihLow ihHigh =>
      cases hSecond with
      | standard hStandard' => simp_all
      | known hStandard' hKnown' => simp_all
      | split hStandard' hUnknown' hLow' hHigh' =>
          rw [hStandard] at hStandard'
          cases hStandard'
          rcases ihLow hLow' with ⟨rfl, rfl⟩
          rcases ihHigh hHigh' with ⟨rfl, rfl⟩
          exact ⟨rfl, rfl⟩

/-
  An outcome of the recursion: the manager is sound, keeps what
  was live, and has an answer.
-/
structure Answers
    (m : Manager)
    (t : Triple)
    (out : Handle × Manager) : Prop where
  sound : out.2.Sound
  keeps : m.Extends out.2
  solves : out.2.Solves t out.1
  computes : Computes t m out.1 out.2

/- Counting a look-up changes no result. -/
theorem Sound.lookedUp
    (hSound : m.Sound)
    (t : Triple) :
    (m.lookedUp t).Sound :=
  hSound.withComputed fun t' r hPeek =>
    Or.inl (by simpa using hPeek)

theorem extends_lookedUp
    (m : Manager)
    (t : Triple) :
    m.Extends (m.lookedUp t) :=
  m.extends_withComputed _

namespace Answers

/- A trivial triple has its answer. -/
theorem standard
    (hSound : m.Sound)
    (hStandard : standardize t = .inl r)
    (hSolves : m.Solves t r) :
    m.Answers t (r, m) :=
  ⟨hSound, Extends.refl m, hSolves, .standard hStandard⟩

/- A triple whose standard form was computed has its answer. -/
theorem known
    (hSound : m.Sound)
    {negate : Bool}
    (hStandard : standardize t = .inr (t', negate))
    (hStands : m.StandsFor t' t negate)
    (hLive : t.All m.IsLive)
    (hKnown : m.computed.peek t' = some r) :
    m.Answers t (r.negateIf negate, m.lookedUp t') := by
  have hSound' := hSound.lookedUp t'
  have hExtends := m.extends_lookedUp t'
  have hSolves : (m.lookedUp t').Solves t' r :=
    (hSound.solves t' r hKnown).extends hSound.reduced
      hSound'.reduced hExtends hStands.all_isLive
  refine
    ⟨hSound', hExtends, ?_, .known hStandard hKnown⟩
  exact
    hSolves.of_standsFor hSound.reduced hSound'.reduced
      hExtends hLive hStands

/-
  The answers to the halves of a triple, chosen between by the
  variable it is split by, are an answer to the triple.
-/
theorem solves_mkNode
    (hReduced : m.Reduced)
    {m₁ m₂ : Manager}
    {low high : Handle}
    (hLive : t.All m.IsLive)
    (hTest : t.test.isTerminal = false)
    (hReduced₁ : m₁.Reduced)
    (hReduced₂ : m₂.Reduced)
    (hExtends₁ : m.Extends m₁)
    (hExtends₂ : m₁.Extends m₂)
    (hLow : m₁.Solves (t.low m) low)
    (hHigh : m₂.Solves (t.high m) high) :
    let made := m₂.mkNode (m.splitVar t) low high
    m₂.Chooses (m.splitVar t) low high made ∧
      made.2.Solves t made.1 := by
  intro made
  have hHalves := hReduced.halves hLive hTest
  rcases hHalves with ⟨hHalfLow, hHalfHigh⟩
  have hExtends := hExtends₁.trans hExtends₂
  have hLow₂ : m₂.Solves (t.low m) low :=
    hLow.extends hReduced₁ hReduced₂ hExtends₂
      (hExtends₁.all_isLive hHalfLow.all_isLive)
  have hAboveLow : m₂.IsAbove (m.splitVar t) low :=
    hLow₂.isAbove _
      ((hExtends.all_isAbove_iff
        hHalfLow.all_isLive _).mpr hHalfLow.all_isAbove)
  have hAboveHigh : m₂.IsAbove (m.splitVar t) high :=
    hHigh.isAbove _
      ((hExtends.all_isAbove_iff
        hHalfHigh.all_isLive _).mpr hHalfHigh.all_isAbove)
  have hMade : m₂.Chooses (m.splitVar t) low high made :=
    hReduced₂.mkNode (hReduced.splitVar_pos hLive hTest)
      hLow₂.isLive hHigh.isLive hAboveLow hAboveHigh
  have hExtendsMade := hExtends.trans hMade.keeps
  refine ⟨hMade, hMade.isLive, ?_, ?_⟩
  · intro w hAll
    apply hMade.isAbove
    apply lt_splitVar hTest
    exact (hExtendsMade.all_isAbove_iff hLive w).mp hAll
  · intro a
    rw [hMade.eval_eq,
      hExtendsMade.triple_eval_eq hReduced hMade.reduced
        hLive]
    by_cases ha : a (m.splitVar t) = true
    · rw [if_pos ha, hHigh.eval_eq,
        hExtends.triple_eval_eq hReduced hReduced₂
          hHalfHigh.all_isLive,
        hHalfHigh.eval_eq a ha]
    · rw [if_neg ha, hLow₂.eval_eq,
        hExtends.triple_eval_eq hReduced hReduced₂
          hHalfLow.all_isLive,
        hHalfLow.eval_eq a (by simpa using ha)]

/- A triple whose halves have answers has its answer. -/
theorem split
    (hSound : m.Sound)
    {m₁ m₂ : Manager}
    {low high : Handle}
    {negate : Bool}
    (hStandard : standardize t = .inr (t', negate))
    (hStands : m.StandsFor t' t negate)
    (hTest : t'.test.isTerminal = false)
    (hLive : t.All m.IsLive)
    (hUnknown : m.computed.peek t' = none)
    (hLow :
      (m.lookedUp t').Answers (t'.low m) (low, m₁))
    (hHigh : m₁.Answers (t'.high m) (high, m₂)) :
    m.Answers t
      ((m₂.mkNode (m.splitVar t') low high).1.negateIf
          negate,
        m₂.recorded t' (m.splitVar t') low high) := by
  have hExtends₁ : m.Extends m₁ :=
    (m.extends_lookedUp t').trans hLow.keeps
  have hExtends₂ : m.Extends m₂ :=
    hExtends₁.trans hHigh.keeps
  rcases solves_mkNode hSound.reduced hStands.all_isLive
      hTest hLow.sound.reduced hHigh.sound.reduced
      hExtends₁ hHigh.keeps hLow.solves hHigh.solves with
    ⟨hMade, hSolves⟩
  have hExtends := hExtends₂.trans hMade.keeps
  -- The made manager is sound before the result is recorded.
  have hMadeSound :
      (m₂.mkNode (m.splitVar t') low high).2.Sound := by
    apply hHigh.sound.extends hMade.reduced hMade.keeps
    intro t'' r hPeek
    rw [hMade.computed_eq] at hPeek
    exact Or.inl hPeek
  have hSolvesNegated :=
    hSolves.of_standsFor hSound.reduced hMade.reduced
      hExtends hLive hStands
  have hRecorded :
      (m₂.recorded t' (m.splitVar t') low high).Sound := by
    apply hMadeSound.withComputed
    intro t'' r hPeek
    rcases Cache.peek_insert _ _ _ _ _ hPeek with
      ⟨rfl, rfl⟩ | hOld
    · exact Or.inr
        ⟨hExtends.all_isLive hStands.all_isLive, hSolves⟩
    · exact Or.inl hOld
  have hRecordedExtends :
      (m₂.mkNode (m.splitVar t') low high).2.Extends
        (m₂.recorded t' (m.splitVar t') low high) :=
    extends_withComputed _ _
  refine
    ⟨hRecorded, hExtends.trans hRecordedExtends, ?_,
      .split hStandard hUnknown hLow.computes
        hHigh.computes⟩
  exact
    hSolvesNegated.extends hMadeSound.reduced
      hRecorded.reduced hRecordedExtends
      (hExtends.all_isLive hLive)

end Answers

section Steps

variable {negate : Bool}

theorem iteWithin_standard
    (depth : Nat)
    (m : Manager)
    (hStandard : standardize t = .inl r) :
    iteWithin (depth + 1) t m = (r, m) := by
  simp [iteWithin, hStandard]

theorem iteWithin_known
    (depth : Nat)
    (hStandard : standardize t = .inr (t', negate))
    (hKnown : m.computed.peek t' = some r) :
    iteWithin (depth + 1) t m =
      (r.negateIf negate, m.lookedUp t') := by
  simp only [iteWithin, hStandard, Cache.fst_find, hKnown]
  rfl

theorem iteWithin_split
    (depth : Nat)
    (hStandard : standardize t = .inr (t', negate))
    (hUnknown : m.computed.peek t' = none) :
    iteWithin (depth + 1) t m =
      let low := iteWithin depth (t'.low m) (m.lookedUp t')
      let high := iteWithin depth (t'.high m) low.2
      let v := m.splitVar t'
      ((high.2.mkNode v low.1 high.1).1.negateIf negate,
        high.2.recorded t' v low.1 high.1) := by
  simp only [iteWithin, hStandard, Cache.fst_find, hUnknown]
  rfl

end Steps

/-
  The recursion answers within its depth. What it may still meet
  is counted in the manager it began with, because the nodes it
  makes on the way are no part of its arguments.
-/
theorem Sound.iteWithin
    {m₀ : Manager}
    (hReduced₀ : m₀.Reduced)
    (depth : Nat)
    (hSound : m.Sound)
    (hExtends : m₀.Extends m)
    (hLive : t.All m₀.IsLive)
    (hDepth : t.rank m₀ < depth) :
    m.Answers t (Manager.iteWithin depth t m) := by
  induction depth generalizing t m with
  | zero => omega
  | succ depth ih =>
      have hLive' := hExtends.all_isLive hLive
      cases hStandard : standardize t with
      | inl r =>
          rw [iteWithin_standard depth m hStandard]
          exact
            .standard hSound hStandard
              (hSound.reduced.solves_of_standardize hLive'
                hStandard)
      | inr standardized =>
          rcases standardized with ⟨t', negate⟩
          rcases hReduced₀.standsFor_of_standardize hLive
              hStandard with
            ⟨hStands₀, hTest⟩
          have hStands :=
            (hSound.reduced.standsFor_of_standardize hLive'
              hStandard).1
          cases hPeek : m.computed.peek t' with
          | some r =>
              rw [iteWithin_known depth hStandard hPeek]
              exact
                .known hSound hStandard hStands hLive' hPeek
          | none =>
              rcases hReduced₀.halves hStands₀.all_isLive
                  hTest with
                ⟨hHalfLow, hHalfHigh⟩
              rw [← hExtends.low_triple_eq
                hStands₀.all_isLive] at hHalfLow
              rw [← hExtends.high_triple_eq
                hStands₀.all_isLive] at hHalfHigh
              have hRank := hStands₀.rank_le
              have hLowRank := hHalfLow.rank_lt
              have hHighRank := hHalfHigh.rank_lt
              have hLow :=
                ih (hSound.lookedUp t')
                  (hExtends.trans (m.extends_lookedUp t'))
                  hHalfLow.all_isLive (by omega)
              have hHigh :=
                ih hLow.sound
                  ((hExtends.trans
                    (m.extends_lookedUp t')).trans
                      hLow.keeps)
                  hHalfHigh.all_isLive (by omega)
              rw [iteWithin_split depth hStandard hPeek]
              exact
                .split hSound hStandard hStands hTest hLive'
                  hPeek hLow hHigh

/- If-then-else of live handles answers. -/
theorem Sound.ite
    (hSound : m.Sound)
    {f g h : Handle}
    (hf : m.IsLive f)
    (hg : m.IsLive g)
    (hh : m.IsLive h) :
    m.Answers ⟨f, g, h⟩ (m.ite f g h) := by
  apply
    hSound.iteWithin hSound.reduced _ (Extends.refl m)
      ⟨hf, hg, hh⟩
  have hfRank := hSound.reduced.rank_le_liveCount f
  have hgRank := hSound.reduced.rank_le_liveCount g
  have hhRank := hSound.reduced.rank_le_liveCount h
  simp only [Triple.rank, depthBound]
  omega

end Manager

end Diagram

end Variability
