import Variability.Proofs.Diagram.Recomputing

/-
  If-then-else in managers that hold the same nodes.

  Two managers agree if the same cells are live in them and hold
  the same nodes, wherever their chains and their computed
  results lie. A new node takes the least free cell of both, and
  a result that one of them recalls is one that the other
  computes without a new node. So if-then-else with computed
  results and the plain recursion have the same outcome.

  Main declarations:
    * `Manager.Agrees`
    * `Manager.Coherent`
    * `Manager.Mirrors`
    * `Manager.Pairs.mirrors_ite`
-/

namespace Variability

namespace Diagram

namespace Manager

variable {m m' : Manager}
variable {t t' : Triple}
variable {r low high : Handle}
variable {v : Nat}

------------------------------------------------------------
-- Agreeing Managers
------------------------------------------------------------

/- The same cells are live and hold the same nodes. -/
structure Agrees (m m' : Manager) : Prop where
  forth : m.Extends m'
  back : m'.Extends m

namespace Agrees

theorem trans
    {m'' : Manager}
    (hFirst : m.Agrees m')
    (hSecond : m'.Agrees m'') :
    m.Agrees m'' :=
  ⟨hFirst.forth.trans hSecond.forth,
    hSecond.back.trans hFirst.back⟩

theorem isLive_iff
    (hAgrees : m.Agrees m') :
    m'.IsLive r ↔ m.IsLive r :=
  ⟨hAgrees.back.isLive, hAgrees.forth.isLive⟩

/- Cells that are alike make managers agree. -/
theorem of_cells
    (hOccupied :
      ∀ i, m'.nodes.isOccupied i = m.nodes.isOccupied i)
    (hValue :
      ∀ i, i ≠ 0 → m.nodes.isOccupied i = true →
        m'.nodes.value i = m.nodes.value i) :
    m.Agrees m' where
  forth := fun _ hLive =>
    ⟨⟨hLive.1, (hOccupied _).trans hLive.2⟩,
      hValue _ hLive.1 hLive.2⟩
  back := fun _ hLive => by
    have hTaken := (hOccupied _).symm.trans hLive.2
    exact
      ⟨⟨hLive.1, hTaken⟩, (hValue _ hLive.1 hTaken).symm⟩

variable (hAgrees : m.Agrees m')
variable (hIntact : m.Intact)
variable (hIntact' : m'.Intact)
include hAgrees

theorem value_eq
    {i : Nat}
    (hZero : i ≠ 0)
    (hTaken : m.nodes.isOccupied i = true) :
    m'.nodes.value i = m.nodes.value i :=
  (hAgrees.forth (Handle.ofIndex i) ⟨hZero, hTaken⟩).2

include hIntact hIntact'

/- The sentinel is occupied in both, other cells are handles. -/
theorem isOccupied_eq (i : Nat) :
    m'.nodes.isOccupied i = m.nodes.isOccupied i := by
  by_cases hZero : i = 0
  · have hFirst := hIntact.chained.accounted
    have hSecond := hIntact'.chained.accounted
    rw [hZero, hFirst.below_minFree 0 hFirst.minFree_pos,
      hSecond.below_minFree 0 hSecond.minFree_pos]
  · have hLive :=
      hAgrees.isLive_iff (r := Handle.ofIndex i)
    simp only [IsLive, Handle.index_ofIndex, ne_eq, hZero,
      not_false_iff, true_and] at hLive
    exact Bool.eq_iff_iff.mpr hLive

theorem liveCount_eq : m'.liveCount = m.liveCount := by
  have hCells :
      m'.nodes.occupiedCells = m.nodes.occupiedCells := by
    ext i
    simp [hAgrees.isOccupied_eq hIntact hIntact']
  rw [liveCount, liveCount,
    hIntact.chained.accounted.count_eq,
    hIntact'.chained.accounted.count_eq, hCells]

/- The least free cell is the same, whatever the chains are. -/
theorem firstFree_eq :
    m'.nodes.firstFree m'.nodes.minFree =
      m.nodes.firstFree m.nodes.minFree := by
  have hOccupied :=
    hAgrees.isOccupied_eq hIntact hIntact'
  have hFirst := hIntact.chained.accounted
  have hSecond := hIntact'.chained.accounted
  apply le_antisymm
  · by_contra hLess
    have hTaken :=
      hSecond.isOccupied_of_lt_firstFree (not_le.mp hLess)
    rw [hOccupied, hFirst.free_firstFree.2] at hTaken
    cases hTaken
  · by_contra hLess
    have hTaken :=
      hFirst.isOccupied_of_lt_firstFree (not_le.mp hLess)
    rw [← hOccupied, hSecond.free_firstFree.2] at hTaken
    cases hTaken

/- Making a node finds it in both managers or in neither. -/
theorem mkNode
    (v : Nat)
    (low high : Handle) :
    (m'.mkNode v low high).1 = (m.mkNode v low high).1 ∧
      (m.mkNode v low high).2.Agrees
        (m'.mkNode v low high).2 := by
  by_cases hHeld : ∃ r, m.Holds v low high r
  · rcases hHeld with ⟨r, hHolds⟩
    rw [hHolds.mkNode_eq hIntact,
      (hHolds.extends hAgrees.forth).mkNode_eq hIntact']
    exact ⟨rfl, hAgrees⟩
  rcases (hIntact.mkNode_cases v low high).resolve_left
      hHeld with
    ⟨hNe, hStored⟩
  have hUnheld : ¬ ∃ r, m'.Holds v low high r := by
    rintro ⟨r, hHolds⟩
    exact hHeld ⟨r, hHolds.extends hAgrees.back⟩
  have hStored' :=
    ((hIntact'.mkNode_cases v low high).resolve_left
      hUnheld).2
  have hCell :
      (m'.nodes.put (Node.regular v low high)).1 =
        (m.nodes.put (Node.regular v low high)).1 := by
    rw [hStored.fst_eq, hStored'.fst_eq,
      hAgrees.firstFree_eq hIntact hIntact']
  rw [m.mkNode_of_ne v hNe, m'.mkNode_of_ne v hNe]
  refine ⟨by rw [hCell], of_cells ?_ ?_⟩
  · intro i
    change
      (m'.nodes.put _).2.isOccupied i =
        (m.nodes.put _).2.isOccupied i
    rw [hStored.isOccupied_eq, hStored'.isOccupied_eq, hCell,
      hAgrees.isOccupied_eq hIntact hIntact']
  · intro i hZero hTaken
    change (m.nodes.put _).2.isOccupied i = true at hTaken
    change
      (m'.nodes.put _).2.value i = (m.nodes.put _).2.value i
    rw [hStored.isOccupied_eq] at hTaken
    rw [hStored.value_eq, hStored'.value_eq, hCell]
    by_cases hNew :
        i = (m.nodes.put (Node.regular v low high)).1
    · rw [if_pos hNew, if_pos hNew]
    · rw [if_neg hNew, if_neg hNew]
      exact hAgrees.value_eq hZero (by simpa [hNew] using hTaken)

end Agrees

------------------------------------------------------------
-- Recalled Results
------------------------------------------------------------

/- A result that computing the triple again would find. -/
structure Recalls
    (m : Manager)
    (t : Triple)
    (r : Handle) : Prop where
  all_isLive : t.All m.IsLive
  found :
    ∃ low high,
      m.Settles (t.low m) low ∧ m.Settles (t.high m) high ∧
        m.Holds (m.splitVar t) low high r

theorem Recalls.settles
    {negate : Bool}
    (hRecalls : m.Recalls t' r)
    (hStandard : standardize t = .inr (t', negate)) :
    m.Settles t (r.negateIf negate) := by
  rcases hRecalls.found with ⟨low, high, hLow, hHigh, hHolds⟩
  exact .split hStandard hLow hHigh hHolds

/- Outcomes of the halves of a triple, from before or after. -/
theorem Recalls.of_halves
    (hExtends : m.Extends m')
    (hLive : t.All m.IsLive)
    (hLow : m'.Settles (t.low m) low)
    (hHigh : m'.Settles (t.high m) high)
    (hHolds : m'.Holds (m.splitVar t) low high r) :
    m'.Recalls t r where
  all_isLive := hExtends.all_isLive hLive
  found := by
    rw [hExtends.low_triple_eq hLive,
      hExtends.high_triple_eq hLive,
      hExtends.splitVar_eq hLive]
    exact ⟨low, high, hLow, hHigh, hHolds⟩

theorem Recalls.extends
    (hRecalls : m.Recalls t r)
    (hIntact : m.Intact)
    (hExtends : m.Extends m') :
    m'.Recalls t r := by
  have hLive := hRecalls.all_isLive
  have hHalves := hIntact.all_isLive_halves hLive
  rcases hRecalls.found with
    ⟨low, high, hLow, hHigh, hHolds⟩
  exact
    .of_halves hExtends hLive
      (hLow.extends hIntact hExtends hHalves.1)
      (hHigh.extends hIntact hExtends hHalves.2)
      (hHolds.extends hExtends)

/-
  An intact manager whose paths end and whose computed results
  are those that it would compute again.
-/
structure Coherent (m : Manager) : Prop where
  intact : m.Intact
  acyclic : m.IsAcyclic
  recalls :
    ∀ t r, m.computed.peek t = some r → m.Recalls t r

theorem Intact.withComputed
    (hIntact : m.Intact)
    (computed : Cache Triple Handle) :
    ({ m with computed } : Manager).Intact :=
  ⟨hIntact.chained, hIntact.terminal_occupied,
    hIntact.terminal_apart, hIntact.isChained_of_isNode,
    hIntact.edges_live⟩

namespace Coherent

variable (hCoherent : m.Coherent)
include hCoherent

/- Only results that would be computed again may be recorded. -/
theorem withComputed
    {computed : Cache Triple Handle}
    (hComputed :
      ∀ t r, computed.peek t = some r →
        m.computed.peek t = some r ∨ m.Recalls t r) :
    ({ m with computed } : Manager).Coherent where
  intact := hCoherent.intact.withComputed computed
  acyclic := hCoherent.acyclic
  recalls := by
    intro t r hPeek
    have hRecalls : m.Recalls t r :=
      (hComputed t r hPeek).elim (hCoherent.recalls t r) id
    exact
      hRecalls.extends hCoherent.intact
        (m.extends_withComputed computed)

theorem lookedUp (t : Triple) : (m.lookedUp t).Coherent :=
  hCoherent.withComputed fun t' r hPeek =>
    Or.inl (by simpa using hPeek)

theorem mkNode
    (hLow : m.IsLive low)
    (hHigh : m.IsLive high) :
    (m.mkNode v low high).2.Coherent := by
  have hMade := hCoherent.intact.mkNode (v := v) hLow hHigh
  refine
    ⟨hMade.intact,
      hCoherent.acyclic.mkNode hCoherent.intact hLow hHigh,
      ?_⟩
  intro t r hPeek
  rw [hMade.computed_eq] at hPeek
  exact
    (hCoherent.recalls t r hPeek).extends hCoherent.intact
      hMade.keeps

/- The node of a triple may be recorded if it is recalled. -/
theorem recorded
    (hLow : m.IsLive low)
    (hHigh : m.IsLive high)
    (hRecalls :
      (m.mkNode v low high).2.Recalls t
        (m.mkNode v low high).1) :
    (m.recorded t v low high).Coherent := by
  apply (hCoherent.mkNode hLow hHigh).withComputed
  intro t' r hPeek
  rcases Cache.peek_insert _ _ _ _ _ hPeek with
    ⟨rfl, rfl⟩ | hOld
  · exact Or.inr hRecalls
  · exact Or.inl hOld

end Coherent

------------------------------------------------------------
-- Steps in Both Managers
------------------------------------------------------------

/-
  An outcome of a coherent manager that another manager has too:
  the handles are equal, and the managers agree again.
-/
structure Mirrors
    (m : Manager)
    (out out' : Handle × Manager) : Prop where
  handle_eq : out'.1 = out.1
  coherent : out.2.Coherent
  intact : out'.2.Intact
  agrees : out.2.Agrees out'.2
  keeps : m.Extends out.2
  isLive : out.2.IsLive out.1

/- Managers that are to run side by side. -/
structure Pairs (m m' : Manager) : Prop where
  coherent : m.Coherent
  intact : m'.Intact
  agrees : m.Agrees m'

theorem Pairs.lookedUp
    (hPairs : m.Pairs m')
    (t : Triple) :
    (m.lookedUp t).Pairs m' :=
  ⟨hPairs.coherent.lookedUp t, hPairs.intact,
    ⟨hPairs.agrees.forth, hPairs.agrees.back⟩⟩

theorem Mirrors.pairs
    {out out' : Handle × Manager}
    (hMirrors : m.Mirrors out out') :
    out.2.Pairs out'.2 :=
  ⟨hMirrors.coherent, hMirrors.intact, hMirrors.agrees⟩

theorem Mirrors.trans
    {out out' next next' : Handle × Manager}
    (hFirst : m.Mirrors out out')
    (hSecond : out.2.Mirrors next next') :
    m.Mirrors next next' :=
  { hSecond with
    keeps := hFirst.keeps.trans hSecond.keeps }

/- A live handle that is there already. -/
theorem Pairs.mirrors
    (hPairs : m.Pairs m')
    (hLive : m.IsLive r) :
    m.Mirrors (r, m) (r, m') :=
  ⟨rfl, hPairs.coherent, hPairs.intact, hPairs.agrees,
    .refl m, hLive⟩

theorem Pairs.mirrors_mkNode
    (hPairs : m.Pairs m')
    (hLow : m.IsLive low)
    (hHigh : m.IsLive high) :
    m.Mirrors (m.mkNode v low high)
      (m'.mkNode v low high) := by
  have hIntact := hPairs.coherent.intact
  have hMade := hIntact.mkNode (v := v) hLow hHigh
  have hMade' :=
    hPairs.intact.mkNode (v := v)
      (hPairs.agrees.forth.isLive hLow)
      (hPairs.agrees.forth.isLive hHigh)
  have hBoth :=
    hPairs.agrees.mkNode hIntact hPairs.intact v low high
  exact
    ⟨hBoth.1, hPairs.coherent.mkNode hLow hHigh,
      hMade'.intact, hBoth.2, hMade.keeps,
      hMade.holds.isLive (hMade.keeps.isLive hLow)⟩

/-
  Such an outcome of an if-then-else: both recursions end with
  it, and its triple is settled then.
-/
structure MirrorsIte
    (m m' : Manager)
    (t : Triple)
    (out out' : Handle × Manager) : Prop where
  mirrors : m.Mirrors out out'
  settles : out.2.Settles t out.1
  computes : Computes t m out.1 out.2
  recomputes : Recomputes t m' out'.1 out'.2

namespace MirrorsIte

variable {negate : Bool}

theorem standard
    (hPairs : m.Pairs m')
    (hLive : t.All m.IsLive)
    (hStandard : standardize t = .inl r) :
    m.MirrorsIte m' t (r, m) (r, m') where
  mirrors :=
    hPairs.mirrors
      (hPairs.coherent.intact.isLive_of_standardize hLive
        hStandard)
  settles := .standard hStandard
  computes := .standard hStandard
  recomputes := .standard hStandard

/- A result that is recalled is one that the other manager finds. -/
theorem known
    (hPairs : m.Pairs m')
    (hLive : t.All m.IsLive)
    (hStandard : standardize t = .inr (t', negate))
    (hKnown : m.computed.peek t' = some r) :
    m.MirrorsIte m' t (r.negateIf negate, m.lookedUp t')
      (r.negateIf negate, m') := by
  have hCoherent := hPairs.coherent.lookedUp t'
  have hExtends := m.extends_lookedUp t'
  have hSettles :=
    (hPairs.coherent.recalls t' r hKnown).settles hStandard
  have hSettles' :=
    hSettles.extends hPairs.coherent.intact hExtends hLive
  have hAgrees : (m.lookedUp t').Agrees m' :=
    ⟨hPairs.agrees.forth, hPairs.agrees.back⟩
  have hRecomputes :=
    (hSettles.extends hPairs.coherent.intact
      hPairs.agrees.forth hLive).recomputes hPairs.intact
  exact
    ⟨⟨rfl, hCoherent, hPairs.intact, hAgrees, hExtends,
        hSettles'.isLive hCoherent.intact
          (hExtends.all_isLive hLive)⟩,
      hSettles', .known hStandard hKnown, hRecomputes⟩

/- The outcomes of both halves make the outcome of a triple. -/
theorem split
    {outLow outHigh outLow' outHigh' : Handle × Manager}
    (hPairs : m.Pairs m')
    (hStandard : standardize t = .inr (t', negate))
    (hLive : t'.All m.IsLive)
    (hUnknown : m.computed.peek t' = none)
    (hLow :
      (m.lookedUp t').MirrorsIte m' (t'.low m) outLow outLow')
    (hHigh :
      outLow.2.MirrorsIte outLow'.2 (t'.high m) outHigh
        outHigh') :
    m.MirrorsIte m' t
      ((outHigh.2.mkNode (m.splitVar t') outLow.1
            outHigh.1).1.negateIf negate,
        outHigh.2.recorded t' (m.splitVar t') outLow.1
          outHigh.1)
      ((outHigh'.2.mkNode (m.splitVar t') outLow'.1
            outHigh'.1).1.negateIf negate,
        (outHigh'.2.mkNode (m.splitVar t') outLow'.1
          outHigh'.1).2) := by
  have hIntact := hPairs.coherent.intact
  have hRecomputes :=
    Recomputes.split hStandard
      (by
        rw [hPairs.agrees.forth.low_triple_eq hLive]
        exact hLow.recomputes)
      (by
        rw [hPairs.agrees.forth.high_triple_eq hLive]
        exact hHigh.recomputes)
  rw [hPairs.agrees.forth.splitVar_eq hLive] at hRecomputes
  have hExtendsLow : m.Extends outLow.2 :=
    (m.extends_lookedUp t').trans hLow.mirrors.keeps
  have hExtends : m.Extends outHigh.2 :=
    hExtendsLow.trans hHigh.mirrors.keeps
  have hLowLive :=
    hHigh.mirrors.keeps.isLive hLow.mirrors.isLive
  have hMade :=
    hHigh.mirrors.pairs.mirrors_mkNode (v := m.splitVar t')
      hLowLive hHigh.mirrors.isLive
  have hHolds :=
    (hHigh.mirrors.coherent.intact.mkNode
      (v := m.splitVar t') hLowLive
      hHigh.mirrors.isLive).holds
  rw [hLow.mirrors.handle_eq,
    hHigh.mirrors.handle_eq] at hRecomputes ⊢
  have hKeeps := hExtends.trans hMade.keeps
  have hHalves := hIntact.all_isLive_halves hLive
  have hSettlesLow :=
    hLow.settles.extends hLow.mirrors.coherent.intact
      (hHigh.mirrors.keeps.trans hMade.keeps)
      (hExtendsLow.all_isLive hHalves.1)
  have hSettlesHigh :=
    hHigh.settles.extends hHigh.mirrors.coherent.intact
      hMade.keeps (hExtends.all_isLive hHalves.2)
  have hRecalls :
      (outHigh.2.mkNode (m.splitVar t') outLow.1
        outHigh.1).2.Recalls t'
        (outHigh.2.mkNode (m.splitVar t') outLow.1
          outHigh.1).1 :=
    .of_halves hKeeps hLive hSettlesLow hSettlesHigh hHolds
  have hRecordedExtends :
      (outHigh.2.mkNode (m.splitVar t') outLow.1
        outHigh.1).2.Extends
        (outHigh.2.recorded t' (m.splitVar t') outLow.1
          outHigh.1) :=
    extends_withComputed _ _
  have hRecorded :=
    hHigh.mirrors.coherent.recorded hLowLive
      hHigh.mirrors.isLive hRecalls
  have hSettles :=
    (hRecalls.extends hMade.coherent.intact
      hRecordedExtends).settles hStandard
  refine
    ⟨⟨congrArg (Handle.negateIf negate) hMade.handle_eq,
        hRecorded, hMade.intact,
        ⟨hMade.agrees.forth, hMade.agrees.back⟩,
        hKeeps.trans hRecordedExtends, ?_⟩,
      hSettles,
      .split hStandard hUnknown hLow.computes
        hHigh.computes,
      hRecomputes⟩
  rw [isLive_negateIf]
  exact hRecordedExtends.isLive hMade.isLive

end MirrorsIte

------------------------------------------------------------
-- If-Then-Else in Both Managers
------------------------------------------------------------

/-
  The recursion with computed results and the plain one have the
  same outcome. As in the plain recursion alone, what they may
  still meet is measured in the manager they began with.
-/
theorem Pairs.mirrors_iteWithin
    {m₀ : Manager}
    {measure : Handle → Nat}
    (hIntact₀ : m₀.Intact)
    (hMeasures : m₀.Measures measure)
    (depth : Nat)
    (hPairs : m.Pairs m')
    (hExtends : m₀.Extends m)
    (hLive : t.All m₀.IsLive)
    (hDepth : t.total measure < depth) :
    m.MirrorsIte m' t (iteWithin depth t m)
      (plainIteWithin depth t m') := by
  induction depth generalizing t m m' with
  | zero => omega
  | succ depth ih =>
      have hExtends' := hExtends.trans hPairs.agrees.forth
      cases hStandard : standardize t with
      | inl r =>
          rw [iteWithin_standard depth m hStandard,
            plainIteWithin_standard hStandard]
          exact
            .standard hPairs (hExtends.all_isLive hLive)
              hStandard
      | inr standardized =>
          rcases standardized with ⟨t', negate⟩
          have hLive' :=
            hIntact₀.all_isLive_of_standardize hLive hStandard
          cases hPeek : m.computed.peek t' with
          | some r =>
              have hSettles :=
                (hPairs.coherent.recalls t' r hPeek).settles
                  hStandard
              have hSettles' :=
                hSettles.extends hPairs.coherent.intact
                  hPairs.agrees.forth
                  (hExtends.all_isLive hLive)
              rw [iteWithin_known depth hStandard hPeek,
                hSettles'.plainIteWithin_eq hPairs.intact
                  hIntact₀ hMeasures hExtends' hLive hDepth]
              exact
                .known hPairs (hExtends.all_isLive hLive)
                  hStandard hPeek
          | none =>
              have hTotal :=
                hMeasures.total_of_standardize hStandard
              have hLess :=
                hMeasures.halves hLive'
                  (regular_of_standardize hStandard).2
              have hHalves :=
                hIntact₀.all_isLive_halves hLive'
              rw [← hExtends.low_triple_eq hLive',
                ← hExtends.high_triple_eq hLive']
                at hLess hHalves
              have hLookedUp :=
                hExtends.trans (m.extends_lookedUp t')
              have hLow :=
                ih (hPairs.lookedUp t') hLookedUp hHalves.1
                  (by omega)
              have hHigh :=
                ih hLow.mirrors.pairs
                  (hLookedUp.trans hLow.mirrors.keeps)
                  hHalves.2 (by omega)
              rw [iteWithin_split depth hStandard hPeek,
                plainIteWithin_split hStandard,
                hExtends'.low_triple_eq hLive',
                hExtends'.high_triple_eq hLive',
                hExtends'.splitVar_eq hLive',
                ← hExtends.low_triple_eq hLive',
                ← hExtends.high_triple_eq hLive',
                ← hExtends.splitVar_eq hLive']
              exact
                .split hPairs hStandard
                  (hExtends.all_isLive hLive') hPeek hLow
                  hHigh

/-
  If-then-else of live handles has the same outcome in both, and
  neither recursion is cut off by its depth.
-/
theorem Pairs.mirrors_ite
    {f g h : Handle}
    (hPairs : m.Pairs m')
    (hf : m.IsLive f)
    (hg : m.IsLive g)
    (hh : m.IsLive h) :
    m.MirrorsIte m' ⟨f, g, h⟩ (m.ite f g h)
      (m'.plainIte f g h) := by
  have hIntact := hPairs.coherent.intact
  rcases hPairs.coherent.acyclic.exists_measures hIntact with
    ⟨measure, hMeasures, hBound⟩
  have hCount :=
    hPairs.agrees.liveCount_eq hIntact hPairs.intact
  have hfBound := hBound f
  have hgBound := hBound g
  have hhBound := hBound h
  rw [ite, plainIte, depthBound, depthBound, hCount]
  exact
    hPairs.mirrors_iteWithin hIntact hMeasures _ (.refl m)
      ⟨hf, hg, hh⟩
      (by simp only [Triple.total]; omega)

end Manager

end Diagram

end Variability
