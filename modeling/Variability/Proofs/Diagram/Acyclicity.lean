import Variability.Proofs.Diagram.Reuse

/-
  Paths of diagrams that are not ordered.

  Where nodes may be made in any order of their variables,
  diagrams still have no cycles: a node is made of live children,
  so it is higher than all that is below it. Hence no path is
  longer than the number of live nodes, and a node that was made
  is at hand as long as nothing is freed.

  Main declarations:
    * `Manager.Holds`
    * `Manager.Intact.mkNode`
    * `Manager.IsAcyclic`
    * `Manager.IsAcyclic.exists_measures`
-/

namespace Variability

namespace Diagram

namespace Manager

variable {m m' : Manager}
variable {r low high : Handle}
variable {v : Nat}

------------------------------------------------------------
-- Nodes at Hand
------------------------------------------------------------

/- A handle that making a node gives and that needs no new cell. -/
inductive Holds
    (m : Manager)
    (v : Nat) :
    (low high r : Handle) → Prop where
  | same (low : Handle) : Holds m v low low low
  | node {low high : Handle} {i : Nat}
      (hNe : low ≠ high)
      (hNode : m.IsNode i)
      (hValue : m.nodes.value i = Node.regular v low high) :
      Holds m v low high
        ((Handle.ofIndex i).negateIf high.negated)

theorem Holds.mkNode_eq
    (hHolds : m.Holds v low high r)
    (hIntact : m.Intact) :
    m.mkNode v low high = (r, m) := by
  cases hHolds with
  | same => simp [mkNode]
  | node hNe hNode hValue =>
      rw [m.mkNode_of_ne v hNe, ← hValue,
        hIntact.put_value hNode]

theorem Holds.isLive
    (hHolds : m.Holds v low high r)
    (hLow : m.IsLive low) :
    m.IsLive r := by
  cases hHolds with
  | same => exact hLow
  | node _ hNode _ =>
      rw [isLive_negateIf]
      exact ⟨Nat.ne_of_gt (Nat.zero_lt_of_lt hNode.1), hNode.2⟩

theorem Holds.extends
    (hHolds : m.Holds v low high r)
    (hExtends : m.Extends m') :
    m'.Holds v low high r := by
  cases hHolds with
  | same => exact .same _
  | node hNe hNode hValue =>
      have hLive : m.IsLive (Handle.ofIndex _) :=
        ⟨Nat.ne_of_gt (Nat.zero_lt_of_lt hNode.1), hNode.2⟩
      rcases hExtends _ hLive with ⟨hLive', hSame⟩
      exact
        .node hNe ⟨hNode.1, hLive'.2⟩ (hSame.trans hValue)

/-
  A node that is not at hand is stored in the least free cell,
  in front of nothing and with live children.
-/
theorem Intact.mkNode_cases
    (hIntact : m.Intact)
    (v : Nat)
    (low high : Handle) :
    (∃ r, m.Holds v low high r) ∨
      low ≠ high ∧
        m.nodes.Stored
          (m.nodes.put (Node.regular v low high)).2
          (Node.regular v low high)
          (m.nodes.put (Node.regular v low high)).1 := by
  by_cases hSame : low = high
  · exact Or.inl ⟨low, hSame ▸ .same low⟩
  rcases hIntact.chained.put_cases
      (Node.regular v low high) with
    ⟨i, hi, hValue, _⟩ | ⟨_, hStored⟩
  · left
    have hb := hIntact.chained.bucketFor_lt (m.nodes.value i)
    rcases hIntact.chained.mem_chain hb hi with
      ⟨hZero, hTaken⟩
    have hOne : i ≠ 1 := by
      rintro rfl
      exact hIntact.terminal_apart hi
    exact ⟨_, .node hSame ⟨by omega, hTaken⟩ hValue⟩
  · exact Or.inr ⟨hSame, hStored⟩

/- What making a node leaves: it is at hand from then on. -/
structure Provides
    (m : Manager)
    (v : Nat)
    (low high : Handle)
    (made : Handle × Manager) : Prop where
  intact : made.2.Intact
  keeps : m.Extends made.2
  holds : made.2.Holds v low high made.1
  computed_eq : made.2.computed = m.computed

theorem Intact.mkNode
    (hIntact : m.Intact)
    (hLow : m.IsLive low)
    (hHigh : m.IsLive high) :
    m.Provides v low high (m.mkNode v low high) := by
  rcases hIntact.mkNode_cases v low high with
    ⟨r, hHolds⟩ | ⟨hNe, hStored⟩
  · rw [hHolds.mkNode_eq hIntact]
    exact ⟨hIntact, .refl m, hHolds, rfl⟩
  · rcases hIntact.stored (by simpa [Node.regular] using hLow)
        (by simpa [Node.regular] using hHigh) hStored with
      ⟨hIntact', hExtends⟩
    rw [m.mkNode_of_ne v hNe]
    refine ⟨hIntact', hExtends, .node hNe ?_ ?_, rfl⟩
    · have hZero := hStored.ne_zero
      have hOne :
          (m.nodes.put (Node.regular v low high)).1 ≠ 1 := by
        intro hEq
        have hFree := hStored.free
        rw [hEq, hIntact.terminal_occupied] at hFree
        cases hFree
      refine ⟨by omega, ?_⟩
      change (m.nodes.put _).2.isOccupied _ = true
      simp [hStored.isOccupied_eq]
    · change (m.nodes.put _).2.value _ = _
      simp [hStored.value_eq]

------------------------------------------------------------
-- Paths That End
------------------------------------------------------------

/- Heights of cells that get less along every edge of a node. -/
def Descends (m : Manager) (height : Nat → Nat) : Prop :=
  ∀ i, m.IsNode i →
    height (m.nodes.value i).low.index < height i ∧
      height (m.nodes.value i).high.index < height i

/- No path comes back to where it began. -/
def IsAcyclic (m : Manager) : Prop :=
  ∃ height, m.Descends height

/- Fewer nodes, each as it was, have no longer paths. -/
theorem IsAcyclic.of_extends
    (hAcyclic : m.IsAcyclic)
    (hExtends : m'.Extends m) :
    m'.IsAcyclic := by
  rcases hAcyclic with ⟨height, hDescends⟩
  refine ⟨height, ?_⟩
  intro i hNode
  have hLive : m'.IsLive (Handle.ofIndex i) :=
    ⟨Nat.ne_of_gt (Nat.zero_lt_of_lt hNode.1), hNode.2⟩
  rcases hExtends _ hLive with ⟨hLive', hSame⟩
  have hValue : m.nodes.value i = m'.nodes.value i := hSame
  rw [← hValue]
  exact hDescends i ⟨hNode.1, hLive'.2⟩

/- A new node is higher than its children, which are live before. -/
theorem IsAcyclic.mkNode
    (hAcyclic : m.IsAcyclic)
    (hIntact : m.Intact)
    (hLow : m.IsLive low)
    (hHigh : m.IsLive high) :
    (m.mkNode v low high).2.IsAcyclic := by
  rcases hIntact.mkNode_cases v low high with
    ⟨r, hHolds⟩ | ⟨hNe, hStored⟩
  · rw [hHolds.mkNode_eq hIntact]
    exact hAcyclic
  · rcases hAcyclic with ⟨height, hDescends⟩
    rw [m.mkNode_of_ne v hNe]
    generalize m.nodes.put (Node.regular v low high) = put
      at hStored ⊢
    rcases put with ⟨j, nodes⟩
    have hOld : ∀ r : Handle, m.IsLive r → r.index ≠ j := by
      rintro r hLive rfl
      have hTaken := hLive.2
      rw [hStored.free] at hTaken
      cases hTaken
    refine
      ⟨Function.update height j
        (1 + max (height low.index) (height high.index)), ?_⟩
    rintro i ⟨hLess, hTaken⟩
    change nodes.isOccupied i = true at hTaken
    change
      Function.update height j _ (nodes.value i).low.index <
          _ ∧
        Function.update height j _
          (nodes.value i).high.index < _
    rw [hStored.isOccupied_eq] at hTaken
    rw [hStored.value_eq]
    by_cases hNew : i = j
    · have hEdges :
          (Node.regular v low high).low.index = low.index ∧
            (Node.regular v low high).high.index =
              high.index := by
        simp [Node.regular]
      rw [if_pos hNew, hNew, hEdges.1, hEdges.2,
        Function.update_self,
        Function.update_of_ne (hOld low hLow),
        Function.update_of_ne (hOld high hHigh)]
      omega
    · have hNode : m.IsNode i :=
        ⟨hLess, by simpa [hNew] using hTaken⟩
      have hEdges := hIntact.edges_live i hNode
      rw [if_neg hNew, Function.update_of_ne hNew,
        Function.update_of_ne (hOld _ hEdges.1),
        Function.update_of_ne (hOld _ hEdges.2)]
      exact hDescends i hNode

/-
  A measure of handles: constants have none, and children have
  less than their node.
-/
structure Measures
    (m : Manager)
    (measure : Handle → Nat) : Prop where
  neg : ∀ r, measure (-r) = measure r
  one : measure .one = 0
  low_lt :
    ∀ r, m.IsLive r → r.isTerminal = false →
      measure (m.low r) < measure r
  high_lt :
    ∀ r, m.IsLive r → r.isTerminal = false →
      measure (m.high r) < measure r

/- How many live cells are not higher than a handle. -/
def span
    (m : Manager)
    (height : Nat → Nat)
    (r : Handle) : Nat :=
  if r.isTerminal then
    0
  else
    (m.nodes.occupiedCells.filter
      (fun i => height i ≤ height r.index)).card

/- A lower handle has a lesser span than a node. -/
theorem span_lt
    {height : Nat → Nat}
    {s : Handle}
    (hLive : m.IsLive r)
    (hTerminal : r.isTerminal = false)
    (hLower : height s.index < height r.index) :
    m.span height s < m.span height r := by
  have hMem :
      r.index ∈ m.nodes.occupiedCells.filter
        (fun i => height i ≤ height r.index) :=
    Finset.mem_filter.mpr
      ⟨(Table.mem_occupiedCells_iff _ _).mpr hLive,
        le_refl _⟩
  by_cases hConstant : s.isTerminal = true
  · simpa [span, hConstant, hTerminal] using
      Finset.card_pos.mpr ⟨_, hMem⟩
  · simp only [span, hTerminal, hConstant]
    apply Finset.card_lt_card
    rw [Finset.ssubset_iff_of_subset]
    · refine ⟨r.index, hMem, ?_⟩
      rw [Finset.mem_filter]
      rintro ⟨_, hHigher⟩
      omega
    · intro i hi
      rcases Finset.mem_filter.mp hi with ⟨hCell, hHeight⟩
      exact Finset.mem_filter.mpr ⟨hCell, by omega⟩

/- Where paths end, none is longer than the number of live nodes. -/
theorem IsAcyclic.exists_measures
    (hAcyclic : m.IsAcyclic)
    (hIntact : m.Intact) :
    ∃ measure, m.Measures measure ∧
      ∀ r, measure r ≤ m.liveCount := by
  rcases hAcyclic with ⟨height, hDescends⟩
  refine ⟨m.span height, ⟨?_, ?_, ?_, ?_⟩, ?_⟩
  · intro r
    simp [span]
  · simp [span]
  · intro r hLive hTerminal
    apply span_lt hLive hTerminal
    simpa [Manager.low, node] using
      (hDescends _ (hLive.isNode hTerminal)).1
  · intro r hLive hTerminal
    apply span_lt hLive hTerminal
    simpa [Manager.high, node] using
      (hDescends _ (hLive.isNode hTerminal)).2
  · intro r
    rw [liveCount, hIntact.chained.accounted.count_eq, span]
    split
    · exact Nat.zero_le _
    · exact Finset.card_filter_le _ _

end Manager

end Diagram

end Variability
