import Variability.Proofs.Diagram.Runs

/-
  What a collection leaves, and how its cells are used again.

  A collection keeps the terminal and what the roots reach, and
  forgets all results. In every manager that is constructed
  after it, the triple of a live node gives that node again, a
  triple that is new takes the least free cell, and no computed
  result names a cell that was freed.

  Main declarations:
    * `Manager.Constructs`
    * `Manager.SharesNodes`
    * `Manager.Reduced.sharesNodes`
    * `Manager.Reached.collectGarbage_exact`
-/

namespace Variability

namespace Diagram

------------------------------------------------------------
-- Cells of Put Values
------------------------------------------------------------

namespace Table

variable {α : Type}
variable [Inhabited α] [Spread α] [DecidableEq α]

/- A put that changes the table takes the least free cell. -/
theorem fst_put
    (t : Table α)
    (v : α) :
    (t.put v).2 = t ∨
      (t.put v).1 = t.firstFree t.minFree := by
  unfold put
  by_cases hEmpty : t.bucket (t.bucketFor v) = 0
  · right
    simp [hEmpty]
  · cases hWalk :
        t.walk v t.cells.size (t.bucket (t.bucketFor v)) with
    | «at» i =>
        left
        simp [hEmpty, hWalk]
    | after j =>
        right
        simp [hEmpty, hWalk]

/- A stored value is in the least free cell. -/
theorem Stored.fst_eq
    {t : Table α}
    {v : α}
    (hStored : t.Stored (t.put v).2 v (t.put v).1) :
    (t.put v).1 = t.firstFree t.minFree := by
  rcases t.fst_put v with hSame | hFirst
  · have hTaken := hStored.isOccupied_eq (t.put v).1
    rw [hSame, hStored.free] at hTaken
    simp at hTaken
  · exact hFirst

end Table

/- The node of a triple, its high edge not complemented. -/
def Node.regular (v : Nat) (low high : Handle) : Node where
  var := v
  low := low.negateIf high.negated
  high := high.negateIf high.negated

namespace Manager

variable {m m' : Manager}
variable {roots : List Handle}
variable {r low high : Handle}
variable {v : Nat}

------------------------------------------------------------
-- Making Nodes Again
------------------------------------------------------------

/- A handle that tests a variable and chooses between two others. -/
structure Splits
    (m : Manager)
    (r : Handle)
    (v : Nat)
    (low high : Handle) : Prop where
  isLive : m.IsLive r
  isTerminal : r.isTerminal = false
  topVar_eq : m.topVar r = v
  low_eq : m.low r = low
  high_eq : m.high r = high

/-
  A new node takes a cell: the least one that is free, which was
  freed or lies right behind all cells that were handed out.
  Nothing else changes.
-/
structure Takes
    (m : Manager)
    (v : Nat)
    (low high : Handle)
    (made : Handle × Manager) : Prop where
  splits : made.2.Splits made.1 v low high
  free : ¬ m.IsLive made.1
  least : ∀ i, i < made.1.index → m.nodes.isOccupied i = true
  reused_or_fresh : made.1.index ≤ m.nodes.last + 1
  keeps : m.Extends made.2
  isLive_iff :
    ∀ r, made.2.IsLive r ↔
      m.IsLive r ∨ r.index = made.1.index

/-
  A manager that stores a node once and finds it again. Equal
  children need no node.
-/
structure SharesNodes (m : Manager) : Prop where
  skipped : ∀ v low, m.mkNode v low low = (low, m)
  found :
    ∀ r v low high, m.Splits r v low high →
      m.mkNode v low high = (r, m)
  stored :
    ∀ v low high,
      (Construction.node v low high).Allowed m →
        low ≠ high → (∀ r, ¬ m.Splits r v low high) →
          m.Takes v low high (m.mkNode v low high)

/- Children that differ make the regular node of their triple. -/
theorem mkNode_of_ne
    (m : Manager)
    (v : Nat)
    (hNe : low ≠ high) :
    m.mkNode v low high =
      ((Handle.ofIndex
          (m.nodes.put (Node.regular v low high)).1).negateIf
          high.negated,
        { m with
          nodes :=
            (m.nodes.put (Node.regular v low high)).2 }) := by
  have hEdges :
      low.negateIf high.negated ≠
        high.negateIf high.negated := by
    intro hEq
    apply hNe
    simpa using congrArg (Handle.negateIf high.negated) hEq
  simp only [mkNode]
  rw [if_neg hEdges]
  rfl

/- A cell that holds the regular form of a triple splits like it. -/
theorem splits_of_value
    {i : Nat}
    (hZero : i ≠ 0)
    (hOne : i ≠ 1)
    (hTaken : m.nodes.isOccupied i = true)
    (hValue : m.nodes.value i = Node.regular v low high) :
    m.Splits ((Handle.ofIndex i).negateIf high.negated)
      v low high := by
  have hNegated :
      ((Handle.ofIndex i).negateIf high.negated).negated =
        high.negated := by
    rw [Handle.negated_negateIf _ (by simpa using hZero)]
    simp
  refine
    ⟨⟨by simpa using hZero, by simpa using hTaken⟩,
      by simpa [Handle.isTerminal] using hOne, ?_, ?_, ?_⟩
  · simp [topVar, node, hValue, Node.regular]
  · simp [Manager.low, node, hNegated, hValue, Node.regular]
  · simp [Manager.high, node, hNegated, hValue, Node.regular]

/- Putting the value of a node finds its cell. -/
theorem Intact.put_value
    (hIntact : m.Intact)
    {i : Nat}
    (hNode : m.IsNode i) :
    m.nodes.put (m.nodes.value i) = (i, m.nodes) := by
  have hChained := hIntact.chained
  rcases hChained.put_cases (m.nodes.value i) with
    ⟨j, hj, hValue, hPut⟩ | ⟨hNew, _⟩
  · have hEq : j = i :=
      hChained.distinct _ (hChained.bucketFor_lt _) j
        (by rwa [Table.IsChained, hValue] at hj) i
        (hIntact.isChained_of_isNode i hNode) hValue
    rw [hPut, hEq]
  · exact
      absurd rfl (hNew i (hIntact.isChained_of_isNode i hNode))

namespace Reduced

variable (hReduced : m.Reduced)
include hReduced

/- The triple of a live handle gives the handle. -/
theorem mkNode_of_splits
    (hSplits : m.Splits r v low high) :
    m.mkNode v low high = (r, m) := by
  have hZero := hSplits.isLive.1
  have hNode := hSplits.isLive.isNode hSplits.isTerminal
  have hCanonical := hReduced.isCanonical _ hNode
  have hLowEdge :
      (m.nodes.value r.index).low.negateIf r.negated = low :=
    hSplits.low_eq
  have hHighEdge :
      (m.nodes.value r.index).high.negateIf r.negated = high :=
    hSplits.high_eq
  have hVar : (m.nodes.value r.index).var = v :=
    hSplits.topVar_eq
  -- High edges are not complemented, so the sign is that of `r`.
  have hNegated : high.negated = r.negated := by
    rw [← hHighEdge,
      Handle.negated_negateIf _ hCanonical.high_live.1,
      hCanonical.high_regular]
    simp
  have hHandle :
      (Handle.ofIndex r.index).negateIf r.negated = r := by
    apply Handle.eq_of_index_eq
    · simp
    · rw [Handle.negated_negateIf _ (by simpa using hZero)]
      simp
  unfold Manager.mkNode
  simp only [hNegated]
  rw [← hLowEdge, ← hHighEdge, ← hVar]
  simp only [Handle.negateIf_negateIf, hCanonical.low_ne_high,
    if_false, hReduced.intact.put_value hNode, hHandle]

/- A node that is stored takes a cell. -/
theorem takes_of_stored
    (hMade : m.Chooses v low high (m.mkNode v low high))
    (hNe : low ≠ high)
    (hStored :
      m.nodes.Stored
        (m.nodes.put (Node.regular v low high)).2
        (Node.regular v low high)
        (m.nodes.put (Node.regular v low high)).1) :
    m.Takes v low high (m.mkNode v low high) := by
  have hAccounted := hReduced.chained.accounted
  have hFirst := hStored.fst_eq
  have hFree := hStored.free
  have hZero := hStored.ne_zero
  have hOne :
      (m.nodes.put (Node.regular v low high)).1 ≠ 1 := by
    intro hEq
    rw [hEq, hReduced.terminal_occupied] at hFree
    cases hFree
  have hKeeps := hMade.keeps
  rw [m.mkNode_of_ne v hNe] at hKeeps ⊢
  refine ⟨?_, ?_, ?_, ?_, hKeeps, ?_⟩
  · apply splits_of_value hZero hOne
    · change (m.nodes.put _).2.isOccupied _ = true
      simp [hStored.isOccupied_eq]
    · change (m.nodes.put _).2.value _ = _
      simp [hStored.value_eq]
  · rintro ⟨_, hTaken⟩
    rw [Handle.index_negateIf, Handle.index_ofIndex,
      hFree] at hTaken
    cases hTaken
  · intro i hi
    rw [Handle.index_negateIf, Handle.index_ofIndex,
      hFirst] at hi
    exact hAccounted.isOccupied_of_lt_firstFree hi
  · rw [Handle.index_negateIf, Handle.index_ofIndex, hFirst]
    exact hAccounted.firstFree_le
  · intro r
    have hTaken := hStored.isOccupied_eq r.index
    rw [Handle.index_negateIf, Handle.index_ofIndex]
    change
      (r.index ≠ 0 ∧
        (m.nodes.put _).2.isOccupied r.index = true) ↔ _
    rw [hTaken, Bool.or_eq_true, decide_eq_true_eq, IsLive]
    constructor
    · rintro ⟨hIndex, hEq | hOld⟩
      · exact Or.inr hEq
      · exact Or.inl ⟨hIndex, hOld⟩
    · rintro (⟨hIndex, hOld⟩ | hEq)
      · exact ⟨hIndex, Or.inr hOld⟩
      · exact ⟨hEq ▸ hZero, Or.inl hEq⟩

/- A triple that no live handle has takes a cell. -/
theorem takes_mkNode
    (hAllowed : (Construction.node v low high).Allowed m)
    (hNe : low ≠ high)
    (hNew : ∀ r, ¬ m.Splits r v low high) :
    m.Takes v low high (m.mkNode v low high) := by
  rcases hAllowed with
    ⟨hv, ⟨hLow, hHigh⟩, hAboveLow, hAboveHigh⟩
  rcases hReduced.chained.put_cases
      (Node.regular v low high) with
    ⟨i, hi, hValue, _⟩ | ⟨_, hStored⟩
  · -- A cell with the node would give a live handle of the triple.
    have hb := hReduced.chained.bucketFor_lt (m.nodes.value i)
    rcases hReduced.chained.mem_chain hb hi with
      ⟨hZero, hTaken⟩
    have hOne : i ≠ 1 := by
      rintro rfl
      exact hReduced.terminal_apart hi
    exact
      absurd (splits_of_value hZero hOne hTaken hValue)
        (hNew _)
  · exact
      hReduced.takes_of_stored
        (hReduced.mkNode hv hLow hHigh hAboveLow hAboveHigh)
        hNe hStored

/- Every reduced manager stores a node once and finds it again. -/
theorem sharesNodes : m.SharesNodes where
  skipped := by simp [Manager.mkNode]
  found := fun _ _ _ _ hSplits =>
    hReduced.mkNode_of_splits hSplits
  stored := fun _ _ _ hAllowed hNe hNew =>
    hReduced.takes_mkNode hAllowed hNe hNew

end Reduced

------------------------------------------------------------
-- Counting What Is Left
------------------------------------------------------------

/- The descendants of live roots are the cells that paths meet. -/
theorem Intact.mem_descendants_iff
    (hIntact : m.Intact)
    (hRoots : ∀ r ∈ roots, m.IsLive r)
    (i : Nat) :
    i ∈ m.descendants roots ↔
      m.IsRooted roots (Handle.ofIndex i) := by
  rw [← hIntact.isMarked_reachable_iff roots hRoots,
    Handle.index_ofIndex]
  unfold descendants
  rw [List.mem_filter, List.mem_range]
  constructor
  · exact fun hMem => hMem.2
  · intro hMarked
    refine ⟨?_, hMarked⟩
    by_contra hBound
    have hNone : (m.reachable roots)[i]? = none :=
      getElem?_neg _ _ hBound
    simp [IsMarked, Array.getD_eq_getD_getElem?,
      hNone] at hMarked

/- What paths from live roots meet is live. -/
theorem Reduced.isLive_of_isRooted
    (hReduced : m.Reduced)
    (hRoots : ∀ r ∈ roots, m.IsLive r)
    (hRooted : m.IsRooted roots r) :
    m.IsLive r := by
  rcases hRooted with hTerminal | hMeets
  · rcases (Handle.isTerminal_iff r).mp hTerminal with
      rfl | rfl
    · exact hReduced.isLive_one
    · exact hReduced.isLive_zero
  · apply hMeets.isOccupied hReduced.intact
    intro i hi
    rcases List.mem_map.mp hi with ⟨root, hRoot, rfl⟩
    exact hRoots root hRoot

/- As many cells are occupied as the roots have descendants. -/
theorem Sound.liveCount_collectGarbage
    (hSound : m.Sound)
    (hRoots : ∀ r ∈ roots, m.IsLive r) :
    (m.collectGarbage roots).liveCount =
      (m.descendants roots).length := by
  have hReduced := hSound.reduced
  have hCollects := hSound.collectGarbage hRoots
  have hCells :
      (m.collectGarbage roots).nodes.occupiedCells =
        (m.descendants roots).toFinset := by
    ext i
    rw [List.mem_toFinset,
      hReduced.intact.mem_descendants_iff hRoots,
      Table.mem_occupiedCells_iff]
    have hLive := hCollects.isLive_iff (Handle.ofIndex i)
    unfold IsLive at hLive
    rw [Handle.index_ofIndex] at hLive
    rw [hLive, and_iff_right_iff_imp]
    exact hReduced.isLive_of_isRooted hRoots
  have hNodup : (m.descendants roots).Nodup :=
    List.nodup_range.filter _
  have hAccounted :=
    hCollects.sound.reduced.chained.accounted
  rw [liveCount, hAccounted.count_eq, hCells,
    List.toFinset_card_of_nodup hNodup]

------------------------------------------------------------
-- Constructions after a Collection
------------------------------------------------------------

/- The managers that constructions lead to, without a collection. -/
inductive Constructs (m : Manager) : Manager → Prop where
  | refl : Constructs m m
  | construct {m' : Manager}
      (hConstructs : Constructs m m')
      (c : Construction)
      (hAllowed : c.Allowed m') :
      Constructs m (c.run m').2

/- Constructions keep a manager sound and what is live in it. -/
theorem Constructs.extends
    (hConstructs : m.Constructs m')
    (hSound : m.Sound) :
    m'.Sound ∧ m.Extends m' := by
  induction hConstructs with
  | refl => exact ⟨hSound, .refl m⟩
  | construct _ c hAllowed ih =>
      have hMade := ih.1.makes_construction c hAllowed
      exact ⟨hMade.sound, ih.2.trans hMade.keeps⟩

/-
  A collection keeps exactly the terminal and what its roots
  reach, each node as it was, and forgets all results. However
  many constructions follow it, live triples are found again,
  new ones take free cells and disturb nothing, and results are
  about live nodes only.
-/
theorem Reached.collectGarbage_exact
    (hReached : m.Reached)
    (hRoots : ∀ r ∈ roots, m.IsLive r) :
    (∀ r, (m.collectGarbage roots).IsLive r ↔
        m.IsRooted roots r) ∧
      (∀ i, i ∈ m.descendants roots ↔
        m.IsRooted roots (Handle.ofIndex i)) ∧
      (m.collectGarbage roots).liveCount =
        (m.descendants roots).length ∧
      (∀ t, (m.collectGarbage roots).computed.peek t = none) ∧
      ∀ later, (m.collectGarbage roots).Constructs later →
        (∀ r, m.IsRooted roots r →
          later.IsLive r ∧ later.node r = m.node r ∧
            (∀ a, later.eval r a = m.eval r a) ∧
            (r.isTerminal = false →
              later.mkNode (m.topVar r) (m.low r) (m.high r) =
                (r, later))) ∧
        later.SharesNodes ∧
        ∀ t r, later.computed.peek t = some r →
          t.All later.IsLive ∧ later.IsLive r := by
  have hSound := hReached.sound
  have hReduced := hSound.reduced
  have hCollects := hSound.collectGarbage hRoots
  have hLive :
      ∀ r, (m.collectGarbage roots).IsLive r ↔
        m.IsRooted roots r := by
    intro r
    rw [hCollects.isLive_iff, and_iff_right_iff_imp]
    exact hReduced.isLive_of_isRooted hRoots
  refine
    ⟨hLive, hReduced.intact.mem_descendants_iff hRoots,
      hSound.liveCount_collectGarbage hRoots, ?_, ?_⟩
  · intro t
    simp [Manager.collectGarbage]
  intro later hConstructs
  rcases hConstructs.extends hCollects.sound with
    ⟨hLater, hExtends⟩
  have hShares := hLater.reduced.sharesNodes
  refine ⟨?_, hShares, ?_⟩
  · intro r hRooted
    have hLeft := (hLive r).mpr hRooted
    have hKept := hExtends r hLeft
    have hOld := hCollects.keeps r hLeft
    have hNode : later.node r = m.node r :=
      hKept.2.trans hOld.2.symm
    refine ⟨hKept.1, hNode, ?_, ?_⟩
    · intro a
      rw [hExtends.eval_eq hCollects.sound.reduced
          hLater.reduced hLeft,
        hCollects.eval_eq hReduced hLeft]
    · intro hTerminal
      apply hShares.found
      refine ⟨hKept.1, hTerminal, ?_, ?_, ?_⟩
      · rw [topVar, hNode, topVar]
      · rw [Manager.low, hNode, Manager.low]
      · rw [Manager.high, hNode, Manager.high]
  · intro t r hPeek
    exact
      ⟨hLater.all_isLive t r hPeek,
        (hLater.solves t r hPeek).isLive⟩

/- The last node of the short run is kept and found again. -/
theorem collectGarbage_exact_shortRun :
    (shortRun.Reached ∧
        ∀ r ∈ [(⟨4⟩ : Handle)], shortRun.IsLive r) ∧
      (shortRun.collectGarbage [⟨4⟩]).liveCount =
        (shortRun.descendants [⟨4⟩]).length ∧
      (shortRun.collectGarbage [⟨4⟩]).mkNode 1 .zero ⟨3⟩ =
        (⟨4⟩, shortRun.collectGarbage [⟨4⟩]) := by
  have hRoots :
      ∀ r ∈ [(⟨4⟩ : Handle)], shortRun.IsLive r := by
    decide +kernel
  rcases
      Reached.collectGarbage_exact reached_shortRun hRoots with
    ⟨_, _, hCount, _, hLater⟩
  have hRooted : shortRun.IsRooted [⟨4⟩] ⟨4⟩ :=
    Or.inr (.start (by decide))
  have hFound := ((hLater _ .refl).1 ⟨4⟩ hRooted).2.2.2
  have hTriple :
      shortRun.topVar ⟨4⟩ = 1 ∧ shortRun.low ⟨4⟩ = .zero ∧
        shortRun.high ⟨4⟩ = ⟨3⟩ := by
    decide +kernel
  rw [hTriple.1, hTriple.2.1, hTriple.2.2] at hFound
  exact ⟨⟨reached_shortRun, hRoots⟩, hCount, hFound (by decide)⟩

end Manager

end Diagram

end Variability
