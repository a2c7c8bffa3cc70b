import Variability.Proofs.Diagram.Evaluation

/-
  Handles of a reduced manager are canonical.

  Two live handles are equal exactly if they have the same value
  under every assignment. Making a node keeps a manager reduced
  and gives a handle of the function that chooses between its
  children.

  Main declarations:
    * `Manager.Reduced.eq_of_eval_eq`
    * `Manager.Reduced.empty`
    * `Manager.Reduced.mkNode`
-/

namespace Variability

namespace Diagram

------------------------------------------------------------
-- Chained Cells of a Changed Table
------------------------------------------------------------

namespace Table

variable {α : Type}
variable [Inhabited α] [Spread α]
variable {t t' : Table α}

/- Storing a value chains its cell and no other one. -/
theorem Stored.isChained_iff
    {v : α}
    {i : Nat}
    (hStored : t.Stored t' v i)
    (hChained : t.Chained)
    (j : Nat) :
    t'.IsChained j ↔ j = i ∨ t.IsChained j := by
  have hFresh : ¬ t.IsChained i := by
    intro hMem
    have hOld := hChained.occupied _
      (hChained.bucketFor_lt _) i hMem
    simp [hStored.free] at hOld
  rw [IsChained, hStored.value_eq, bucketFor,
    hStored.buckets_size]
  by_cases hj : j = i
  · simp only [hj, if_true, true_or, iff_true]
    rw [hStored.chain_eq _ (hChained.bucketFor_lt v)]
    simp
  · simp only [hj, if_false, false_or]
    rw [hStored.chain_eq _ (hChained.bucketFor_lt _)]
    split <;> simp [IsChained, hj]

end Table

namespace Manager

variable {m : Manager}
variable {r s : Handle}
variable {a : Nat → Bool}

------------------------------------------------------------
-- Canonicity
------------------------------------------------------------

/- Terminals that are equal everywhere are one. -/
theorem eq_of_eval_eq_of_isTerminal
    (hrTerminal : r.isTerminal = true)
    (hsTerminal : s.isTerminal = true)
    (hEval : ∀ a, m.eval r a = m.eval s a) :
    r = s := by
  have hHere := hEval fun _ => false
  rcases (Handle.isTerminal_iff r).mp hrTerminal with
    rfl | rfl <;>
    rcases (Handle.isTerminal_iff s).mp hsTerminal with
      rfl | rfl <;>
    simp_all

namespace Reduced

/- The children of a node differ. -/
theorem low_ne_high
    (hReduced : m.Reduced)
    (hLive : m.IsLive r)
    (hTerminal : r.isTerminal = false) :
    m.low r ≠ m.high r := by
  intro hEq
  have hNode :=
    hReduced.isCanonical _ (hLive.isNode hTerminal)
  have hEdges := congrArg (Handle.negateIf r.negated) hEq
  simp only [low, high, Handle.negateIf_negateIf] at hEdges
  exact hNode.low_ne_high hEdges

/-
  A node and a handle that its variable is above differ: the
  handle does not depend on the variable, so both children would
  have one value everywhere and be equal.
-/
theorem not_eval_eq_of_isAbove
    (hReduced : m.Reduced)
    (hr : m.IsLive r)
    (hs : m.IsLive s)
    (hTerminal : r.isTerminal = false)
    (hAbove : m.IsAbove (m.topVar r) s)
    (hChildren :
      (∀ a, m.eval (m.low r) a = m.eval (m.high r) a) →
        m.low r = m.high r) :
    ¬ ∀ a, m.eval r a = m.eval s a := by
  intro hEval
  apply hReduced.low_ne_high hr hTerminal
  apply hChildren
  intro a
  rw [hReduced.eval_low hr hTerminal,
    hReduced.eval_high hr hTerminal, hEval, hEval,
    hReduced.eval_update hs hAbove,
    hReduced.eval_update hs hAbove]

/- Nodes with the same variable and the same children are one. -/
theorem eq_of_children_eq
    (hReduced : m.Reduced)
    (hr : m.IsLive r)
    (hs : m.IsLive s)
    (hrTerminal : r.isTerminal = false)
    (hsTerminal : s.isTerminal = false)
    (hVar : m.topVar r = m.topVar s)
    (hLow : m.low r = m.low s)
    (hHigh : m.high r = m.high s) :
    r = s := by
  have hrNode := hr.isNode hrTerminal
  have hsNode := hs.isNode hsTerminal
  have hrCanonical := hReduced.isCanonical _ hrNode
  have hsCanonical := hReduced.isCanonical _ hsNode
  -- High edges are not complemented, so they show the sign.
  have hNegated : r.negated = s.negated := by
    have hSign := congrArg Handle.negated hHigh
    simp only [high, node] at hSign
    rw [Handle.negated_negateIf _ hrCanonical.high_live.1,
      Handle.negated_negateIf _ hsCanonical.high_live.1,
      hrCanonical.high_regular,
      hsCanonical.high_regular] at hSign
    simpa using hSign
  have hLowEdge : (m.node r).low = (m.node s).low := by
    have hEdge :=
      congrArg (Handle.negateIf r.negated) hLow
    simpa [low, ← hNegated] using hEdge
  have hHighEdge : (m.node r).high = (m.node s).high := by
    have hEdge :=
      congrArg (Handle.negateIf r.negated) hHigh
    simpa [high, ← hNegated] using hEdge
  have hValue :
      m.nodes.value r.index = m.nodes.value s.index := by
    change m.node r = m.node s
    cases hrn : m.node r
    cases hsn : m.node s
    simp_all [topVar]
  exact Handle.eq_of_index_eq
    (hReduced.eq_of_value_eq hrNode hsNode hValue)
    hNegated

/- Only terminals have the least rank. -/
theorem isTerminal_of_rank_le_zero
    (hReduced : m.Reduced)
    (hr : m.IsLive r)
    (hRank : m.rank r ≤ 0) :
    r.isTerminal = true := by
  cases hTerminal : r.isTerminal with
  | true => rfl
  | false =>
      have hLow := hReduced.rank_low_lt hr hTerminal
      omega

/- Nodes that are equal everywhere have the same variable. -/
theorem topVar_eq_of_eval_eq
    (hReduced : m.Reduced)
    (hr : m.IsLive r)
    (hs : m.IsLive s)
    (hrTerminal : r.isTerminal = false)
    (hsTerminal : s.isTerminal = false)
    (hrChildren :
      (∀ a, m.eval (m.low r) a = m.eval (m.high r) a) →
        m.low r = m.high r)
    (hsChildren :
      (∀ a, m.eval (m.low s) a = m.eval (m.high s) a) →
        m.low s = m.high s)
    (hEval : ∀ a, m.eval r a = m.eval s a) :
    m.topVar r = m.topVar s := by
  rcases Nat.lt_trichotomy (m.topVar r) (m.topVar s) with
    hLess | hVar | hGreater
  · exact absurd hEval
      (hReduced.not_eval_eq_of_isAbove hr hs hrTerminal
        (Or.inr hLess) hrChildren)
  · exact hVar
  · exact absurd (fun a => (hEval a).symm)
      (hReduced.not_eval_eq_of_isAbove hs hr hsTerminal
        (Or.inr hGreater) hsChildren)

/- Their children are equal everywhere as well. -/
theorem children_eval_eq
    (hReduced : m.Reduced)
    (hr : m.IsLive r)
    (hs : m.IsLive s)
    (hrTerminal : r.isTerminal = false)
    (hsTerminal : s.isTerminal = false)
    (hVar : m.topVar r = m.topVar s)
    (hEval : ∀ a, m.eval r a = m.eval s a)
    (a : Nat → Bool) :
    m.eval (m.low r) a = m.eval (m.low s) a ∧
      m.eval (m.high r) a = m.eval (m.high s) a := by
  constructor
  · rw [hReduced.eval_low hr hrTerminal,
      hReduced.eval_low hs hsTerminal, hVar, hEval]
  · rw [hReduced.eval_high hr hrTerminal,
      hReduced.eval_high hs hsTerminal, hVar, hEval]

/-
  Handles up to some rank that are equal everywhere are one, by
  induction on the rank. Two nodes test the same variable and
  have the same children.
-/
theorem eq_of_eval_eq_of_rank_le
    (hReduced : m.Reduced)
    (n : Nat)
    (hr : m.IsLive r)
    (hs : m.IsLive s)
    (hrRank : m.rank r ≤ n)
    (hsRank : m.rank s ≤ n)
    (hEval : ∀ a, m.eval r a = m.eval s a) :
    r = s := by
  induction n generalizing r s with
  | zero =>
      exact
        eq_of_eval_eq_of_isTerminal
          (hReduced.isTerminal_of_rank_le_zero hr hrRank)
          (hReduced.isTerminal_of_rank_le_zero hs hsRank)
          hEval
  | succ n ih =>
      have hChildren :
          ∀ u, m.IsLive u → m.rank u ≤ n + 1 →
            u.isTerminal = false →
            (∀ a, m.eval (m.low u) a =
              m.eval (m.high u) a) →
            m.low u = m.high u := by
        intro u hu hRank hTerminal hSame
        have hLow := hReduced.rank_low_lt hu hTerminal
        have hHigh := hReduced.rank_high_lt hu hTerminal
        exact ih (hReduced.low_child hu hTerminal).1
          (hReduced.high_child hu hTerminal).1
          (by omega) (by omega) hSame
      cases hrTerminal : r.isTerminal with
      | true =>
          cases hsTerminal : s.isTerminal with
          | true =>
              exact
                eq_of_eval_eq_of_isTerminal hrTerminal
                  hsTerminal hEval
          | false =>
              exact absurd (fun a => (hEval a).symm)
                (hReduced.not_eval_eq_of_isAbove hs hr
                  hsTerminal (Or.inl hrTerminal)
                  (hChildren s hs hsRank hsTerminal))
      | false =>
          have hrChildren :=
            hChildren r hr hrRank hrTerminal
          cases hsTerminal : s.isTerminal with
          | true =>
              exact absurd hEval
                (hReduced.not_eval_eq_of_isAbove hr hs
                  hrTerminal (Or.inl hsTerminal) hrChildren)
          | false =>
              have hVar :=
                hReduced.topVar_eq_of_eval_eq hr hs
                  hrTerminal hsTerminal hrChildren
                  (hChildren s hs hsRank hsTerminal) hEval
              have hSame :=
                hReduced.children_eval_eq hr hs hrTerminal
                  hsTerminal hVar hEval
              have hrLow := hReduced.rank_low_lt hr hrTerminal
              have hsLow := hReduced.rank_low_lt hs hsTerminal
              have hrHigh :=
                hReduced.rank_high_lt hr hrTerminal
              have hsHigh :=
                hReduced.rank_high_lt hs hsTerminal
              apply hReduced.eq_of_children_eq hr hs
                hrTerminal hsTerminal hVar
              · exact
                  ih (hReduced.low_child hr hrTerminal).1
                    (hReduced.low_child hs hsTerminal).1
                    (by omega) (by omega)
                    fun a => (hSame a).1
              · exact
                  ih (hReduced.high_child hr hrTerminal).1
                    (hReduced.high_child hs hsTerminal).1
                    (by omega) (by omega)
                    fun a => (hSame a).2

/- Live handles with the same value everywhere are one. -/
theorem eq_of_eval_eq
    (hReduced : m.Reduced)
    (hr : m.IsLive r)
    (hs : m.IsLive s)
    (hEval : ∀ a, m.eval r a = m.eval s a) :
    r = s :=
  hReduced.eq_of_eval_eq_of_rank_le m.liveCount hr hs
    (hReduced.rank_le_liveCount r)
    (hReduced.rank_le_liveCount s) hEval

/- Every variable that is tested decides a value somewhere. -/
theorem exists_eval_update_ne
    (hReduced : m.Reduced)
    {v : Nat}
    (hTests : m.Tests r v)
    (hLive : m.IsLive r) :
    ∃ a,
      m.eval r (Function.update a v false) ≠
        m.eval r (Function.update a v true) := by
  induction hTests with
  | @top r hTerminal =>
      by_contra hSame
      apply hReduced.low_ne_high hLive hTerminal
      apply
        hReduced.eq_of_eval_eq
          (hReduced.low_child hLive hTerminal).1
          (hReduced.high_child hLive hTerminal).1
      intro a
      rw [hReduced.eval_low hLive hTerminal,
        hReduced.eval_high hLive hTerminal]
      by_contra hNe
      exact hSame ⟨a, hNe⟩
  | @low r v hTerminal hTests ih =>
      have hLow := hReduced.low_child hLive hTerminal
      have hLess := hReduced.lt_of_tests hTests hLow.1 hLow.2
      rcases ih hLow.1 with ⟨a, ha⟩
      rw [hReduced.eval_low hLive hTerminal,
        hReduced.eval_low hLive hTerminal,
        Function.update_comm hLess.ne',
        Function.update_comm hLess.ne'] at ha
      exact ⟨_, ha⟩
  | @high r v hTerminal hTests ih =>
      have hHigh := hReduced.high_child hLive hTerminal
      have hLess :=
        hReduced.lt_of_tests hTests hHigh.1 hHigh.2
      rcases ih hHigh.1 with ⟨a, ha⟩
      rw [hReduced.eval_high hLive hTerminal,
        hReduced.eval_high hLive hTerminal,
        Function.update_comm hLess.ne',
        Function.update_comm hLess.ne'] at ha
      exact ⟨_, ha⟩

end Reduced

------------------------------------------------------------
-- Making Nodes
------------------------------------------------------------

/-
  A handle of the function that chooses between two others by a
  variable, in a manager that extends the one they are from.
-/
structure Chooses
    (m : Manager)
    (v : Nat)
    (low high : Handle)
    (made : Handle × Manager) : Prop where
  reduced : made.2.Reduced
  keeps : m.Extends made.2
  computed_eq : made.2.computed = m.computed
  isLive : made.2.IsLive made.1
  isAbove : ∀ w, w < v → made.2.IsAbove w made.1
  eval_eq :
    ∀ a, made.2.eval made.1 a =
      if a v then m.eval high a else m.eval low a

/- A stored node of live children keeps a manager intact. -/
theorem Intact.stored
    (hIntact : m.Intact)
    {n : Node}
    {i : Nat}
    {nodes : Table Node}
    (hLow : m.IsLive n.low)
    (hHigh : m.IsLive n.high)
    (hStored : m.nodes.Stored nodes n i) :
    ({ m with nodes } : Manager).Intact ∧
      m.Extends { m with nodes } := by
  have hExtends : m.Extends { m with nodes } := by
    intro r hLive
    have hNe : r.index ≠ i := by
      rintro rfl
      simp [IsLive, hStored.free] at hLive
    refine ⟨⟨hLive.1, ?_⟩, ?_⟩
    · change nodes.isOccupied r.index = true
      rw [hStored.isOccupied_eq, hLive.2, Bool.or_true]
    · change nodes.value r.index = m.nodes.value r.index
      rw [hStored.value_eq, if_neg hNe]
  have hTerminal : 1 ≠ i := by
    rintro rfl
    have hOccupied := hIntact.terminal_occupied
    simp [hStored.free] at hOccupied
  have hOld :
      ∀ j, j ≠ i →
        ({ m with nodes } : Manager).IsNode j →
        m.IsNode j := by
    rintro j hj ⟨hLess, hOccupied⟩
    refine ⟨hLess, ?_⟩
    change nodes.isOccupied j = true at hOccupied
    rw [hStored.isOccupied_eq] at hOccupied
    simpa [hj] using hOccupied
  refine ⟨⟨hStored.chained, ?_, ?_, ?_, ?_⟩, hExtends⟩
  · change nodes.isOccupied 1 = true
    rw [hStored.isOccupied_eq, hIntact.terminal_occupied,
      Bool.or_true]
  · rw [hStored.isChained_iff hIntact.chained]
    rintro (hEq | hChained)
    · exact hTerminal hEq
    · exact hIntact.terminal_apart hChained
  · intro j hj
    rw [hStored.isChained_iff hIntact.chained]
    by_cases hEq : j = i
    · exact Or.inl hEq
    · exact Or.inr
        (hIntact.isChained_of_isNode j (hOld j hEq hj))
  · intro j hj
    change
      Manager.IsLive _ (nodes.value j).low ∧
        Manager.IsLive _ (nodes.value j).high
    rw [hStored.value_eq]
    by_cases hEq : j = i
    · rw [if_pos hEq]
      exact ⟨hExtends.isLive hLow, hExtends.isLive hHigh⟩
    · rw [if_neg hEq]
      have hEdges := hIntact.edges_live j (hOld j hEq hj)
      exact
        ⟨hExtends.isLive hEdges.1,
          hExtends.isLive hEdges.2⟩

/- A stored node that is canonical keeps a manager reduced. -/
theorem Reduced.stored
    (hReduced : m.Reduced)
    {n : Node}
    {i : Nat}
    {nodes : Table Node}
    (hNode : m.IsCanonical n)
    (hStored : m.nodes.Stored nodes n i) :
    ({ m with nodes } : Manager).Reduced ∧
      m.Extends { m with nodes } := by
  rcases hReduced.intact.stored hNode.low_live
      hNode.high_live hStored with
    ⟨hIntact, hExtends⟩
  refine
    ⟨⟨hIntact.chained, hIntact.terminal_occupied,
      hIntact.terminal_apart, ?_,
      hIntact.isChained_of_isNode, ?_⟩, hExtends⟩
  · change nodes.value 1 = {}
    rw [hStored.value_eq, if_neg, hReduced.terminal_value]
    rintro rfl
    have hOccupied := hReduced.terminal_occupied
    simp [hStored.free] at hOccupied
  · rintro j ⟨hLess, hOccupied⟩
    change nodes.isOccupied j = true at hOccupied
    change IsCanonical _ (nodes.value j)
    apply hExtends.isCanonical
    rw [hStored.isOccupied_eq] at hOccupied
    rw [hStored.value_eq]
    by_cases hEq : j = i
    · rw [if_pos hEq]
      exact hNode
    · rw [if_neg hEq]
      exact
        hReduced.isCanonical j
          ⟨hLess, by simpa [hEq] using hOccupied⟩

/- The handle of a canonical node has the value of its choice. -/
theorem Reduced.eval_ofIndex
    (hReduced : m.Reduced)
    {i : Nat}
    (hNode : m.IsNode i) :
    m.eval (Handle.ofIndex i) a =
      if a (m.nodes.value i).var then
        m.eval (m.nodes.value i).high a
      else
        m.eval (m.nodes.value i).low a := by
  have hLive : m.IsLive (Handle.ofIndex i) :=
    ⟨by have := hNode.1; simp; omega, hNode.2⟩
  have hTerminal :
      (Handle.ofIndex i).isTerminal = false := by
    have hLess := hNode.1
    simp only [Handle.isTerminal, Handle.index_ofIndex,
      beq_eq_false_iff_ne]
    omega
  rw [hReduced.eval_node hLive hTerminal]
  simp [topVar, low, high, node]

/- Making a canonical node finds it or stores it. -/
theorem Reduced.put
    (hReduced : m.Reduced)
    {n : Node}
    (hNode : m.IsCanonical n) :
    m.Chooses n.var n.low n.high
      (Handle.ofIndex (m.nodes.put n).1,
        { m with nodes := (m.nodes.put n).2 }) := by
  have hChooses :
      ∀ (i : Nat) (m' : Manager),
        m'.Reduced → m.Extends m' →
        m'.computed = m.computed → m'.IsNode i →
        m'.nodes.value i = n →
        m.Chooses n.var n.low n.high
          (Handle.ofIndex i, m') := by
    intro i m' hReduced' hExtends hComputed hi hValue
    have hLess := hi.1
    refine
      ⟨hReduced', hExtends, hComputed, ?_, ?_, ?_⟩
    · exact ⟨by simp; omega, hi.2⟩
    · intro w hw
      right
      simpa [topVar, node, hValue] using hw
    · intro a
      rw [hReduced'.eval_ofIndex hi, hValue,
        hExtends.eval_eq hReduced hReduced'
          hNode.low_live,
        hExtends.eval_eq hReduced hReduced'
          hNode.high_live]
  rcases hReduced.chained.put_cases n with
    ⟨i, hi, hValue, hPut⟩ | ⟨_, hStored⟩
  · rw [hPut]
    have hb := hReduced.chained.bucketFor_lt
      (m.nodes.value i)
    rcases hReduced.chained.mem_chain hb hi with
      ⟨hZero, hOccupied⟩
    have hOne : i ≠ 1 := by
      rintro rfl
      exact hReduced.terminal_apart hi
    exact hChooses i m hReduced (Extends.refl m) rfl
      ⟨by omega, hOccupied⟩ hValue
  · rcases hReduced.stored hNode hStored with
      ⟨hReduced', hExtends⟩
    have hOne : (m.nodes.put n).1 ≠ 1 := by
      intro hEq
      have hFree := hStored.free
      rw [hEq, hReduced.terminal_occupied] at hFree
      simp at hFree
    have hZero := hStored.ne_zero
    apply hChooses _ _ hReduced' hExtends rfl
    · refine ⟨by omega, ?_⟩
      change (m.nodes.put n).2.isOccupied _ = true
      simp [hStored.isOccupied_eq]
    · change (m.nodes.put n).2.value _ = n
      simp [hStored.value_eq]

/-
  Making a node of live children, by a variable that is above
  both of them.
-/
theorem Reduced.mkNode
    (hReduced : m.Reduced)
    {v : Nat}
    {low high : Handle}
    (hv : 0 < v)
    (hLow : m.IsLive low)
    (hHigh : m.IsLive high)
    (hAboveLow : m.IsAbove v low)
    (hAboveHigh : m.IsAbove v high) :
    m.Chooses v low high (m.mkNode v low high) := by
  by_cases hEdges :
      low.negateIf high.negated = high.negateIf high.negated
  · have hSame : high = low := by
      have hEq :=
        congrArg (Handle.negateIf high.negated) hEdges
      simpa using hEq.symm
    have hMake :
        m.mkNode v low high = (low, m) := by
      simp [Manager.mkNode, hSame]
    rw [hMake]
    refine
      ⟨hReduced, Extends.refl m, rfl, hLow, ?_, ?_⟩
    · intro w hw
      exact hAboveLow.mono (by omega)
    · intro a
      simp [hSame]
  · let n : Node :=
      { var := v
        low := low.negateIf high.negated
        high := high.negateIf high.negated }
    have hNode : m.IsCanonical n := by
      refine ⟨hv, ?_, ?_, hEdges, ?_, ?_, ?_⟩
      · simpa [n] using hLow
      · simpa [n] using hHigh
      · simp [n, Handle.negated_negateIf _ hHigh.1]
      · simpa [n] using hAboveLow
      · simpa [n] using hAboveHigh
    have hMake :
        m.mkNode v low high =
          ((Handle.ofIndex (m.nodes.put n).1).negateIf
              high.negated,
            { m with nodes := (m.nodes.put n).2 }) := by
      simp [Manager.mkNode, hEdges, n]
    have hPut := hReduced.put hNode
    rw [hMake]
    refine
      ⟨hPut.reduced, hPut.keeps, hPut.computed_eq,
        ?_, ?_, ?_⟩
    · simpa using hPut.isLive
    · simpa using hPut.isAbove
    · intro a
      rw [hPut.reduced.eval_negateIf hPut.isLive,
        hPut.eval_eq a]
      change
        (high.negated !=
            if a v then
              m.eval (high.negateIf high.negated) a
            else
              m.eval (low.negateIf high.negated) a) = _
      rw [hReduced.eval_negateIf hHigh,
        hReduced.eval_negateIf hLow]
      split <;> simp

------------------------------------------------------------
-- The Empty Manager
------------------------------------------------------------

/- A manager that was just created has no node. -/
theorem not_isNode_empty
    (bits i : Nat) :
    ¬ (Manager.empty bits).IsNode i := by
  let t : Table Node := Table.empty bits
  have hAccounted : t.Accounted := Table.Accounted.empty bits
  have hFirst : t.firstFree t.minFree = 1 := by
    rw [Table.firstFree]
    rfl
  rintro ⟨hLess, hTaken⟩
  have hAdded :
      (t.add {}).2.isOccupied i =
        (decide (i = t.firstFree t.minFree) ||
          t.isOccupied i) :=
    hAccounted.isOccupied_add {} i
  change (t.add {}).2.isOccupied i = true at hTaken
  have hOne : i ≠ 1 := by omega
  have hOld : t.isOccupied i = true := by
    simpa [hAdded, hFirst, hOne] using hTaken
  have hLast := hAccounted.le_last i hOld
  have hLastEq : t.last = 0 := rfl
  omega

/- A manager that holds only the terminal is reduced. -/
theorem Reduced.empty
    (bits : Nat) :
    (Manager.empty bits).Reduced := by
  let t : Table Node := Table.empty bits
  have hChained : t.Chained := Table.Chained.empty bits
  have hAccounted := hChained.accounted
  have hFirst : t.firstFree t.minFree = 1 := by
    rw [Table.firstFree]
    rfl
  have hOccupied (i : Nat) :
      (Manager.empty bits).nodes.isOccupied i =
        (decide (i = 1) || t.isOccupied i) := by
    rw [← hFirst]
    exact hAccounted.isOccupied_add {} i
  have hNoChain (b : Nat) : t.chain b = [] := by
    have hEnd : Table.Linked t.next (t.bucket b) [] :=
      Table.bucket_empty bits b
    exact Table.chainFrom_eq hEnd (Nat.zero_le _)
  have hAdded := hChained.add ({} : Node)
  refine ⟨hAdded.chained, ?_, ?_, ?_, ?_, ?_⟩
  · simp [hOccupied]
  · change ¬ (t.add {}).2.IsChained 1
    rw [Table.IsChained,
      hAdded.chain_eq (hAdded.chained.bucketFor_lt _),
      hNoChain]
    simp
  · change (t.add {}).2.value 1 = {}
    rw [hAccounted.value_add, hFirst, if_pos rfl]
  · intro i hi
    exact absurd hi (not_isNode_empty bits i)
  · intro i hi
    exact absurd hi (not_isNode_empty bits i)

end Manager

end Diagram

end Variability
