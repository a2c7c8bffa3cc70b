import Mathlib.Order.Basic
import Variability.Diagram.Manager
import Variability.Proofs.Diagram.Chain

/-
  The values of diagrams.

  In a reduced manager the variables of a diagram grow
  downwards, so no path is longer than the number of live nodes
  and following an assignment always ends at a constant. A
  manager that extends another one keeps the values of all
  diagrams that were there before.

  Main declarations:
    * `Manager.IsLive`
    * `Manager.Reduced`, `Manager.Intact`
    * `Manager.Reduced.induction`
    * `Manager.Reduced.eval_node`
    * `Manager.Reduced.eval_neg`
    * `Manager.Extends`
    * `Manager.Tests`
-/

namespace Variability

namespace Diagram

------------------------------------------------------------
-- Handles
------------------------------------------------------------

namespace Handle

theorem code_neg (r : Handle) : (-r).code = -r.code := rfl

@[simp] theorem neg_neg (r : Handle) : -(-r) = r := by
  rcases r with ⟨c⟩
  exact congrArg Handle.mk (Int.neg_neg c)

@[simp] theorem index_neg (r : Handle) :
    (-r).index = r.index := by
  simp [index, code_neg]

@[simp] theorem isTerminal_neg (r : Handle) :
    (-r).isTerminal = r.isTerminal := by
  simp [isTerminal]

/- A complement is complemented exactly if the handle is not. -/
theorem negated_neg
    {r : Handle}
    (hr : r.index ≠ 0) :
    (-r).negated = !r.negated := by
  simp only [negated, code_neg]
  simp only [index] at hr
  by_cases hNeg : r.code < 0
  · simp [hNeg]
    omega
  · simp [hNeg]
    omega

@[simp] theorem neg_one : -Handle.one = Handle.zero := rfl

@[simp] theorem neg_zero : -Handle.zero = Handle.one := rfl

/- The index and the sign determine a handle. -/
theorem eq_of_index_eq
    {r s : Handle}
    (hIndex : r.index = s.index)
    (hNegated : r.negated = s.negated) :
    r = s := by
  rcases r with ⟨c⟩
  rcases s with ⟨d⟩
  simp only [index] at hIndex
  simp only [negated, decide_eq_decide] at hNegated
  congr
  omega

/- The terminal handles are the two constants. -/
theorem isTerminal_iff
    (r : Handle) :
    r.isTerminal = true ↔ r = .one ∨ r = .zero := by
  rcases r with ⟨c⟩
  simp only [isTerminal, index, one, zero, beq_iff_eq,
    Handle.mk.injEq]
  omega

@[simp] theorem isTerminal_one :
    Handle.one.isTerminal = true := rfl

@[simp] theorem isTerminal_zero :
    Handle.zero.isTerminal = true := rfl

@[simp] theorem negateIf_true (r : Handle) :
    r.negateIf true = -r := rfl

@[simp] theorem negateIf_false (r : Handle) :
    r.negateIf false = r := rfl

@[simp] theorem negateIf_negateIf
    (b : Bool)
    (r : Handle) :
    (r.negateIf b).negateIf b = r := by
  cases b <;> simp

@[simp] theorem negateIf_not
    (b : Bool)
    (r : Handle) :
    r.negateIf (!b) = -(r.negateIf b) := by
  cases b <;> simp

@[simp] theorem index_negateIf
    (b : Bool)
    (r : Handle) :
    (r.negateIf b).index = r.index := by
  cases b <;> simp

@[simp] theorem isTerminal_negateIf
    (b : Bool)
    (r : Handle) :
    (r.negateIf b).isTerminal = r.isTerminal := by
  cases b <;> simp

theorem negated_negateIf
    (b : Bool)
    {r : Handle}
    (hr : r.index ≠ 0) :
    (r.negateIf b).negated = (b != r.negated) := by
  cases b
  · simp
  · simp [negated_neg hr]

@[simp] theorem index_ofIndex (i : Nat) :
    (ofIndex i).index = i := rfl

@[simp] theorem negated_ofIndex (i : Nat) :
    (ofIndex i).negated = false := by
  exact decide_eq_false (by simp [ofIndex])

end Handle

namespace Manager

------------------------------------------------------------
-- Live Handles
------------------------------------------------------------

/- A handle whose cell is occupied. -/
def IsLive (m : Manager) (r : Handle) : Prop :=
  r.index ≠ 0 ∧ m.nodes.isOccupied r.index = true

instance (m : Manager) (r : Handle) :
    Decidable (m.IsLive r) := by
  unfold IsLive
  infer_instance

@[simp] theorem isLive_neg
    (m : Manager)
    (r : Handle) :
    m.IsLive (-r) ↔ m.IsLive r := by
  simp [IsLive]

@[simp] theorem isLive_negateIf
    (m : Manager)
    (b : Bool)
    (r : Handle) :
    m.IsLive (r.negateIf b) ↔ m.IsLive r := by
  simp [IsLive]

/- A variable that is less than all variables a handle tests first. -/
def IsAbove (m : Manager) (v : Nat) (r : Handle) : Prop :=
  r.isTerminal = true ∨ v < m.topVar r

instance (m : Manager) (v : Nat) (r : Handle) :
    Decidable (m.IsAbove v r) := by
  unfold IsAbove
  infer_instance

@[simp] theorem topVar_neg
    (m : Manager)
    (r : Handle) :
    m.topVar (-r) = m.topVar r := by
  simp [topVar, node]

@[simp] theorem isAbove_neg
    (m : Manager)
    (v : Nat)
    (r : Handle) :
    m.IsAbove v (-r) ↔ m.IsAbove v r := by
  simp [IsAbove]

@[simp] theorem isAbove_negateIf
    (m : Manager)
    (v : Nat)
    (b : Bool)
    (r : Handle) :
    m.IsAbove v (r.negateIf b) ↔ m.IsAbove v r := by
  cases b <;> simp

theorem IsAbove.mono
    {m : Manager}
    {v w : Nat}
    {r : Handle}
    (hAbove : m.IsAbove v r)
    (hw : w ≤ v) :
    m.IsAbove w r := by
  rcases hAbove with hTerminal | hTop
  · exact Or.inl hTerminal
  · exact Or.inr (by omega)

------------------------------------------------------------
-- Reduced Managers
------------------------------------------------------------

/-
  A node in the canonical form: its variable is less than those
  of its children, its high edge is not complemented, and its
  edges differ.
-/
structure IsCanonical (m : Manager) (n : Node) : Prop where
  var_pos : 0 < n.var
  low_live : m.IsLive n.low
  high_live : m.IsLive n.high
  low_ne_high : n.low ≠ n.high
  high_regular : n.high.negated = false
  above_low : m.IsAbove n.var n.low
  above_high : m.IsAbove n.var n.high

/- A cell that holds a node and is not the terminal. -/
def IsNode (m : Manager) (i : Nat) : Prop :=
  1 < i ∧ m.nodes.isOccupied i = true

/-
  A manager whose table is in order and whose nodes are
  canonical. All cells but the terminal are shared by value.
-/
structure Reduced (m : Manager) : Prop where
  chained : m.nodes.Chained
  terminal_occupied : m.nodes.isOccupied 1 = true
  terminal_apart : ¬ m.nodes.IsChained 1
  terminal_value : m.nodes.value 1 = {}
  isChained_of_isNode :
    ∀ i, m.IsNode i → m.nodes.IsChained i
  isCanonical :
    ∀ i, m.IsNode i → m.IsCanonical (m.nodes.value i)

/-
  A manager whose table is in order and whose edges lead to live
  cells. All cells but the terminal are shared by value. Nothing
  is asked of the variables.
-/
structure Intact (m : Manager) : Prop where
  chained : m.nodes.Chained
  terminal_occupied : m.nodes.isOccupied 1 = true
  terminal_apart : ¬ m.nodes.IsChained 1
  isChained_of_isNode :
    ∀ i, m.IsNode i → m.nodes.IsChained i
  edges_live :
    ∀ i, m.IsNode i →
      m.IsLive (m.nodes.value i).low ∧
        m.IsLive (m.nodes.value i).high

variable {m m' : Manager}
variable {r s : Handle}

theorem Reduced.intact
    (hReduced : m.Reduced) :
    m.Intact where
  chained := hReduced.chained
  terminal_occupied := hReduced.terminal_occupied
  terminal_apart := hReduced.terminal_apart
  isChained_of_isNode := hReduced.isChained_of_isNode
  edges_live := fun i hNode =>
    ⟨(hReduced.isCanonical i hNode).low_live,
      (hReduced.isCanonical i hNode).high_live⟩

/- A live handle that is no constant names a node. -/
theorem IsLive.isNode
    (hLive : m.IsLive r)
    (hTerminal : r.isTerminal = false) :
    m.IsNode r.index := by
  have hIndex : r.index ≠ 1 := by
    simpa [Handle.isTerminal] using hTerminal
  have hZero := hLive.1
  exact ⟨by omega, hLive.2⟩

namespace Reduced

/- No two nodes are alike. -/
theorem eq_of_value_eq
    (hReduced : m.Reduced)
    {i j : Nat}
    (hi : m.IsNode i)
    (hj : m.IsNode j)
    (hValue : m.nodes.value i = m.nodes.value j) :
    i = j := by
  have hiChain := hReduced.isChained_of_isNode i hi
  have hjChain := hReduced.isChained_of_isNode j hj
  rw [Table.IsChained, hValue] at hiChain
  exact hReduced.chained.distinct _
    (hReduced.chained.bucketFor_lt _) i hiChain j hjChain
    hValue

/- The constants are live. -/
theorem isLive_one
    (hReduced : m.Reduced) :
    m.IsLive .one :=
  ⟨by decide, hReduced.terminal_occupied⟩

theorem isLive_zero
    (hReduced : m.Reduced) :
    m.IsLive .zero :=
  ⟨by decide, hReduced.terminal_occupied⟩

/- The children of a node are live and its variable is above them. -/
theorem low_child
    (hReduced : m.Reduced)
    (hLive : m.IsLive r)
    (hTerminal : r.isTerminal = false) :
    m.IsLive (m.low r) ∧ m.IsAbove (m.topVar r) (m.low r) := by
  have hNode :=
    hReduced.isCanonical _ (hLive.isNode hTerminal)
  simp only [low, isLive_negateIf, isAbove_negateIf]
  exact ⟨hNode.low_live, hNode.above_low⟩

theorem high_child
    (hReduced : m.Reduced)
    (hLive : m.IsLive r)
    (hTerminal : r.isTerminal = false) :
    m.IsLive (m.high r) ∧
      m.IsAbove (m.topVar r) (m.high r) := by
  have hNode :=
    hReduced.isCanonical _ (hLive.isNode hTerminal)
  simp only [high, isLive_negateIf, isAbove_negateIf]
  exact ⟨hNode.high_live, hNode.above_high⟩

/- The variable of a node is positive. -/
theorem topVar_pos
    (hReduced : m.Reduced)
    (hLive : m.IsLive r)
    (hTerminal : r.isTerminal = false) :
    0 < m.topVar r :=
  (hReduced.isCanonical _ (hLive.isNode hTerminal)).var_pos

end Reduced

------------------------------------------------------------
-- Depth
------------------------------------------------------------

/-
  How many nodes a path from a handle may still meet: those
  whose variable is not less than the one it tests first.
-/
def rank (m : Manager) (r : Handle) : Nat :=
  if r.isTerminal then
    0
  else
    (m.nodes.occupiedCells.filter
      (fun i => m.topVar r ≤ (m.nodes.value i).var)).card

@[simp] theorem rank_neg
    (m : Manager)
    (r : Handle) :
    m.rank (-r) = m.rank r := by
  simp [rank]

theorem rank_of_isTerminal
    (m : Manager)
    (hTerminal : r.isTerminal = true) :
    m.rank r = 0 := by
  simp [rank, hTerminal]

/- A node has a greater rank than what its variable is above. -/
theorem rank_lt_of_isAbove
    (hLive : m.IsLive r)
    (hTerminal : r.isTerminal = false)
    (hAbove : m.IsAbove (m.topVar r) s) :
    m.rank s < m.rank r := by
  have hMem :
      r.index ∈ m.nodes.occupiedCells.filter
        (fun i => m.topVar r ≤ (m.nodes.value i).var) :=
    Finset.mem_filter.mpr
      ⟨(Table.mem_occupiedCells_iff _ _).mpr hLive,
        le_refl _⟩
  by_cases hChild : s.isTerminal = true
  · rw [rank_of_isTerminal m hChild]
    simpa [rank, hTerminal] using
      Finset.card_pos.mpr ⟨_, hMem⟩
  · have hTop : m.topVar r < m.topVar s :=
      hAbove.resolve_left hChild
    simp only [rank, hTerminal, hChild]
    apply Finset.card_lt_card
    rw [Finset.ssubset_iff_of_subset]
    · refine ⟨r.index, hMem, ?_⟩
      rw [Finset.mem_filter]
      rintro ⟨_, hVar⟩
      exact absurd hVar (not_le.mpr hTop)
    · intro i hi
      rcases Finset.mem_filter.mp hi with ⟨hCell, hVar⟩
      exact Finset.mem_filter.mpr ⟨hCell, by omega⟩

namespace Reduced

/- No path is longer than the number of live nodes. -/
theorem rank_le_liveCount
    (hReduced : m.Reduced)
    (r : Handle) :
    m.rank r ≤ m.liveCount := by
  rw [liveCount, hReduced.chained.accounted.count_eq, rank]
  split
  · exact Nat.zero_le _
  · exact Finset.card_filter_le _ _

theorem rank_low_lt
    (hReduced : m.Reduced)
    (hLive : m.IsLive r)
    (hTerminal : r.isTerminal = false) :
    m.rank (m.low r) < m.rank r :=
  rank_lt_of_isAbove hLive hTerminal
    (hReduced.low_child hLive hTerminal).2

theorem rank_high_lt
    (hReduced : m.Reduced)
    (hLive : m.IsLive r)
    (hTerminal : r.isTerminal = false) :
    m.rank (m.high r) < m.rank r :=
  rank_lt_of_isAbove hLive hTerminal
    (hReduced.high_child hLive hTerminal).2

/- Induction over a diagram from the constants upwards. -/
theorem induction
    (hReduced : m.Reduced)
    {motive : (r : Handle) → m.IsLive r → Prop}
    (one : ∀ hLive, motive .one hLive)
    (zero : ∀ hLive, motive .zero hLive)
    (node :
      ∀ r hLive (hTerminal : r.isTerminal = false),
        motive (m.low r)
            (hReduced.low_child hLive hTerminal).1 →
          motive (m.high r)
            (hReduced.high_child hLive hTerminal).1 →
          motive r hLive)
    (r : Handle)
    (hLive : m.IsLive r) :
    motive r hLive := by
  induction hRank : m.rank r using
    Nat.strong_induction_on generalizing r with
  | _ n ih =>
      subst hRank
      cases hTerminal : r.isTerminal with
      | true =>
          rcases (Handle.isTerminal_iff r).mp hTerminal with
            rfl | rfl
          · exact one hLive
          · exact zero hLive
      | false =>
          exact node r hLive hTerminal
            (ih _ (hReduced.rank_low_lt hLive hTerminal)
              _ _ rfl)
            (ih _ (hReduced.rank_high_lt hLive hTerminal)
              _ _ rfl)

end Reduced

------------------------------------------------------------
-- Values
------------------------------------------------------------

variable {a b : Nat → Bool}

@[simp] theorem eval_one
    (m : Manager)
    (a : Nat → Bool) :
    m.eval .one a = true := by
  unfold eval
  cases m.liveCount <;> rfl

@[simp] theorem eval_zero
    (m : Manager)
    (a : Nat → Bool) :
    m.eval .zero a = false := by
  unfold eval
  cases m.liveCount <;> rfl

namespace Reduced

/- More steps than the rank of a handle change nothing. -/
theorem evalWithin_stable
    (hReduced : m.Reduced)
    (hLive : m.IsLive r)
    {steps steps' : Nat}
    (hSteps : m.rank r ≤ steps)
    (hSteps' : m.rank r ≤ steps') :
    m.evalWithin a steps r = m.evalWithin a steps' r := by
  induction steps generalizing r steps' with
  | zero =>
      cases hTerminal : r.isTerminal with
      | true => cases steps' <;> simp [evalWithin, hTerminal]
      | false =>
          have hLow := hReduced.rank_low_lt hLive hTerminal
          omega
  | succ steps ih =>
      cases hTerminal : r.isTerminal with
      | true => cases steps' <;> simp [evalWithin, hTerminal]
      | false =>
          have hLow := hReduced.rank_low_lt hLive hTerminal
          have hHigh := hReduced.rank_high_lt hLive hTerminal
          cases steps' with
          | zero => omega
          | succ steps' =>
              have hLowEq :
                  m.evalWithin a steps (m.low r) =
                    m.evalWithin a steps' (m.low r) :=
                ih (hReduced.low_child hLive hTerminal).1
                  (by omega) (by omega)
              have hHighEq :
                  m.evalWithin a steps (m.high r) =
                    m.evalWithin a steps' (m.high r) :=
                ih (hReduced.high_child hLive hTerminal).1
                  (by omega) (by omega)
              simp [evalWithin, hTerminal, hLowEq, hHighEq]

/- Following an assignment ends within the number of live nodes. -/
theorem evalWithin_eq_eval
    (hReduced : m.Reduced)
    (hLive : m.IsLive r)
    {steps : Nat}
    (hSteps : m.rank r ≤ steps) :
    m.evalWithin a steps r = m.eval r a :=
  hReduced.evalWithin_stable hLive hSteps
    (hReduced.rank_le_liveCount r)

/- A node has the value of one of its children. -/
theorem eval_node
    (hReduced : m.Reduced)
    (hLive : m.IsLive r)
    (hTerminal : r.isTerminal = false) :
    m.eval r a =
      if a (m.topVar r) then m.eval (m.high r) a
      else m.eval (m.low r) a := by
  have hLow := hReduced.rank_low_lt hLive hTerminal
  have hHigh := hReduced.rank_high_lt hLive hTerminal
  have hCount := hReduced.rank_le_liveCount r
  have hLowEq :
      m.evalWithin a (m.liveCount - 1) (m.low r) =
        m.eval (m.low r) a :=
    hReduced.evalWithin_eq_eval
      (hReduced.low_child hLive hTerminal).1 (by omega)
  have hHighEq :
      m.evalWithin a (m.liveCount - 1) (m.high r) =
        m.eval (m.high r) a :=
    hReduced.evalWithin_eq_eval
      (hReduced.high_child hLive hTerminal).1 (by omega)
  have hSteps : m.liveCount = m.liveCount - 1 + 1 := by
    omega
  rw [eval, hSteps, evalWithin, hLowEq, hHighEq]
  simp [hTerminal]

end Reduced

theorem low_neg
    (m : Manager)
    (hr : r.index ≠ 0) :
    m.low (-r) = -(m.low r) := by
  simp [low, node, Handle.negated_neg hr]

theorem high_neg
    (m : Manager)
    (hr : r.index ≠ 0) :
    m.high (-r) = -(m.high r) := by
  simp [high, node, Handle.negated_neg hr]

namespace Reduced

/- A complement has the opposite value. -/
theorem eval_neg
    (hReduced : m.Reduced)
    (hLive : m.IsLive r) :
    m.eval (-r) a = !m.eval r a := by
  induction r, hLive using hReduced.induction with
  | one => simp
  | zero => simp
  | node r hLive hTerminal ihLow ihHigh =>
      rw [hReduced.eval_node
          ((m.isLive_neg r).mpr hLive) (by simpa),
        hReduced.eval_node hLive hTerminal, topVar_neg,
        m.low_neg hLive.1, m.high_neg hLive.1,
        ihLow, ihHigh]
      split <;> rfl

theorem eval_negateIf
    (hReduced : m.Reduced)
    (hLive : m.IsLive r)
    (negate : Bool) :
    m.eval (r.negateIf negate) a =
      (negate != m.eval r a) := by
  cases negate
  · simp
  · simp [hReduced.eval_neg hLive]

end Reduced

------------------------------------------------------------
-- Tested Variables
------------------------------------------------------------

/- A variable is tested somewhere in the diagram of a handle. -/
inductive Tests (m : Manager) : Handle → Nat → Prop where
  | top {r : Handle} (hTerminal : r.isTerminal = false) :
      Tests m r (m.topVar r)
  | low {r : Handle} {v : Nat}
      (hTerminal : r.isTerminal = false)
      (hTests : Tests m (m.low r) v) :
      Tests m r v
  | high {r : Handle} {v : Nat}
      (hTerminal : r.isTerminal = false)
      (hTests : Tests m (m.high r) v) :
      Tests m r v

namespace Reduced

/- A variable that is above a handle is less than all it tests. -/
theorem lt_of_tests
    (hReduced : m.Reduced)
    {v w : Nat}
    (hTests : m.Tests r w)
    (hLive : m.IsLive r)
    (hAbove : m.IsAbove v r) :
    v < w := by
  induction hTests with
  | top hTerminal =>
      exact hAbove.resolve_left (by simp [hTerminal])
  | low hTerminal _ ih =>
      have hLow := hReduced.low_child hLive hTerminal
      have hTop := hAbove.resolve_left (by simp [hTerminal])
      exact ih hLow.1 (hLow.2.mono (by omega))
  | high hTerminal _ ih =>
      have hHigh := hReduced.high_child hLive hTerminal
      have hTop := hAbove.resolve_left (by simp [hTerminal])
      exact ih hHigh.1 (hHigh.2.mono (by omega))

/- The value of a diagram depends on the variables it tests. -/
theorem eval_congr
    (hReduced : m.Reduced)
    (hLive : m.IsLive r)
    (hAgree : ∀ v, m.Tests r v → a v = b v) :
    m.eval r a = m.eval r b := by
  induction r, hLive using hReduced.induction with
  | one => simp
  | zero => simp
  | node r hLive hTerminal ihLow ihHigh =>
      rw [hReduced.eval_node hLive hTerminal,
        hReduced.eval_node hLive hTerminal,
        hAgree _ (.top hTerminal),
        ihLow fun v hv => hAgree v (.low hTerminal hv),
        ihHigh fun v hv => hAgree v (.high hTerminal hv)]

/- A diagram does not depend on a variable that is above it. -/
theorem eval_update
    (hReduced : m.Reduced)
    (hLive : m.IsLive r)
    {v : Nat}
    (hAbove : m.IsAbove v r)
    (x : Bool) :
    m.eval r (Function.update a v x) = m.eval r a := by
  apply hReduced.eval_congr hLive
  intro w hw
  have hLess := hReduced.lt_of_tests hw hLive hAbove
  have hNe : w ≠ v := by omega
  exact Function.update_of_ne hNe x a

/- A child has the values that its node has where it is chosen. -/
theorem eval_low
    (hReduced : m.Reduced)
    (hLive : m.IsLive r)
    (hTerminal : r.isTerminal = false) :
    m.eval (m.low r) a =
      m.eval r (Function.update a (m.topVar r) false) := by
  have hLow := hReduced.low_child hLive hTerminal
  rw [hReduced.eval_node hLive hTerminal]
  simp [hReduced.eval_update hLow.1 hLow.2]

theorem eval_high
    (hReduced : m.Reduced)
    (hLive : m.IsLive r)
    (hTerminal : r.isTerminal = false) :
    m.eval (m.high r) a =
      m.eval r (Function.update a (m.topVar r) true) := by
  have hHigh := hReduced.high_child hLive hTerminal
  rw [hReduced.eval_node hLive hTerminal]
  simp [hReduced.eval_update hHigh.1 hHigh.2]

end Reduced

------------------------------------------------------------
-- Extended Managers
------------------------------------------------------------

/- A manager keeps all live nodes of another one. -/
def Extends (m m' : Manager) : Prop :=
  ∀ r, m.IsLive r → m'.IsLive r ∧ m'.node r = m.node r

namespace Extends

theorem refl (m : Manager) : m.Extends m :=
  fun _ hLive => ⟨hLive, rfl⟩

theorem trans
    {m'' : Manager}
    (hFirst : m.Extends m')
    (hSecond : m'.Extends m'') :
    m.Extends m'' := by
  intro r hLive
  rcases hFirst r hLive with ⟨hLive', hNode⟩
  rcases hSecond r hLive' with ⟨hLive'', hNode'⟩
  exact ⟨hLive'', hNode'.trans hNode⟩

variable (hExtends : m.Extends m')
include hExtends

theorem isLive
    (hLive : m.IsLive r) :
    m'.IsLive r :=
  (hExtends r hLive).1

theorem topVar_eq
    (hLive : m.IsLive r) :
    m'.topVar r = m.topVar r := by
  rw [topVar, (hExtends r hLive).2, topVar]

theorem low_eq
    (hLive : m.IsLive r) :
    m'.low r = m.low r := by
  rw [low, (hExtends r hLive).2, low]

theorem high_eq
    (hLive : m.IsLive r) :
    m'.high r = m.high r := by
  rw [high, (hExtends r hLive).2, high]

theorem isAbove_iff
    (hLive : m.IsLive r)
    (v : Nat) :
    m'.IsAbove v r ↔ m.IsAbove v r := by
  simp [IsAbove, hExtends.topVar_eq hLive]

/- A canonical node stays canonical. -/
theorem isCanonical
    {n : Node}
    (hNode : m.IsCanonical n) :
    m'.IsCanonical n where
  var_pos := hNode.var_pos
  low_live := hExtends.isLive hNode.low_live
  high_live := hExtends.isLive hNode.high_live
  low_ne_high := hNode.low_ne_high
  high_regular := hNode.high_regular
  above_low :=
    (hExtends.isAbove_iff hNode.low_live _).mpr
      hNode.above_low
  above_high :=
    (hExtends.isAbove_iff hNode.high_live _).mpr
      hNode.above_high

/- What was there keeps its value. -/
theorem eval_eq
    (hReduced : m.Reduced)
    (hReduced' : m'.Reduced)
    (hLive : m.IsLive r) :
    m'.eval r a = m.eval r a := by
  induction r, hLive using hReduced.induction with
  | one => simp
  | zero => simp
  | node r hLive hTerminal ihLow ihHigh =>
      rw [hReduced'.eval_node (hExtends.isLive hLive)
          hTerminal,
        hReduced.eval_node hLive hTerminal,
        hExtends.topVar_eq hLive, hExtends.low_eq hLive,
        hExtends.high_eq hLive, ihLow, ihHigh]

end Extends

end Manager

end Diagram

end Variability
