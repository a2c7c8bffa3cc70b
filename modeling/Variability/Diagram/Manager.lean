import Variability.Diagram.Handle
import Variability.Diagram.Table
import Variability.Diagram.Cache

/-
  Decision diagrams with complemented edges.

  A manager shares all nodes in one table. Node 1 is the only
  terminal; every other node tests a variable, and variables
  grow downwards. The high edge of a node is never complemented
  and its two edges differ, so a function has one handle.

  Main definitions:
    * `Manager`
    * `Manager.mkNode`, `Manager.cube`, `Manager.cube?`
    * `Manager.ite`
    * `Manager.eval`
    * `Manager.collectGarbage`
-/

namespace Variability

namespace Diagram

------------------------------------------------------------
-- Nodes
------------------------------------------------------------

/- A node: if `var` then `high` else `low`. -/
structure Node where
  var : Nat := 0
  low : Handle := ⟨0⟩
  high : Handle := ⟨0⟩
  deriving DecidableEq, Repr

/- The content of the terminal and of cells that were never used. -/
instance : Inhabited Node := ⟨{}⟩

instance : Spread Node where
  spread n :=
    pairThree n.var.toUInt64 n.low.word64 n.high.word64

/- The arguments of an if-then-else. -/
structure Triple where
  test : Handle
  yes : Handle
  no : Handle
  deriving DecidableEq, Repr

instance : Spread Triple where
  spread t :=
    pairThree t.test.word64 t.yes.word64 t.no.word64

------------------------------------------------------------
-- Managers
------------------------------------------------------------

/- The shared nodes and the results computed so far. -/
structure Manager where
  nodes : Table Node
  computed : Cache Triple Handle

namespace Manager

/- A manager that holds only the terminal. -/
def empty (bits : Nat) : Manager where
  nodes := ((Table.empty bits).add {}).2
  computed := Cache.empty (min bits Table.maxBucketBits)

/- A manager with room for `2 ^ bits` nodes, if it may have that many. -/
def create? (bits : Nat) : Option Manager :=
  if bits ≤ maxBits then some (empty bits) else none

/- The bits of a manager whose size was not chosen. -/
def defaultBits : Nat := 16

instance : Inhabited Manager := ⟨empty defaultBits⟩

/- The node that a handle names. -/
def node (m : Manager) (r : Handle) : Node :=
  m.nodes.value r.index

/- Whether a handle names a cell at all. -/
def knows (m : Manager) (r : Handle) : Bool :=
  (m.nodes.cell? r.index).isSome

/- How many nodes are live, the terminal included. -/
def liveCount (m : Manager) : Nat :=
  m.nodes.count

/- The variable that a handle tests first, 0 for a constant. -/
def topVar (m : Manager) (r : Handle) : Nat :=
  (m.node r).var

/- The function where the top variable is false. -/
def low (m : Manager) (r : Handle) : Handle :=
  (m.node r).low.negateIf r.negated

/- The function where the top variable is true. -/
def high (m : Manager) (r : Handle) : Handle :=
  (m.node r).high.negateIf r.negated

/- Both cofactors by a variable at or above the top. -/
def cofactors
    (m : Manager)
    (r : Handle)
    (v : Nat) :
    Handle × Handle :=
  if r.isTerminal || decide (v < m.topVar r) then
    (r, r)
  else
    (m.low r, m.high r)

/- Cofactors are defined by variables at or above the top only. -/
def cofactorsDefined (m : Manager) (r : Handle) (v : Nat) : Bool :=
  r.isTerminal || (m.knows r && decide (v ≤ m.topVar r))

/- The handle of a node, in the canonical form. -/
def mkNode
    (m : Manager)
    (v : Nat)
    (low high : Handle) :
    Handle × Manager :=
  let negate := high.negated
  let low := low.negateIf negate
  let high := high.negateIf negate
  if low = high then
    (low.negateIf negate, m)
  else
    let (i, nodes) := m.nodes.put { var := v, low, high }
    ((Handle.ofIndex i).negateIf negate, { m with nodes })

/- The function of a single variable. -/
def mkVar (m : Manager) (v : Nat) : Handle × Manager :=
  m.mkNode v .zero .one

/- The conjunction of a signed variable with a function below it. -/
def addLiteral
    (state : Handle × Manager)
    (literal : Int) :
    Handle × Manager :=
  let (r, m) := state
  if literal < 0 then
    m.mkNode literal.natAbs r .zero
  else
    m.mkNode literal.natAbs .zero r

/- The conjunction of signed variables, built from the greatest variable up. -/
def cube (m : Manager) (literals : List Int) : Handle × Manager :=
  let sorted :=
    literals.mergeSort fun a b => decide (b.natAbs ≤ a.natAbs)
  sorted.foldl addLiteral (.one, m)

/- The least 32-bit number; it has no absolute value. -/
def leastLiteral : Int := -2147483648

/-
  The conjunction of signed variables, if all of them have a
  variable and, where they must be ordered, an absolute value.
-/
def cube? (m : Manager) (literals : List Int) : Option (Handle × Manager) :=
  if 0 ∈ literals ∨ 1 < literals.length ∧ leastLiteral ∈ literals then
    none
  else
    some (m.cube literals)

------------------------------------------------------------
-- If-Then-Else
------------------------------------------------------------

/- An if-then-else that needs no node, if it is one. -/
def trivialIte (t : Triple) : Option Handle :=
  if t.test = .one then some t.yes
  else if t.test = .zero then some t.no
  else if t.yes = t.no then some t.yes
  else if t.yes = .one ∧ t.no = .zero then some t.test
  else if t.yes = .zero ∧ t.no = .one then some (-t.test)
  else none

/- Branches that repeat the test are constants there. -/
def constantBranches (t : Triple) : Triple where
  test := t.test
  yes :=
    if t.yes = t.test then .one
    else if t.yes = -t.test then .zero
    else t.yes
  no :=
    if t.no = t.test then .zero
    else if t.no = -t.test then .one
    else t.no

/-
  The same function with a test and a first branch that are
  not complemented, up to a complement of the result.
-/
def regular (t : Triple) : Triple × Bool :=
  let t :=
    if t.test.negated then
      { test := -t.test, yes := t.no, no := t.yes : Triple }
    else
      t
  if t.yes.negated then
    ({ t with yes := -t.yes, no := -t.no }, true)
  else
    (t, false)

/- Either the result or the standard triple to compute. -/
def standardize (t : Triple) : Handle ⊕ (Triple × Bool) :=
  match trivialIte t with
  | some r => .inl r
  | none =>
      let t := constantBranches t
      match trivialIte t with
      | some r => .inl r
      | none => .inr (regular t)

/- The least variable that a triple tests. -/
def splitVar (m : Manager) (t : Triple) : Nat :=
  let tested :=
    ([t.test, t.yes, t.no].filter (!·.isTerminal)).map m.topVar
  tested.min?.getD 0

/-
  Compute an if-then-else by splitting on top variables, at
  most `depth` times one below the other.
-/
def iteWithin :
    (depth : Nat) →
    Triple →
    Manager →
    Handle × Manager
  | 0, t, m => (t.test, m)
  | depth + 1, t, m =>
      match standardize t with
      | .inl r => (r, m)
      | .inr (t, negate) =>
          let (known, computed) := m.computed.find t
          let m := { m with computed }
          match known with
          | some r => (r.negateIf negate, m)
          | none =>
              let v := m.splitVar t
              let (test0, test1) := m.cofactors t.test v
              let (yes0, yes1) := m.cofactors t.yes v
              let (no0, no1) := m.cofactors t.no v
              let (e, m) := iteWithin depth ⟨test0, yes0, no0⟩ m
              let (h, m) := iteWithin depth ⟨test1, yes1, no1⟩ m
              let (r, m) := m.mkNode v e h
              ( r.negateIf negate,
                { m with computed := m.computed.insert t r } )

/-
  No path is longer than the number of live nodes, and each
  split moves at least one of three handles one node down.
-/
def depthBound (m : Manager) : Nat :=
  3 * m.liveCount + 1

/- If `f` then `g` else `h`. -/
def ite
    (m : Manager)
    (f g h : Handle) :
    Handle × Manager :=
  iteWithin m.depthBound ⟨f, g, h⟩ m

/- Whether an if-then-else only reads nodes that exist. -/
def iteDefined (m : Manager) (f g h : Handle) : Bool :=
  match standardize ⟨f, g, h⟩ with
  | .inl _ => true
  | .inr (t, _) => m.knows t.test && m.knows t.yes && m.knows t.no

/- Conjunction. -/
def and (m : Manager) (f g : Handle) : Handle × Manager :=
  m.ite f g .zero

/- Disjunction. -/
def or (m : Manager) (f g : Handle) : Handle × Manager :=
  m.ite f .one g

/- The conjunction of a list. -/
def andMany (m : Manager) (fs : List Handle) : Handle × Manager :=
  fs.foldl (fun (r, m) f => m.and r f) (.one, m)

/- The disjunction of a list. -/
def orMany (m : Manager) (fs : List Handle) : Handle × Manager :=
  fs.foldl (fun (r, m) f => m.or r f) (.zero, m)

/- Whether `f` implies `g`. -/
def implies (m : Manager) (f g : Handle) : Bool × Manager :=
  let (r, m) := m.and f (-g)
  (r == .zero, m)

------------------------------------------------------------
-- Meaning
------------------------------------------------------------

/- Follow an assignment down, at most `steps` nodes. -/
def evalWithin
    (m : Manager)
    (a : Nat → Bool) :
    (steps : Nat) → Handle → Bool
  | 0, r => r == .one
  | steps + 1, r =>
      if r.isTerminal then
        r == .one
      else if a (m.topVar r) then
        evalWithin m a steps (m.high r)
      else
        evalWithin m a steps (m.low r)

/- The value of a function under an assignment of the variables. -/
def eval
    (m : Manager)
    (r : Handle)
    (a : Nat → Bool) :
    Bool :=
  m.evalWithin a m.liveCount r

------------------------------------------------------------
-- Reachability and Garbage
------------------------------------------------------------

/- Marking an unmarked cell leaves fewer unmarked ones. -/
theorem count_false_set_lt
    {n i : Nat}
    (marked : Vector Bool n)
    (h : i < n)
    (hi : ¬ marked[i] = true) :
    (marked.set i true).count false < marked.count false := by
  have hset :
      (marked.set i true).count false =
        marked.count false - (if marked[i] == false then 1 else 0)
          + (if true == false then 1 else 0) :=
    Vector.count_set h
  have hpos : 0 < marked.count false :=
    Vector.count_pos_iff.2 (by
      rw [Bool.not_eq_true] at hi
      exact hi ▸ Vector.getElem_mem h)
  grind

/- Mark the nodes reachable from the cells in `work`. -/
def mark
    {n : Nat}
    (m : Manager)
    (work : List Nat)
    (marked : Vector Bool n) :
    Vector Bool n :=
  match work with
  | [] => marked
  | i :: work =>
      if _h : i < n then
        if marked[i] then
          mark m work marked
        else
          let node := m.nodes.value i
          mark m (node.low.index :: node.high.index :: work)
            (marked.set i true)
      else
        mark m work marked
  termination_by (marked.count false, work.length)
  decreasing_by
    · exact Prod.Lex.right _ (by simp)
    · exact Prod.Lex.left _ _
        (count_false_set_lt marked _h ‹_›)
    · exact Prod.Lex.right _ (by simp)

/- The cells reachable from some handles, the terminal among them. -/
def reachable
    (m : Manager)
    (roots : List Handle) :
    Vector Bool m.nodes.capacity :=
  m.mark (roots.map Handle.index)
    ((Vector.replicate _ false).setIfInBounds 1 true)

/- The reachable cells in increasing order. -/
def descendants (m : Manager) (roots : List Handle) : List Nat :=
  let marked := m.reachable roots
  (List.range m.nodes.capacity).filter (marked.toArray.getD · false)

/- How many nodes a function has, the terminal included. -/
def size (m : Manager) (r : Handle) : Nat :=
  (m.reachable [r]).count true

/- Free every node that no root reaches, and forget all results. -/
def collectGarbage (m : Manager) (roots : List Handle) : Manager :=
  let alive := (m.reachable roots).toArray
  { nodes :=
      (List.range m.nodes.buckets.size).foldl
        (Table.sweep (alive.getD · false)) m.nodes
    computed := m.computed.clear }

------------------------------------------------------------
-- Text
------------------------------------------------------------

/- The written form of a function, at most `depth` nodes deep. -/
def textWithin (m : Manager) : (depth : Nat) → Handle → String
  | 0, _ => ""
  | depth + 1, r =>
      if r = .zero then "(0)"
      else if r = .one then "(1)"
      else
        r.text ++ ":(x" ++ toString (m.topVar r) ++ ", " ++
          textWithin m depth (m.high r) ++ ", " ++
          textWithin m depth (m.low r) ++ ")"

/- A function with its variables and branches in brackets. -/
def text (m : Manager) (r : Handle) : String :=
  m.textWithin (m.liveCount + 1) r

/- The sizes of the node table in words. -/
def summary (m : Manager) : String :=
  "Bdd \x7b capacity: " ++ toString m.nodes.capacity ++
    ", size: " ++ toString m.nodes.last ++
    ", real_size: " ++ toString m.nodes.count ++ " \x7d"

end Manager

end Diagram

end Variability
