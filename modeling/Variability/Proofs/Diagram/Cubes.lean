import Mathlib
import Variability.Proofs.Diagram.Recomputing
import Variability.Proofs.Diagram.Runs

/-
  Cubes against conjunctions of literals.

  A cube puts one node over the other without looking at the
  nodes below. This is the conjunction of its literals exactly if
  no variable occurs twice: a node over its own variable is not
  canonical, so no handle of a reduced manager leads through it.

  Main declarations:
    * `Manager.conjoin`
    * `Manager.Tower`
    * `Manager.Reached.foldl_addLiteral`
    * `Manager.Tower.descends`
    * `Manager.Reached.cube_conjoins_iff`
-/

namespace Variability

namespace Diagram

namespace Manager

variable {m m' : Manager}
variable {r s low high : Handle}
variable {v : Nat}
variable {l : Int}
variable {ls : List Int}

------------------------------------------------------------
-- Literals
------------------------------------------------------------

/- Whether a signed variable is true under an assignment. -/
def literalValue (a : Nat → Bool) (l : Int) : Bool :=
  if l < 0 then !a l.natAbs else a l.natAbs

/- The function of a signed variable. -/
def literal (m : Manager) (l : Int) : Handle × Manager :=
  let (r, m) := m.mkVar l.natAbs
  (r.negateIf (decide (l < 0)), m)

/- The functions of signed variables, one after the other. -/
def literals (m : Manager) : List Int → List Handle × Manager
  | [] => ([], m)
  | l :: ls =>
      let (f, m) := m.literal l
      let (fs, m) := literals m ls
      (f :: fs, m)

/- The conjunction of the functions of signed variables. -/
def conjoin (m : Manager) (ls : List Int) : Handle × Manager :=
  let (fs, m) := m.literals ls
  m.andMany fs

theorem Reached.literal
    (hReached : m.Reached)
    (hNonzero : l ≠ 0) :
    (m.literal l).2.Reached ∧
      m.Makes (literalValue · l) (m.literal l) := by
  have hPos : 0 < l.natAbs := Int.natAbs_pos.mpr hNonzero
  have hMade := hReached.sound.makes_mkVar hPos
  refine
    ⟨hReached.construct (.var l.natAbs) hPos, hMade.sound,
      hMade.keeps, (isLive_negateIf _ _ _).mpr hMade.isLive,
      fun a => ?_⟩
  refine
    (hMade.sound.reduced.eval_negateIf hMade.isLive _).trans ?_
  rw [hMade.eval_eq, literalValue]
  by_cases hSign : l < 0 <;> simp [hSign]

/- The functions of signed variables in a manager that keeps all. -/
structure Lists
    (m : Manager)
    (ls : List Int)
    (out : List Handle × Manager) : Prop where
  reached : out.2.Reached
  keeps : m.Extends out.2
  isLive : ∀ f ∈ out.1, out.2.IsLive f
  eval_eq : ∀ a, out.1.map (out.2.eval · a) = ls.map (literalValue a)

theorem Reached.literals
    (hReached : m.Reached)
    (hNonzero : ∀ l ∈ ls, l ≠ 0) :
    m.Lists ls (m.literals ls) := by
  induction ls generalizing m with
  | nil => exact ⟨hReached, .refl m, nofun, fun _ => rfl⟩
  | cons l ls ih =>
      rw [List.forall_mem_cons] at hNonzero
      rcases hReached.literal hNonzero.1 with ⟨hNext, hMade⟩
      have hRest := ih hNext hNonzero.2
      have hFirst := hRest.keeps.isLive hMade.isLive
      refine
        ⟨hRest.reached, hMade.keeps.trans hRest.keeps,
          List.forall_mem_cons.mpr ⟨hFirst, hRest.isLive⟩,
          fun a => ?_⟩
      refine congrArg₂ List.cons ?_ (hRest.eval_eq a)
      rw [← hMade.eval_eq]
      exact
        hRest.keeps.eval_eq hMade.sound.reduced
          hRest.reached.sound.reduced hMade.isLive

theorem Reached.conjoin
    (hReached : m.Reached)
    (hNonzero : ∀ l ∈ ls, l ≠ 0) :
    (m.conjoin ls).2.Reached ∧
      m.Makes (fun a => ls.all (literalValue a)) (m.conjoin ls) := by
  have hList := hReached.literals hNonzero
  have hMade := hList.reached.sound.makes_andMany hList.isLive
  refine
    ⟨hList.reached.construct (.andMany _) hList.isLive,
      hMade.sound, hList.keeps.trans hMade.keeps, hMade.isLive,
      fun a => (hMade.eval_eq a).trans ?_⟩
  calc (m.literals ls).1.all ((m.literals ls).2.eval · a)
    _ = ((m.literals ls).1.map
          ((m.literals ls).2.eval · a)).all id := by
        rw [List.all_map]
        rfl
    _ = (ls.map (literalValue a)).all id := by rw [hList.eval_eq a]
    _ = ls.all (literalValue a) := by
        rw [List.all_map]
        rfl

/- A function that is made again has the handle that it had. -/
theorem Makes.fst_eq
    {value : (Nat → Bool) → Bool}
    {out out' : Handle × Manager}
    (hFirst : m.Makes value out)
    (hSecond : out.2.Makes value out') :
    out'.1 = out.1 :=
  hSecond.sound.reduced.eq_of_eval_eq hSecond.isLive
    (hSecond.keeps.isLive hFirst.isLive) fun a => by
      rw [hSecond.eval_eq,
        hSecond.keeps.eval_eq hFirst.sound.reduced
          hSecond.sound.reduced hFirst.isLive,
        hFirst.eval_eq]

------------------------------------------------------------
-- Literals over Functions
------------------------------------------------------------

/- Where the variable is false, a literal over a function. -/
def literalLow (l : Int) (r : Handle) : Handle :=
  if l < 0 then r else .zero

/- Where the variable is true, a literal over a function. -/
def literalHigh (l : Int) (r : Handle) : Handle :=
  if l < 0 then .zero else r

theorem addLiteral_eq
    (state : Handle × Manager)
    (l : Int) :
    addLiteral state l =
      state.2.mkNode l.natAbs (literalLow l state.1)
        (literalHigh l state.1) := by
  unfold addLiteral literalLow literalHigh
  split_ifs <;> rfl

theorem literalLow_ne_literalHigh
    (hNonzero : r ≠ .zero)
    (l : Int) :
    literalLow l r ≠ literalHigh l r := by
  unfold literalLow literalHigh
  split
  · exact hNonzero
  · exact hNonzero.symm

/- What the branches are asked for is asked for the function. -/
theorem literal_branches
    {p : Handle → Prop}
    (hZero : p .zero)
    (l : Int) :
    p (literalLow l r) ∧ p (literalHigh l r) ↔ p r := by
  unfold literalLow literalHigh
  split <;> simp [hZero]

theorem eval_literal_branches
    (m : Manager)
    (a : Nat → Bool)
    (l : Int)
    (r : Handle) :
    (if a l.natAbs then m.eval (literalHigh l r) a
      else m.eval (literalLow l r) a) =
      (m.eval r a && literalValue a l) := by
  unfold literalValue literalLow literalHigh
  split_ifs <;> simp_all

/-
  Literals with descending variables, all above a function, are
  put over it by allowed steps.
-/
theorem Reached.foldl_addLiteral
    (hReached : m.Reached)
    (hLive : m.IsLive r)
    (hNonzero : ∀ l ∈ ls, l ≠ 0)
    (hDescends : (ls.map Int.natAbs).Pairwise (· > ·))
    (hAbove : ∀ l ∈ ls, m.IsAbove l.natAbs r) :
    (ls.foldl addLiteral (r, m)).2.Reached ∧
      m.Makes (fun a => m.eval r a && ls.all (literalValue a))
        (ls.foldl addLiteral (r, m)) := by
  induction ls generalizing m r with
  | nil =>
      exact
        ⟨hReached, hReached.sound, .refl m, hLive, fun a => by
          simp⟩
  | cons l ls ih =>
      rw [List.forall_mem_cons] at hNonzero hAbove
      rw [List.map_cons, List.pairwise_cons] at hDescends
      have hPos : 0 < l.natAbs := Int.natAbs_pos.mpr hNonzero.1
      have hReduced := hReached.sound.reduced
      rcases (literal_branches hReduced.isLive_zero l).mpr
          hLive with
        ⟨hLow, hHigh⟩
      rcases (literal_branches (p := m.IsAbove l.natAbs)
          (Or.inl rfl) l).mpr hAbove.1 with
        ⟨hAboveLow, hAboveHigh⟩
      have hMade :=
        hReduced.mkNode hPos hLow hHigh hAboveLow hAboveHigh
      have hNext :=
        hReached.construct
          (.node l.natAbs (literalLow l r) (literalHigh l r))
          ⟨hPos, ⟨hLow, hHigh⟩, hAboveLow, hAboveHigh⟩
      have hStill : ∀ l' ∈ ls, _ := fun l' hMem =>
        hMade.isAbove l'.natAbs
          (hDescends.1 _ (List.mem_map_of_mem hMem))
      rcases ih hNext hMade.isLive hNonzero.2 hDescends.2
          hStill with
        ⟨hLast, hRest⟩
      rw [List.foldl_cons, addLiteral_eq]
      refine
        ⟨hLast, hRest.sound, hMade.keeps.trans hRest.keeps,
          hRest.isLive, fun a => (hRest.eval_eq a).trans ?_⟩
      refine (congrArg (· && _) (hMade.eval_eq a)).trans ?_
      rw [eval_literal_branches, Bool.and_assoc, List.all_cons]

------------------------------------------------------------
-- Towers
------------------------------------------------------------

namespace Holds

variable (hHolds : m.Holds v low high s)
variable (hNe : low ≠ high)
include hHolds hNe

theorem isTerminal_eq : s.isTerminal = false := by
  cases hHolds with
  | same => exact absurd rfl hNe
  | node _ hNode _ =>
      have hOne := hNode.1
      simp [Handle.isTerminal]
      omega

/- In a reduced manager, what is at hand is canonical. -/
theorem isCanonical
    (hReduced : m.Reduced) :
    m.IsCanonical (Node.regular v low high) ∧
      m.topVar s = v := by
  cases hHolds with
  | same => exact absurd rfl hNe
  | @node _ i _ hNode hValue =>
      rw [← hValue]
      refine ⟨hReduced.isCanonical i hNode, ?_⟩
      simp [topVar, Manager.node, hValue, Node.regular]

/- A node that is live before is at hand before. -/
theorem of_extends
    (hIntact : m'.Intact)
    (hExtends : m'.Extends m)
    (hLive : m'.IsLive s) :
    m'.Holds v low high s ∧ m'.IsLive low ∧ m'.IsLive high := by
  cases hHolds with
  | same => exact absurd rfl hNe
  | @node _ i _ hNode hValue =>
      rw [isLive_negateIf] at hLive
      have hNode' : m'.IsNode i := ⟨hNode.1, hLive.2⟩
      have hValue' :
          m'.nodes.value i = Node.regular v low high :=
        (hExtends _ hLive).2.symm.trans hValue
      have hEdges := hIntact.edges_live i hNode'
      rw [hValue'] at hEdges
      refine ⟨.node hNe hNode' hValue', ?_⟩
      simpa [Node.regular] using hEdges

end Holds

/-
  The nodes of literals, each over the one before it, from a
  function up to another one.
-/
inductive Tower (m : Manager) : Handle → List Int → Handle → Prop where
  | nil (r : Handle) : Tower m r [] r
  | cons {r s t : Handle} {l : Int} {ls : List Int}
      (hHolds :
        m.Holds l.natAbs (literalLow l r) (literalHigh l r) s)
      (hRest : Tower m s ls t) :
      Tower m r (l :: ls) t

/- What putting literals over a function leaves, canonical or not. -/
structure Raises
    (m : Manager)
    (r : Handle)
    (ls : List Int)
    (out : Handle × Manager) : Prop where
  intact : out.2.Intact
  keeps : m.Extends out.2
  isLive : out.2.IsLive out.1
  tower : out.2.Tower r ls out.1

theorem Intact.isLive_zero
    (hIntact : m.Intact) :
    m.IsLive .zero :=
  (m.isLive_neg .one).mpr hIntact.isLive_one

theorem Intact.foldl_addLiteral
    (hIntact : m.Intact)
    (hLive : m.IsLive r)
    (ls : List Int) :
    m.Raises r ls (ls.foldl addLiteral (r, m)) := by
  induction ls generalizing m r with
  | nil => exact ⟨hIntact, .refl m, hLive, .nil r⟩
  | cons l ls ih =>
      rcases (literal_branches hIntact.isLive_zero l).mpr
          hLive with
        ⟨hLow, hHigh⟩
      have hMade := hIntact.mkNode (v := l.natAbs) hLow hHigh
      have hRest :=
        ih hMade.intact
          (hMade.holds.isLive (hMade.keeps.isLive hLow))
      rw [List.foldl_cons, addLiteral_eq]
      exact
        ⟨hRest.intact, hMade.keeps.trans hRest.keeps,
          hRest.isLive,
          .cons (hMade.holds.extends hRest.keeps) hRest.tower⟩

namespace Tower

variable (hTower : m.Tower r ls s)
variable (hNonzero : r ≠ .zero)
include hTower hNonzero

/- A tower whose top is live before stands before. -/
theorem of_extends
    (hIntact : m'.Intact)
    (hExtends : m'.Extends m)
    (hLive : m'.IsLive s) :
    m'.Tower r ls s ∧ m'.IsLive r := by
  induction hTower with
  | nil r => exact ⟨.nil r, hLive⟩
  | @cons r s t l ls hHolds hRest ih =>
      have hNe := literalLow_ne_literalHigh hNonzero l
      have hInner : s ≠ .zero := by
        rintro rfl
        cases hHolds.isTerminal_eq hNe
      rcases ih hInner hLive with ⟨hUpper, hMiddle⟩
      rcases hHolds.of_extends hNe hIntact hExtends hMiddle with
        ⟨hHolds', hEdges⟩
      exact
        ⟨.cons hHolds' hUpper,
          (literal_branches hIntact.isLive_zero l).mp hEdges⟩

/- The variables of a canonical tower descend from a function up. -/
theorem descends
    (hReduced : m.Reduced) :
    (ls.map Int.natAbs).Pairwise (· > ·) ∧
      ∀ l ∈ ls, m.IsAbove l.natAbs r := by
  induction hTower with
  | nil r => exact ⟨List.Pairwise.nil, nofun⟩
  | @cons r s t l ls hHolds hRest ih =>
      have hNe := literalLow_ne_literalHigh hNonzero l
      have hNode := hHolds.isTerminal_eq hNe
      have hInner : s ≠ .zero := by
        rintro rfl
        cases hNode
      rcases hHolds.isCanonical hNe hReduced with
        ⟨hCanonical, hTop⟩
      rcases ih hInner with ⟨hDescends, hAbove⟩
      have hUnder : m.IsAbove l.natAbs r := by
        apply (literal_branches (Or.inl rfl) l).mp
        simpa [Node.regular] using
          And.intro hCanonical.above_low hCanonical.above_high
      have hLess : ∀ l' ∈ ls, l'.natAbs < l.natAbs :=
        fun l' hMem => by
          have hOver := (hAbove l' hMem).resolve_left
          rw [hNode, hTop] at hOver
          exact hOver Bool.false_ne_true
      refine
        ⟨List.pairwise_cons.mpr ⟨?_, hDescends⟩,
          List.forall_mem_cons.mpr
            ⟨hUnder, fun l' hMem =>
              hUnder.mono (hLess l' hMem).le⟩⟩
      rw [List.forall_mem_map]
      exact hLess

end Tower

------------------------------------------------------------
-- Cubes
------------------------------------------------------------

/- No variable has two literals. -/
def AreDistinct (ls : List Int) : Prop :=
  (ls.map Int.natAbs).Nodup

instance (ls : List Int) : Decidable (AreDistinct ls) := by
  unfold AreDistinct
  infer_instance

/- The literals in the order in which a cube takes them. -/
def fromGreatest (ls : List Int) : List Int :=
  ls.mergeSort fun a b => decide (b.natAbs ≤ a.natAbs)

theorem fromGreatest_perm (ls : List Int) :
    (fromGreatest ls).Perm ls :=
  List.mergeSort_perm ls _

theorem all_fromGreatest
    (ls : List Int)
    (p : Int → Bool) :
    (fromGreatest ls).all p = ls.all p :=
  (fromGreatest_perm ls).all_eq

/- Sorted literals descend strictly if they are distinct. -/
theorem descends_fromGreatest_iff (ls : List Int) :
    ((fromGreatest ls).map Int.natAbs).Pairwise (· > ·) ↔
      AreDistinct ls := by
  have hPerm := (fromGreatest_perm ls).map Int.natAbs
  unfold AreDistinct
  rw [← hPerm.nodup_iff]
  constructor
  · exact fun hDescends => hDescends.imp ne_of_gt
  · intro hNodup
    have hSorted :
        (fromGreatest ls).Pairwise
          fun a b => decide (b.natAbs ≤ a.natAbs) = true := by
      apply List.pairwise_mergeSort
      · simp only [decide_eq_true_eq]
        omega
      · simp only [Bool.or_eq_true, decide_eq_true_eq]
        omega
    have hWeak :
        ((fromGreatest ls).map Int.natAbs).Pairwise (· ≥ ·) :=
      List.pairwise_map.mpr
        (hSorted.imp fun hLess => of_decide_eq_true hLess)
    exact
      hNodup.imp₂ (fun a b hNe hLess => by omega) hWeak

theorem Reached.cube
    (hReached : m.Reached)
    (hNonzero : ∀ l ∈ ls, l ≠ 0)
    (hDistinct : AreDistinct ls) :
    (m.cube ls).2.Reached ∧
      m.Makes (fun a => ls.all (literalValue a)) (m.cube ls) := by
  have hPerm := fromGreatest_perm ls
  have hMade :=
    hReached.foldl_addLiteral hReached.sound.reduced.isLive_one
      (fun l hMem => hNonzero l (hPerm.mem_iff.mp hMem))
      ((descends_fromGreatest_iff ls).mpr hDistinct)
      fun _ _ => Or.inl rfl
  refine ⟨hMade.1, hMade.2.congr fun a => ?_⟩
  rw [m.eval_one, Bool.true_and, all_fromGreatest]

theorem Intact.cube
    (hIntact : m.Intact)
    (ls : List Int) :
    m.Raises .one (fromGreatest ls) (m.cube ls) :=
  hIntact.foldl_addLiteral hIntact.isLive_one (fromGreatest ls)

/- The literals of a cube with a canonical handle are distinct. -/
theorem Raises.areDistinct
    {out : Handle × Manager}
    (hRaises : m.Raises .one (fromGreatest ls) out)
    (hReduced : m'.Reduced)
    (hExtends : m'.Extends out.2)
    (hLive : m'.IsLive out.1) :
    AreDistinct ls := by
  have hOne : Handle.one ≠ .zero := by decide
  have hTower :=
    (hRaises.tower.of_extends hOne hReduced.intact hExtends
      hLive).1
  exact
    (descends_fromGreatest_iff ls).mp
      (hTower.descends hOne hReduced).1

theorem cube?_eq_some_iff
    (hNonzero : ∀ l ∈ ls, l ≠ 0)
    (out : Handle × Manager) :
    m.cube? ls = some out ↔
      m.cube ls = out ∧
        (ls.length ≤ 1 ∨ leastLiteral ∉ ls) := by
  have hZero : 0 ∉ ls := fun hMem => hNonzero 0 hMem rfl
  have hAbsolute :
      (1 < ls.length ∧ leastLiteral ∈ ls) ↔
        ¬ (ls.length ≤ 1 ∨ leastLiteral ∉ ls) := by
    rw [not_or, not_not, not_le]
  simp only [cube?, or_iff_right hZero, hAbsolute, ite_not]
  split_ifs with hAll <;> simp [hAll]

/-
  A cube of signed variables has a result if it is one at most, or
  if the least 32-bit number is not among them. The result is the
  conjunction of their functions exactly if no variable occurs
  twice, and exactly then its manager stays canonical.
-/
theorem Reached.cube_conjoins_iff
    (hReached : m.Reached)
    (hNonzero : ∀ l ∈ ls, l ≠ 0) :
    ((∃ out, m.cube? ls = some out) ↔
      ls.length ≤ 1 ∨ leastLiteral ∉ ls) ∧
    (((m.conjoin ls).2.cube? ls).map Prod.fst =
        some (m.conjoin ls).1 ↔
      AreDistinct ls ∧
        (ls.length ≤ 1 ∨ leastLiteral ∉ ls)) ∧
    ∀ out, m.cube? ls = some out →
      (out.2.Reduced ↔ AreDistinct ls) ∧
        (AreDistinct ls →
          out.2.Reached ∧
            m.Denotes (fun a => ls.all (literalValue a)) out ∧
            (out.2.conjoin ls).1 = out.1) := by
  have hReduced := hReached.sound.reduced
  rcases hReached.conjoin hNonzero with ⟨hLater, hConjoined⟩
  have hLaterReduced := hLater.sound.reduced
  refine ⟨?_, ⟨?_, ?_⟩, fun out hOut => ⟨⟨?_, ?_⟩, ?_⟩⟩
  · simp [cube?_eq_some_iff hNonzero]
  · intro hSame
    rcases Option.map_eq_some_iff.mp hSame with
      ⟨out, hOut, hHandle⟩
    rcases (cube?_eq_some_iff hNonzero out).mp hOut with
      ⟨rfl, hAll⟩
    have hRaises := hLaterReduced.intact.cube ls
    exact
      ⟨hRaises.areDistinct hLaterReduced hRaises.keeps
        (hHandle ▸ hConjoined.isLive), hAll⟩
  · rintro ⟨hDistinct, hAll⟩
    rw [(cube?_eq_some_iff hNonzero _).mpr ⟨rfl, hAll⟩,
      Option.map_some,
      hConjoined.fst_eq (hLater.cube hNonzero hDistinct).2]
  · intro hOutReduced
    rcases (cube?_eq_some_iff hNonzero out).mp hOut with
      ⟨rfl, -⟩
    have hRaises := hReduced.intact.cube ls
    exact
      hRaises.areDistinct hOutReduced (.refl _) hRaises.isLive
  · intro hDistinct
    rcases (cube?_eq_some_iff hNonzero out).mp hOut with
      ⟨rfl, -⟩
    exact
      (hReached.cube hNonzero hDistinct).1.sound.reduced
  · intro hDistinct
    rcases (cube?_eq_some_iff hNonzero out).mp hOut with
      ⟨rfl, -⟩
    rcases hReached.cube hNonzero hDistinct with
      ⟨hCube, hMade⟩
    exact
      ⟨hCube, hMade.denotes hReduced,
        hMade.fst_eq (hCube.conjoin hNonzero).2⟩

theorem cube_conjoins_iff_shortRun :
    shortRun.Reached ∧ (∀ l ∈ [(3 : Int), -1, 2], l ≠ 0) ∧
      ((shortRun.conjoin [3, -1, 2]).2.cube?
          [3, -1, 2]).map Prod.fst =
        some (shortRun.conjoin [3, -1, 2]).1 ∧
      (shortRun.cube [3, -1, 2]).2.Reduced := by
  have hNonzero : ∀ l ∈ [(3 : Int), -1, 2], l ≠ 0 := by decide
  have hDistinct : AreDistinct [3, -1, 2] := by decide
  have hSmall : leastLiteral ∉ [(3 : Int), -1, 2] := by decide
  rcases Reached.cube_conjoins_iff reached_shortRun hNonzero with
    ⟨hSome, hSame, hOut⟩
  rcases hSome.mpr (Or.inr hSmall) with ⟨out, hCube⟩
  rcases (cube?_eq_some_iff hNonzero out).mp hCube with
    ⟨rfl, -⟩
  exact
    ⟨reached_shortRun, hNonzero,
      hSame.mpr ⟨hDistinct, Or.inr hSmall⟩,
      (hOut _ hCube).1.mpr hDistinct⟩

/- The cube of a variable that occurs twice, after its conjunction. -/
def brokenRun : Manager :=
  (((Manager.empty 2).conjoin [1, 1]).2.cube [1, 1]).2

/- Two live handles of the variable. -/
theorem cube_breaks_brokenRun :
    (Manager.empty 2).Reached ∧
      ((Manager.empty 2).conjoin [1, 1]).1 = ⟨2⟩ ∧
      (((Manager.empty 2).conjoin [1, 1]).2.cube?
          [1, 1]).map Prod.fst =
        some ⟨3⟩ ∧
      brokenRun.IsLive ⟨2⟩ ∧ brokenRun.IsLive ⟨3⟩ ∧
      ∀ a, brokenRun.eval ⟨2⟩ a = a 1 ∧
        brokenRun.eval ⟨3⟩ a = a 1 := by
  refine
    ⟨.create (rfl : Manager.create? 2 = some _),
      by decide_cbv, by decide_cbv, by decide_cbv,
      by decide_cbv, fun a => ?_⟩
  have hCount : brokenRun.liveCount = 3 := by decide_cbv
  have hTop :
      brokenRun.topVar ⟨2⟩ = 1 ∧ brokenRun.topVar ⟨3⟩ = 1 := by
    decide_cbv
  have hLow :
      brokenRun.low ⟨2⟩ = .zero ∧ brokenRun.low ⟨3⟩ = .zero := by
    decide_cbv
  have hHigh :
      brokenRun.high ⟨2⟩ = .one ∧ brokenRun.high ⟨3⟩ = ⟨2⟩ := by
    decide_cbv
  cases hValue : a 1 <;>
    simp [eval, evalWithin, hCount, hTop, hLow, hHigh, hValue,
      Handle.isTerminal, Handle.index, Handle.zero, Handle.one]

end Manager

end Diagram

end Variability
