import Variability.Proofs.Expression.Arithmetic
import Variability.Proofs.Expression.Outcome
import Variability.Proofs.Expression.Parsing

/-
  The condition of an expression is the value of its tree.

  An expression in which operators that need numbers are applied
  to integer constants only has a value under every assignment,
  and its condition holds exactly where the value is not zero.

  Main declarations:
    * `Grammar.Tree.value`
    * `Grammar.Tree.IsAdmitted`
    * `Grammar.Writes.eval_condition`
-/

namespace Variability

open Expression

namespace Grammar

------------------------------------------------------------
-- Values
------------------------------------------------------------

namespace Tree

/-
  The value of a tree, given which macros are defined and which
  names count as 1.
-/
def value (isDefined isOne : String → Bool) : Tree → Int
  | .literal l => word l.value
  | .character text =>
      ((characterValue? text).getD 0).toInt
  | .defined name => if isDefined name then 1 else 0
  | .reference name => if isOne name then 1 else 0
  | .sign op t => op.value (t.value isDefined isOne)
  | .operation op l r =>
      (op.value? (l.value isDefined isOne)
        (r.value isDefined isOne)).getD 0
  | .connective op l r =>
      op.value (l.value isDefined isOne)
        (r.value isDefined isOne)
  | .conditional test yes no =>
      if test.value isDefined isOne ≠ 0 then
        yes.value isDefined isOne
      else
        no.value isDefined isOne

/- Whether a tree is made of integers and characters only. -/
def isConstant : Tree → Bool
  | .literal _ | .character _ => true
  | .defined _ | .reference _ => false
  | .sign _ t => t.isConstant
  | .operation _ l r | .connective _ l r =>
      l.isConstant && r.isConstant
  | .conditional test yes no =>
      test.isConstant && yes.isConstant && no.isConstant

/- The value of a tree that is made of integers only. -/
def constant (t : Tree) : Int :=
  t.value (fun _ => false) fun _ => false

/-
  A tree that can be evaluated: integers fit, names are those of
  macros that stay open or that no directive has named, and only
  negation, connectives and choices are applied to what is not
  constant. No division fails.
-/
def IsAdmitted (e : Evaluator) : Tree → Prop
  | .literal l => l.value < 2 ^ 64
  | .character text => (characterValue? text).isSome = true
  | .defined _ => True
  | .reference name =>
      name ≠ "defined" ∧ name ∉ builtins ∧
        (e.isFree name = true ∨
          e.definitions.contains name = false)
  | .sign op t =>
      t.IsAdmitted e ∧ (op = .not ∨ t.isConstant = true)
  | .operation op l r =>
      (l.IsAdmitted e ∧ l.isConstant = true) ∧
        (r.IsAdmitted e ∧ r.isConstant = true) ∧
        (op.value? l.constant r.constant).isSome = true
  | .connective _ l r => l.IsAdmitted e ∧ r.IsAdmitted e
  | .conditional test yes no =>
      test.IsAdmitted e ∧ yes.IsAdmitted e ∧ no.IsAdmitted e

instance decidableIsAdmitted (e : Evaluator) :
    (t : Tree) → Decidable (t.IsAdmitted e)
  | .literal l => inferInstanceAs (Decidable (l.value < 2 ^ 64))
  | .character text =>
      inferInstanceAs
        (Decidable ((characterValue? text).isSome = true))
  | .defined _ => inferInstanceAs (Decidable True)
  | .reference name =>
      inferInstanceAs
        (Decidable
          (name ≠ "defined" ∧ name ∉ builtins ∧
            (e.isFree name = true ∨
              e.definitions.contains name = false)))
  | .sign op t =>
      have := decidableIsAdmitted e t
      inferInstanceAs
        (Decidable
          (t.IsAdmitted e ∧ (op = .not ∨ t.isConstant = true)))
  | .operation op l r =>
      have := decidableIsAdmitted e l
      have := decidableIsAdmitted e r
      inferInstanceAs
        (Decidable
          ((l.IsAdmitted e ∧ l.isConstant = true) ∧
            (r.IsAdmitted e ∧ r.isConstant = true) ∧
            (op.value? l.constant r.constant).isSome = true))
  | .connective _ l r =>
      have := decidableIsAdmitted e l
      have := decidableIsAdmitted e r
      inferInstanceAs
        (Decidable (l.IsAdmitted e ∧ r.IsAdmitted e))
  | .conditional test yes no =>
      have := decidableIsAdmitted e test
      have := decidableIsAdmitted e yes
      have := decidableIsAdmitted e no
      inferInstanceAs
        (Decidable
          (test.IsAdmitted e ∧ yes.IsAdmitted e ∧
            no.IsAdmitted e))

variable {e : Evaluator}
variable {tree : Tree}
variable {isDefined isOne : String → Bool}

/- The value of a constant does not depend on any macro. -/
theorem value_of_isConstant
    (hConstant : tree.isConstant = true) :
    tree.value isDefined isOne = tree.constant := by
  unfold constant
  induction tree with
  | literal l => rfl
  | character text => rfl
  | defined name => cases hConstant
  | reference name => cases hConstant
  | sign op t ih => simp only [value, ih hConstant]
  | operation op l r ihl ihr =>
      rw [isConstant, Bool.and_eq_true] at hConstant
      simp only [value, ihl hConstant.1, ihr hConstant.2]
  | connective op l r ihl ihr =>
      rw [isConstant, Bool.and_eq_true] at hConstant
      simp only [value, ihl hConstant.1, ihr hConstant.2]
  | conditional test yes no ihTest ihYes ihNo =>
      rw [isConstant, Bool.and_eq_true, Bool.and_eq_true]
        at hConstant
      simp only [value, ihTest hConstant.1.1,
        ihYes hConstant.1.2, ihNo hConstant.2]

/- A macro that no directive has named takes no arguments. -/
theorem takesArguments_eq_false
    {name : String}
    (hPlain :
      e.isFree name = true ∨
        e.definitions.contains name = false) :
    e.takesArguments [] name = false := by
  rcases hPlain with hFree | hNone
  · unfold Evaluator.takesArguments Evaluator.isAtomic
    rw [hFree, Bool.true_or, Bool.not_true, Bool.false_and]
  · exact Evaluator.takesArguments_of_not_contains [] hNone

theorem IsAdmitted.readable
    (hAdmitted : tree.IsAdmitted e) :
    tree.Readable (e.takesArguments []) := by
  induction tree with
  | literal l => exact hAdmitted
  | character text => exact hAdmitted
  | defined name => trivial
  | reference name =>
      rcases hAdmitted with ⟨hDefined, hBuiltin, hPlain⟩
      exact
        ⟨hDefined, hBuiltin, takesArguments_eq_false hPlain⟩
  | sign op t ih => exact ih hAdmitted.1
  | operation op l r ihl ihr =>
      exact ⟨ihl hAdmitted.1.1, ihr hAdmitted.2.1.1⟩
  | connective op l r ihl ihr =>
      exact ⟨ihl hAdmitted.1, ihr hAdmitted.2⟩
  | conditional test yes no ihTest ihYes ihNo =>
      exact
        ⟨ihTest hAdmitted.1, ihYes hAdmitted.2.1,
          ihNo hAdmitted.2.2⟩

end Tree

------------------------------------------------------------
-- Outcomes
------------------------------------------------------------

/-
  An outcome is that of an integer: the integer itself, or its
  truth if it is not constant.
-/
def IsOutcome (constant : Bool) (n : Int) : Computed → Prop
  | .number v => v.toInt = n
  | .truth b => constant = false ∧ b = decide (n ≠ 0)

variable {e : Evaluator}
variable {W : World}
variable {tree : Tree}
variable {f : Expression}
variable {body : String → List Token → Computed}
variable {constant : Bool}
variable {n : Int}
variable {o : Computed}

theorem IsOutcome.holds
    (hOutcome : IsOutcome constant n o) :
    o.holds = decide (n ≠ 0) := by
  cases o with
  | number v =>
      have hValue : v.toInt = n := hOutcome
      rw [← hValue]
      unfold Computed.holds
      simp only [ne_eq, toInt_eq_zero_iff]
  | truth b => exact hOutcome.2

/- A truth value counts as itself. -/
theorem decide_ite_ne_zero (b : Bool) :
    decide ((if b then (1 : Int) else 0) ≠ 0) = b := by
  cases b <;> rfl

/- The outcome of a constant is a number. -/
theorem IsOutcome.exists_number
    (hOutcome : IsOutcome true n o) :
    ∃ v, o = .number v ∧ v.toInt = n := by
  cases o with
  | number v => exact ⟨v, rfl, hOutcome⟩
  | truth b => cases hOutcome.1

/- A macro that no directive has named counts as its atom. -/
theorem outcomes_reference
    {name : String}
    (hPlain :
      e.isFree name = true ∨
        e.definitions.contains name = false) :
    (e.outcomes W [] body).reference name =
      .truth (W.value (.defined name)) := by
  rcases hPlain with hFree | hNone
  · have hAtomic : e.isAtomic [] name = true := by
      rw [Evaluator.isAtomic, hFree, Bool.true_or]
    exact if_pos hAtomic
  · exact
      Evaluator.outcomes_reference_of_not_contains [] body hNone

/- Only negation is applied to what is not constant. -/
theorem IsOutcome.sign
    {op : Sign}
    (hOutcome : IsOutcome constant n o)
    (hOp : op = .not ∨ constant = true)
    (m : Outcomes)
    (text : String) :
    IsOutcome constant (op.value n)
      (m.orVerbatim (op.outcome? o) text) := by
  cases o with
  | number v =>
      have hValue : v.toInt = n := hOutcome
      rw [Sign.outcome?_number, ← hValue]
      exact op.toInt_apply v
  | truth b =>
      rcases hOutcome with ⟨hConstant, rfl⟩
      rcases hOp with rfl | hOp
      · refine ⟨hConstant, ?_⟩
        by_cases hZero : n = 0 <;> simp [Sign.value, hZero]
      · rw [hConstant] at hOp
        cases hOp

theorem IsOutcome.operation
    {op : Operator}
    {k : Int}
    {o' : Computed}
    (hLeft : IsOutcome true n o)
    (hRight : IsOutcome true k o')
    (hValue : (op.value? n k).isSome = true)
    (m : Outcomes)
    (text : String) :
    IsOutcome true ((op.value? n k).getD 0)
      (m.orVerbatim (op.outcome? o o') text) := by
  rcases hLeft.exists_number with ⟨v, rfl, rfl⟩
  rcases hRight.exists_number with ⟨w, rfl, rfl⟩
  rw [← Operator.toInt_compute?] at hValue ⊢
  cases hResult : op.compute? v w with
  | none =>
      rw [hResult] at hValue
      cases hValue
  | some x =>
      have hOutcome :
          op.outcome? (.number v) (.number w) =
            some (.number x) :=
        congrArg (Option.map Computed.number) hResult
      rw [hOutcome]
      exact rfl

theorem IsOutcome.connective
    (op : Connective)
    {constant' : Bool}
    {l r : Int}
    {o' : Computed}
    (hLeft : IsOutcome constant l o)
    (hRight : IsOutcome constant' r o') :
    IsOutcome (constant && constant') (op.value l r)
      (op.outcome o o') := by
  have hTruth
      (hConstant : (constant && constant') = false) :
      IsOutcome (constant && constant') (op.value l r)
        (.truth (op.ofBool o.holds o'.holds)) := by
    refine ⟨hConstant, ?_⟩
    rw [hLeft.holds, hRight.holds]
    cases op <;> by_cases hl : l = 0 <;>
      by_cases hr : r = 0 <;>
      simp [Connective.ofBool, Connective.value, hl, hr]
  cases o with
  | truth b =>
      apply hTruth
      rw [hLeft.1, Bool.false_and]
  | number v =>
      cases o' with
      | truth b =>
          apply hTruth
          rw [hRight.1, Bool.and_false]
      | number w =>
          have hl : v.toInt = l := hLeft
          have hr : w.toInt = r := hRight
          subst hl hr
          exact op.toInt_apply v w

theorem IsOutcome.conditional
    {constant' constant'' : Bool}
    {yes no : Int}
    {o' o'' : Computed}
    (hTest : IsOutcome constant n o)
    (hYes : IsOutcome constant' yes o')
    (hNo : IsOutcome constant'' no o'') :
    IsOutcome (constant && constant' && constant'')
      (if n ≠ 0 then yes else no)
      (o.choose o' o'') := by
  have hWeaken
      {k : Int} {c : Bool} {x : Computed}
      (hOutcome : IsOutcome c k x)
      (hLess :
        c = false →
          (constant && constant' && constant'') = false) :
      IsOutcome (constant && constant' && constant'') k
        x := by
    cases x with
    | number v => exact hOutcome
    | truth b => exact ⟨hLess hOutcome.1, hOutcome.2⟩
  cases o with
  | number v =>
      have hn : v.toInt = n := hTest
      subst hn
      unfold Computed.choose
      by_cases hZero : v = 0
      · simp only [hZero, if_true]
        exact hWeaken hNo fun h => by simp [h]
      · have hNe : v.toInt ≠ 0 :=
          (toInt_eq_zero_iff v).not.mpr hZero
        simp only [hZero, if_false]
        rw [if_pos hNe]
        exact hWeaken hYes fun h => by simp [h]
  | truth b =>
      rcases hTest with ⟨hConstant, rfl⟩
      refine ⟨by rw [hConstant]; rfl, ?_⟩
      rw [hYes.holds, hNo.holds]
      by_cases hZero : n = 0 <;> simp [hZero]

/-
  An admitted tree has the outcome of its value, by induction on
  the expression that it is read as.
-/
theorem ReadAs.exists_outcome
    (hRead : ReadAs tree f)
    (hAdmitted : tree.IsAdmitted e) :
    ∃ o, f.outcome? (e.outcomes W [] body) = some o ∧
      IsOutcome tree.isConstant
        (tree.value (W.whetherDefined e.definitions)
          fun name => W.value (.defined name))
        o := by
  induction hRead with
  | literal l => exact ⟨_, rfl, Int64.toInt_ofNat'⟩
  | @character text v hValue =>
      refine ⟨_, rfl, ?_⟩
      simp only [Tree.value, hValue]
      rfl
  | defined name =>
      exact ⟨_, rfl, rfl, (decide_ite_ne_zero _).symm⟩
  | reference name =>
      refine ⟨_, rfl, ?_⟩
      rw [outcomes_reference hAdmitted.2.2]
      exact ⟨rfl, (decide_ite_ne_zero _).symm⟩
  | @sign op _ _ _ _ _ _ ih =>
      rcases ih hAdmitted.1 with ⟨o, hSome, hOutcome⟩
      exact
        ⟨_, outcome?_sign op _ hSome,
          hOutcome.sign hAdmitted.2 (e.outcomes W [] body) _⟩
  | @operation op _ _ _ _ _ _ _ _ _ ihl ihr =>
      rcases hAdmitted with
        ⟨⟨hLeft, hLeftConstant⟩, ⟨hRight, hRightConstant⟩,
          hValue⟩
      rcases ihl hLeft with ⟨o, hSome, hOutcome⟩
      rcases ihr hRight with ⟨o', hSome', hOutcome'⟩
      rw [hLeftConstant, Tree.value_of_isConstant
        hLeftConstant] at hOutcome
      rw [hRightConstant, Tree.value_of_isConstant
        hRightConstant] at hOutcome'
      simp only [Tree.isConstant, Tree.value, hLeftConstant,
        hRightConstant, Tree.value_of_isConstant, Bool.and_self]
      exact
        ⟨_, outcome?_operation op _ hSome hSome',
          hOutcome.operation hOutcome' hValue
            (e.outcomes W [] body) _⟩
  | connective op _ _ ihl ihr =>
      rcases ihl hAdmitted.1 with ⟨o, hSome, hOutcome⟩
      rcases ihr hAdmitted.2 with ⟨o', hSome', hOutcome'⟩
      exact
        ⟨_, outcome?_connective op hSome hSome',
          hOutcome.connective op hOutcome'⟩
  | conditional _ _ _ ihTest ihYes ihNo =>
      rcases ihTest hAdmitted.1 with ⟨o, hSome, hOutcome⟩
      rcases ihYes hAdmitted.2.1 with ⟨o', hSome', hOutcome'⟩
      rcases ihNo hAdmitted.2.2 with
        ⟨o'', hSome'', hOutcome''⟩
      exact
        ⟨_, outcome?_conditional hSome hSome' hSome'',
          hOutcome.conditional hOutcome' hOutcome''⟩

end Grammar

------------------------------------------------------------
-- Asking
------------------------------------------------------------

/- Whether a condition that is built in a space holds there. -/
def Space.answer
    (s : Space)
    (ask : InSpace Condition)
    (a : Nat → Bool) :
    Bool :=
  (ask s).2.manager.eval (ask s).1 a

/- An atom without a variable has the value of the next one. -/
theorem Space.atomValue_withAtom
    (s : Space)
    (a : Nat → Bool)
    (atom : Atom) :
    (s.withAtom atom).atomValue a atom =
      s.atomValue a atom := by
  unfold Space.atomValue Space.withAtom
  by_cases hMem : atom ∈ s.atoms
  · simp only [hMem, if_true]
  · simp only [hMem, if_false]
    rw [List.idxOf_append_of_notMem hMem,
      List.idxOf_of_notMem hMem]
    simp

theorem Condition.atoms_atom
    (s : Space)
    (atom : Atom) :
    (Condition.atom atom s).2.atoms =
      (s.withAtom atom).atoms := by
  have hAtoms :
      (Condition.atom atom s).2.atoms =
        (variableOf atom s).2.atoms := rfl
  rw [hAtoms, s.variableOf_eq atom]

/- A question after a macro asks for its own atom at most. -/
theorem Definitions.atoms_whetherDefined
    (table : Definitions)
    (name : String)
    (s : Space) :
    (table.whetherDefined name s).2.atoms = s.atoms ∨
      (table.whetherDefined name s).2.atoms =
        (s.withAtom (.defined name)).atoms := by
  unfold whetherDefined
  simp only [bind, StateT.bind]
  generalize hFirst :
      decided
        (((Dict.find? name table).getD []).filter
          (·.definition.isSome)) s = first
  have hAtoms : first.2.atoms = s.atoms := by
    rw [← hFirst]
    rfl
  rcases first with ⟨c, s'⟩
  dsimp only at hAtoms ⊢
  generalize hSecond :
      decided ((Dict.find? name table).getD []) s' = second
  have hAtoms' : second.2.atoms = s.atoms := by
    rw [← hSecond, ← hAtoms]
    rfl
  rcases second with ⟨d, s''⟩
  dsimp only at hAtoms' ⊢
  split
  · exact .inl hAtoms'
  · right
    have hAsked :
        (s''.withAtom (.defined name)).atoms =
          (s.withAtom (.defined name)).atoms := by
      unfold Space.withAtom
      rw [hAtoms']
    rw [← hAsked, ← Condition.atoms_atom]
    rfl

section Answers

variable {s s' : Space}
variable {table : Definitions}
variable {atom : Atom}

/- One more atom leaves the world of an assignment as it is. -/
theorem World.realizes_of_atoms
    (hSound : s.Sound)
    (hSound' : s'.Sound)
    (hGrows : s.Grows s')
    (hTable : Definitions.IsLive s table)
    (hAtoms :
      s'.atoms = s.atoms ∨
        s'.atoms = (s.withAtom atom).atoms)
    (a : Nat → Bool) :
    (World.ofSpace s a).Realizes table s' a where
  eval_eq := fun name d hd =>
    hGrows.eval_eq hSound hSound' (hTable name d hd)
  assigns := by
    intro other hOther
    by_cases hOld : other ∈ s.atoms
    · exact hGrows.atomValue_eq hOld
    · rcases hAtoms with hSame | hAsked
      · rw [hSame] at hOther
        exact absurd hOther hOld
      · have hEq : other = atom := by
          rw [hAsked] at hOther
          unfold Space.withAtom at hOther
          by_cases hMem : atom ∈ s.atoms
          · simp [hMem, hOld] at hOther
          · simpa [hMem, hOld] using hOther
        subst hEq
        have hValue := s.atomValue_withAtom a other
        unfold Space.atomValue at hValue
        change s'.atomValue a other = s.atomValue a other
        unfold Space.atomValue
        rw [hAsked, hValue]

/- The atom of a macro answers with its value. -/
theorem answer_defined
    (hSound : s.Sound)
    (name : String)
    (a : Nat → Bool) :
    s.answer (Condition.defined name) a =
      s.atomValue a (.defined name) := by
  have hAsked :=
    Condition.ensures_atom (.defined name) s hSound
      (.refl s)
  have hEval := hAsked.2.2.eval_self hAsked.1 (a := a)
  have hAtoms := Condition.atoms_atom s (.defined name)
  refine hEval.trans ?_
  rw [← s.atomValue_withAtom a (.defined name)]
  unfold Space.atomValue
  rw [hAtoms]

/- A question after a macro is answered as in its world. -/
theorem answer_whetherDefined
    (hSound : s.Sound)
    (hTable : Definitions.IsLive s table)
    (name : String)
    (a : Nat → Bool) :
    s.answer (table.whetherDefined name) a =
      (World.ofSpace s a).whetherDefined table name := by
  rcases
      Definitions.ensures_whetherDefined_in hTable
        (World.ofSpace s a) name s hSound (.refl s) with
    ⟨hSound', hGrows, hSays⟩
  apply hSays.eval_eq _ hSound' (.refl _)
  exact
    World.realizes_of_atoms hSound hSound' hGrows hTable
      (table.atoms_whetherDefined name s) a

end Answers

------------------------------------------------------------
-- Conditions
------------------------------------------------------------

namespace Grammar

/- Tokens that write an admitted tree are true where it is not zero. -/
theorem Writes.holdsIn_eq
    {tokens : List Token}
    (hWrites : Writes 0 tree tokens)
    (hAdmitted : tree.IsAdmitted e)
    (W : World) :
    e.holdsIn W tokens =
      decide
        (tree.value (W.whetherDefined e.definitions)
            (fun name => W.value (.defined name)) ≠
          0) := by
  have hRead := hWrites.readAs hAdmitted.readable
  unfold Evaluator.holdsIn Evaluator.bodyOutcome
  rw [Evaluator.outcomeWithin_succ]
  rcases hRead.exists_outcome hAdmitted with
    ⟨o, hSome, hOutcome⟩
  rw [hSome, Option.getD_some, hOutcome.holds]

/-
  The condition of an expression holds under an assignment
  exactly if the value of its tree is not zero. A question after
  a macro counts as the table answers it, and a name counts as
  the atom of its macro.
-/
theorem Writes.eval_condition
    {s : Space}
    {tokens : List Token}
    (hSound : s.Sound)
    (hTable : Definitions.IsLive s e.definitions)
    (hWrites : Writes 0 tree tokens)
    (hAdmitted : tree.IsAdmitted e) :
    let out := e.condition tokens s
    out.2.manager.IsLive out.1 ∧
      ∀ a,
        out.2.manager.eval out.1 a = true ↔
          tree.value
              (fun name =>
                out.2.answer
                  (e.definitions.whetherDefined name) a)
              (fun name =>
                out.2.answer (Condition.defined name) a) ≠
            0 := by
  have hSays (W : World) :=
    Evaluator.ensures_condition_in hTable W tokens s hSound
      (.refl s)
  rcases hSays ⟨fun _ => true, fun _ => true⟩ with
    ⟨hSound', hGrows, hLive⟩
  refine ⟨hLive.isLive, ?_⟩
  intro a
  have hTable' := hTable.grows hGrows
  have hEval :=
    (hSays (.ofSpace (e.condition tokens s).2 a)).2.2.eval_eq
      _ hSound' (.refl _) a (World.realizes_ofSpace _ _ a)
  rw [hEval, hWrites.holdsIn_eq hAdmitted, decide_eq_true_iff]
  simp only [answer_whetherDefined hSound' hTable',
    answer_defined hSound']
  rfl

/- A decimal digit other than 0, as an integer. -/
def oneDigit (d : Fin 10) (h : d ≠ 0) : Literal where
  radix := .decimal
  capital := false
  first := ⟨d, false⟩
  more := []
  suffix := ""
  opens := fun hZero => h (Fin.ext hZero)
  suffix_mem := List.mem_cons_self

def one : Literal := oneDigit 1 (by decide)

def two : Literal := oneDigit 2 (by decide)

def four : Literal := oneDigit 4 (by decide)

/- The literal `0` with some letters behind it. -/
def zeroWith (suffix : String) (h : suffix ∈ suffixes) :
    Literal where
  radix := .octal
  capital := false
  first := ⟨⟨0, by decide⟩, false⟩
  more := []
  suffix
  opens := rfl
  suffix_mem := h

def zero : Literal := zeroWith "" List.mem_cons_self

/- The literal `0xFFFFFFFFFFFFFFFF`. -/
def allOnes : Literal where
  radix := .hexadecimal
  capital := false
  first := ⟨⟨15, by decide⟩, true⟩
  more := List.replicate 15 (false, ⟨⟨15, by decide⟩, true⟩)
  suffix := ""
  opens := trivial
  suffix_mem := List.mem_cons_self

/- A token on the first line. -/
def tokenOf (kind : TokenKind) (text : String) : Token :=
  ⟨kind, text, 1, 1, false⟩

/- The token of a literal. -/
def Literal.token (l : Literal) : Token :=
  tokenOf .number l.text

theorem writes_token (l : Literal) :
    Writes 12 (.literal l) [l.token] :=
  .literal ⟨rfl, rfl⟩

/- Two operands with an operator between them. -/
def joined (op : Operator) (ts us : List Token) : List Token :=
  ts ++ tokenOf .punctuation op.mark :: us

theorem writes_joined
    {p q : Nat}
    {tree tree' : Tree}
    {ts us : List Token}
    (op : Operator)
    (hLeft : Writes p tree ts)
    (hRight : Writes q tree' us)
    (hp : op.level ≤ p)
    (hq : op.level + 1 ≤ q) :
    Writes op.level (.operation op tree tree')
      (joined op ts us) :=
  .operation (hLeft.of_le hp) ⟨rfl, rfl⟩ (hRight.of_le hq)

/- The tokens of `8 - 4 - 2 == 2 && ! X`. -/
def differences : List Token :=
  [tokenOf .number "8", tokenOf .punctuation "-",
   tokenOf .number "4", tokenOf .punctuation "-",
   tokenOf .number "2", tokenOf .punctuation "==",
   tokenOf .number "2", tokenOf .punctuation "&&",
   tokenOf .punctuation "!", tokenOf .identifier "X"]

/- Differences are taken from the left. -/
def differenceTree : Tree :=
  .operation .equal
    (.operation .minus
      (.operation .minus
        (.literal (oneDigit 8 (by decide)))
        (.literal four))
      (.literal two))
    (.literal two)

def differencesTree : Tree :=
  .connective .and differenceTree
    (.sign .not (.reference "X"))

theorem value_differences (isDefined isOne : String → Bool) :
    differencesTree.value isDefined isOne =
      if isOne "X" then 0 else 1 := by
  have hFirst :
      differenceTree.value isDefined isOne = 1 := by
    rw [Tree.value_of_isConstant rfl]
    decide
  unfold differencesTree
  rw [Tree.value, hFirst]
  cases hOne : isOne "X" <;>
    simp [Tree.value, Sign.value, Connective.value, hOne]

theorem writes_differences :
    Writes 0 differencesTree differences := by
  have h8 := writes_token (oneDigit 8 (by decide))
  have h4 := writes_token four
  have h2 := writes_token two
  have hInner :=
    writes_joined .minus h8 h4 (by decide) (by decide)
  have hOuter :=
    writes_joined .minus hInner h2 (by decide) (by decide)
  have hEqual :=
    writes_joined .equal hOuter h2 (by decide) (by decide)
  have hName :
      Writes 12 (.reference "X")
        [tokenOf .identifier "X"] :=
    .reference ⟨rfl, rfl, by decide⟩
  have hNot :
      Writes 11 (.sign .not (.reference "X"))
        [tokenOf .punctuation "!", tokenOf .identifier "X"] :=
    .sign ⟨rfl, rfl⟩ (hName.of_le (by decide))
  have hAnd :
      Writes (Connective.level .and) differencesTree
        differences :=
    .connective (hEqual.of_le (by decide)) ⟨rfl, rfl⟩
      (hNot.of_le (by decide))
  exact hAnd.of_le (Nat.zero_le _)

/- In a space and a table without anything they tell about `X`. -/
theorem eval_condition_differences :
    let e : Evaluator := ⟨[], fun _ => false⟩
    let out := e.condition differences .empty
    (Space.empty.Sound ∧
        Definitions.IsLive .empty e.definitions ∧
        Writes 0 differencesTree differences ∧
        differencesTree.IsAdmitted e) ∧
      out.2.manager.IsLive out.1 ∧
        ∀ a,
          out.2.manager.eval out.1 a = true ↔
            out.2.answer (Condition.defined "X") a =
              false := by
  intro e out
  have hSound := Space.Reached.empty.sound
  have hTable : Definitions.IsLive .empty e.definitions :=
    fun _ _ hd => by cases hd
  have hAdmitted : differencesTree.IsAdmitted e := by
    decide
  refine
    ⟨⟨hSound, hTable, writes_differences, hAdmitted⟩, ?_⟩
  rcases writes_differences.eval_condition hSound hTable
      hAdmitted with
    ⟨hLive, hEval⟩
  refine ⟨hLive, fun a => (hEval a).trans ?_⟩
  rw [value_differences]
  cases out.2.answer (Condition.defined "X") a <;> decide

end Grammar

end Variability
