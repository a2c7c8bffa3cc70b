import Mathlib.Data.Option.NAry
import Variability.Proofs.Condition.Telling
import Variability.Proofs.Expression.Evaluation

/-
  Expressions in one environment.

  Where every macro has a value, an expression has one, too. Of
  an evaluation over conditions it is known in advance which
  values are numbers, and on the truth of which uses, kept as
  they are written, its condition depends. If these are told
  the truth they have in the environment, the condition holds
  exactly if the value is not zero.

  Main declarations:
    * `Expression.valueIn`
    * `Expression.constant?`
    * `Expression.uses`
    * `Value.Stands`
    * `Expression.ensures_evaluate_stands`
-/

namespace Variability

/- The values of macros, none where a macro is not defined. -/
abbrev MacroValues := String → Option Int64

------------------------------------------------------------
-- Integers
------------------------------------------------------------

/- The value of an operator in front of an integer. -/
def Sign.apply (v : Int64) : Sign → Int64
  | .not => if v = 0 then 1 else 0
  | .minus => -v
  | .plus => v
  | .complement => ~~~v

/- The value of an operation on integers that it has a value on. -/
def Operator.apply (a b : Int64) (op : Operator) : Int64 :=
  (op.compute? a b).getD 0

/- Whether an operation has a value on all integers. -/
def Operator.isTotal : Operator → Bool
  | .divide | .remainder => false
  | _ => true

/- Whether a connective holds of two integers. -/
def Connective.holds (a b : Int64) : Connective → Bool
  | .or => a ≠ 0 ∨ b ≠ 0
  | .and => a ≠ 0 ∧ b ≠ 0

/- The value of a connective. -/
def Connective.apply (a b : Int64) (op : Connective) : Int64 :=
  if op.holds a b then 1 else 0

theorem Operator.compute?_eq
    {op : Operator}
    (hTotal : op.isTotal = true)
    (a b : Int64) :
    op.compute? a b = some (op.apply a b) := by
  cases op <;> first | rfl | cases hTotal

------------------------------------------------------------
-- Trees
------------------------------------------------------------

namespace Expression

/-
  The value of an expression where macros have values. A name
  that is not defined counts as 0.
-/
def valueIn (macros : MacroValues) : Expression → Int64
  | .number v => v
  | .defined name => if (macros name).isSome then 1 else 0
  | .reference name => (macros name).getD 0
  | .sign op e _ => op.apply (e.valueIn macros)
  | .operation op l r _ =>
      op.apply (l.valueIn macros) (r.valueIn macros)
  | .connective op l r =>
      op.apply (l.valueIn macros) (r.valueIn macros)
  | .conditional test yes no =>
      if test.valueIn macros = 0 then no.valueIn macros
      else yes.valueIn macros
  | .builtin _ | .call _ _ _ | .excess _ | .malformed => 0

/- Whether an expression is one of integers and names only. -/
def isOrdinary : Expression → Bool
  | .number _ | .defined _ | .reference _ => true
  | .sign _ e _ => e.isOrdinary
  | .operation op l r _ =>
      op.isTotal && l.isOrdinary && r.isOrdinary
  | .connective _ l r => l.isOrdinary && r.isOrdinary
  | .conditional test yes no =>
      test.isOrdinary && yes.isOrdinary && no.isOrdinary
  | .builtin _ | .call _ _ _ | .excess _ | .malformed => false

/- The number that an expression is, whatever is not known. -/
def constant? (known : MacroValues) :
    Expression → Option Int64
  | .number v => some v
  | .reference name => known name
  | .sign op e _ => (e.constant? known).map fun v => op.apply v
  | .operation op l r _ =>
      Option.map₂ (fun a b => op.apply a b)
        (l.constant? known) (r.constant? known)
  | .connective op l r =>
      Option.map₂ (fun a b => op.apply a b)
        (l.constant? known) (r.constant? known)
  | .conditional test yes no =>
      (test.constant? known).bind fun v =>
        if v = 0 then no.constant? known
        else yes.constant? known
  | _ => none

/- A use that is kept as it is written, with its truth. -/
def use (text : String) (v : Int64) : String × Bool :=
  (text, v ≠ 0)

/-
  The uses that the truth of an expression depends on. Operands
  that do not matter for the value have no uses, nor has what is
  kept inside another use.
-/
def uses (known macros : MacroValues) :
    Expression → List (String × Bool)
  | .sign .not e _ => e.uses known macros
  | .sign op e text =>
      if (e.constant? known).isSome then []
      else [use text (op.apply (e.valueIn macros))]
  | .operation op l r text =>
      if (l.constant? known).isSome ∧ (r.constant? known).isSome
      then []
      else
        [use text
          (op.apply (l.valueIn macros) (r.valueIn macros))]
  | .connective .or l r =>
      l.uses known macros ++
        if l.valueIn macros = 0 then r.uses known macros else []
  | .connective .and l r =>
      l.uses known macros ++
        if l.valueIn macros = 0 then [] else r.uses known macros
  | .conditional test yes no =>
      test.uses known macros ++
        if test.valueIn macros = 0 then no.uses known macros
        else yes.uses known macros
  | _ => []

end Expression

open InSpace

variable {α β : Type}
variable {s s' s₀ : Space}
variable {value : Atom → Bool}
variable {c d : Condition}

------------------------------------------------------------
-- Values
------------------------------------------------------------

namespace Value

variable {premise premise' : Prop}
variable {number? : Option Int64}
variable {x : Int64}
variable {v : Value}

/-
  What stands for an integer: the number itself if it is known,
  else a condition that tells whether the integer is not zero.
-/
def Stands
    (s : Space)
    (value : Atom → Bool)
    (number? : Option Int64)
    (premise : Prop)
    (x : Int64) :
    Value → Prop
  | .number n => number? = some n ∧ x = n
  | .condition c =>
      number? = none ∧
        s.Tells value premise (x ≠ 0) c

theorem Stands.grows
    (hStands : v.Stands s value number? premise x)
    (hGrows : s.Grows s') :
    v.Stands s' value number? premise x := by
  cases v with
  | number n => exact hStands
  | condition c => exact ⟨hStands.1, hStands.2.grows hGrows⟩

theorem Stands.truth
    (hStands : v.Stands s value number? premise x)
    (hSound : s.Sound) :
    s.Tells value premise (x ≠ 0) v.truth := by
  cases v with
  | condition c => exact hStands.2
  | number n =>
      rcases hStands with ⟨-, rfl⟩
      unfold Value.truth
      by_cases hZero : x = 0
      · simpa [hZero] using Space.tells_zero hSound
      · simpa [hZero] using Space.tells_one hSound

theorem Stands.imp
    (hStands : v.Stands s value number? premise x)
    (hPremise : premise' → premise) :
    v.Stands s value number? premise' x := by
  cases v with
  | number n => exact hStands
  | condition c =>
      exact
        ⟨hStands.1, hStands.2.isLive,
          fun h => hStands.2.eval_eq (hPremise h)⟩

/- A use that is kept as it is written stands for its value. -/
theorem ensures_stands_verbatim
    {text : String}
    (hUse :
      premise → value (.verbatim text) = decide (x ≠ 0)) :
    Ensures s₀ (Value.verbatim text) fun s v =>
      v.Stands s value none premise x := by
  apply (Condition.ensures_tells_atom value _).map
  intro s c _ _ hTells
  refine ⟨rfl, hTells.isLive, ?_⟩
  intro hPremise s' hSound hGrows a ha
  rw [hTells.eval_eq trivial s' hSound hGrows a ha]
  exact hUse hPremise

end Value

section Operators

variable {premise premise' truthful : Prop}
variable {number? number'? : Option Int64}
variable {x y : Int64}
variable {v w : Value}
variable {text : String}

theorem Sign.result?_number
    (op : Sign)
    (n : Int64) :
    op.result? (.number n) = some (.number (op.apply n)) := by
  cases op <;> simp [result?, apply, Value.ofBool]

/-
  Only negation looks into a condition; of any other sign the
  whole use has to be told.
-/
theorem Sign.ensures_stands
    {op : Sign}
    (hStands : v.Stands s₀ value number? premise x)
    (hNot : op = .not → truthful → premise)
    (hUse :
      op ≠ .not → number? = none → truthful →
        value (.verbatim text) = decide (op.apply x ≠ 0)) :
    Ensures s₀ (Value.orVerbatim (op.result? v) text)
      fun s w =>
        w.Stands s value (number?.map fun n => op.apply n)
          truthful (op.apply x) := by
  cases v with
  | number n =>
      rcases hStands with ⟨rfl, rfl⟩
      rw [Sign.result?_number]
      exact .pure fun _ _ _ => ⟨rfl, rfl⟩
  | condition c =>
      rcases hStands with ⟨rfl, hTells⟩
      cases op with
      | not =>
          apply Ensures.pure
          intro s _ hGrows
          have hNeg := (hTells.grows hGrows).neg
          refine ⟨rfl, hNeg.isLive, ?_⟩
          intro hTrue s' hSound hGrows' a ha
          rw [hNeg.eval_eq (hNot rfl hTrue) s' hSound hGrows'
            a ha]
          by_cases hZero : x = 0 <;> simp [apply, hZero]
      | minus | plus | complement =>
          exact
            Value.ensures_stands_verbatim (hUse (by simp) rfl)

/- An operation is computed with numbers, else its use is told. -/
theorem Operator.ensures_stands
    {op : Operator}
    (hTotal : op.isTotal = true)
    (hv : v.Stands s₀ value number? premise x)
    (hw : w.Stands s₀ value number'? premise' y)
    (hUse :
      ¬ (number?.isSome ∧ number'?.isSome) → truthful →
        value (.verbatim text) = decide (op.apply x y ≠ 0)) :
    Ensures s₀ (Value.orVerbatim (op.result? v w) text)
      fun s z =>
        z.Stands s value
          (Option.map₂ (fun a b => op.apply a b) number?
            number'?)
          truthful (op.apply x y) := by
  cases v with
  | condition c =>
      rcases hv with ⟨rfl, -⟩
      exact Value.ensures_stands_verbatim (hUse (by simp))
  | number n =>
      rcases hv with ⟨rfl, rfl⟩
      cases w with
      | condition c =>
          rcases hw with ⟨rfl, -⟩
          exact Value.ensures_stands_verbatim (hUse (by simp))
      | number k =>
          rcases hw with ⟨rfl, rfl⟩
          have hResult :
              op.result? (.number x) (.number y) =
                some (.number (op.apply x y)) :=
            congrArg (Option.map Value.number)
              (op.compute?_eq hTotal x y)
          rw [hResult]
          exact .pure fun _ _ _ => ⟨rfl, rfl⟩

theorem Connective.apply_ne_zero
    (op : Connective)
    (a b : Int64) :
    decide (op.apply a b ≠ 0) = op.holds a b := by
  unfold apply
  cases op.holds a b <;> simp

/-
  A connective is true of conditions as it is of integers. The
  second operand need not be told where the first one decides.
-/
theorem Connective.ensures_stands
    {op : Connective}
    (hSound : s₀.Sound)
    (hv : v.Stands s₀ value number? premise x)
    (hw : w.Stands s₀ value number'? premise' y)
    (hFirst : truthful → premise)
    (hSecond : (op = .or ↔ x = 0) → truthful → premise') :
    Ensures s₀ (op.result v w) fun s z =>
      z.Stands s value
        (Option.map₂ (fun a b => op.apply a b) number?
          number'?)
        truthful (op.apply x y) := by
  have hvTruth := hv.truth hSound
  have hwTruth := hw.truth hSound
  have hTruth
      (hNone :
        Option.map₂ (fun a b => op.apply a b) number?
          number'? = none) :
      Ensures s₀
        (match op with
          | .or => Value.condition <$>
              Condition.or v.truth w.truth
          | .and => Value.condition <$>
              Condition.and v.truth w.truth)
        fun s z =>
          z.Stands s value
            (Option.map₂ (fun a b => op.apply a b) number?
              number'?)
            truthful (op.apply x y) := by
    cases op with
    | or =>
        apply
          (Condition.ensures_tells_or hvTruth hwTruth hFirst
            fun hZero => hSecond (by simpa using hZero)).map
        intro s c _ _ hTells
        refine ⟨hNone, ?_⟩
        rw [Connective.apply_ne_zero]
        simpa [holds] using hTells
    | and =>
        apply
          (Condition.ensures_tells_and hvTruth hwTruth hFirst
            fun hZero => hSecond (by simpa using hZero)).map
        intro s c _ _ hTells
        refine ⟨hNone, ?_⟩
        rw [Connective.apply_ne_zero]
        simpa [holds] using hTells
  cases v with
  | condition c =>
      apply hTruth
      rw [hv.1, Option.map₂_none_left]
  | number n =>
      cases w with
      | condition c =>
          apply hTruth
          rw [hw.1, Option.map₂_none_right]
      | number k =>
          rcases hv with ⟨rfl, rfl⟩
          rcases hw with ⟨rfl, rfl⟩
          cases op <;>
            refine .pure fun _ _ _ => ⟨?_, ?_⟩ <;>
            simp [apply, holds]

end Operators

------------------------------------------------------------
-- Evaluations
------------------------------------------------------------

namespace Evaluation

/- What an evaluation ensures that gives a value. -/
def Gives
    (s₀ : Space)
    (f : Evaluation α)
    (post : Space → α → Prop) : Prop :=
  InSpace.Ensures s₀ f.run fun s out =>
    ∃ x, out = some x ∧ post s x

namespace Gives

variable {f : Evaluation α}
variable {g : α → Evaluation β}
variable {post : Space → α → Prop}
variable {post' : Space → β → Prop}

theorem pure
    {x : α}
    (hPost : ∀ s, s.Sound → s₀.Grows s → post s x) :
    Gives s₀ (Pure.pure x) post :=
  InSpace.Ensures.pure fun s hSound hGrows =>
    ⟨x, rfl, hPost s hSound hGrows⟩

theorem lift
    {h : InSpace α}
    (hEnsures : InSpace.Ensures s₀ h post) :
    Gives s₀ (liftM h) post :=
  InSpace.Ensures.map hEnsures fun _ x _ _ hx =>
    ⟨x, rfl, hx⟩

theorem bind
    (hFirst : Gives s₀ f post)
    (hRest :
      ∀ s x, s.Sound → s₀.Grows s → post s x →
        Gives s (g x) post') :
    Gives s₀ (f >>= g) post' := by
  unfold Gives
  rw [OptionT.run_bind]
  apply InSpace.Ensures.bind hFirst
  rintro s out hSound hGrows ⟨x, rfl, hx⟩
  exact hRest s x hSound hGrows hx

theorem map
    {h : α → β}
    (hGives : Gives s₀ f post)
    (hPost :
      ∀ s x, s.Sound → s₀.Grows s → post s x →
        post' s (h x)) :
    Gives s₀ (h <$> f) post' := by
  unfold Gives
  rw [OptionT.run_map]
  apply InSpace.Ensures.map hGives
  rintro s out hSound hGrows ⟨x, rfl, hx⟩
  exact ⟨h x, rfl, hPost s x hSound hGrows hx⟩

theorem grows
    (hGives : Gives s₀ f post)
    (hGrows : s₀.Grows s) :
    Gives s f post :=
  InSpace.Ensures.grows hGives hGrows

end Gives

end Evaluation

------------------------------------------------------------
-- Evaluation
------------------------------------------------------------

section Choice

variable {premise premise' premise'' truthful : Prop}
variable {test? yes? no? : Option Int64}
variable {x y z : Int64}
variable {u v w : Value}

/- A value that is chosen by a number, or by a condition. -/
theorem gives_choice
    (hSound : s₀.Sound)
    (hu : u.Stands s₀ value test? premise x)
    (hv : v.Stands s₀ value yes? premise' y)
    (hw : w.Stands s₀ value no? premise'' z)
    (hTest : truthful → premise)
    (hYes : x ≠ 0 → truthful → premise')
    (hNo : x = 0 → truthful → premise'') :
    Evaluation.Gives s₀
      (match u with
        | .number n => return if n = 0 then w else v
        | .condition c =>
            .condition <$>
              liftM (Condition.ite c v.truth w.truth))
      fun s r =>
        r.Stands s value
          (test?.bind fun n => if n = 0 then no? else yes?)
          truthful (if x = 0 then z else y) := by
  cases u with
  | number n =>
      rcases hu with ⟨rfl, rfl⟩
      apply Evaluation.Gives.pure
      intro s _ hGrows
      by_cases hZero : x = 0
      · simpa [hZero] using (hw.grows hGrows).imp (hNo hZero)
      · simpa [hZero] using (hv.grows hGrows).imp (hYes hZero)
  | condition c =>
      rcases hu with ⟨rfl, hTells⟩
      apply
        (Evaluation.Gives.lift
          (Condition.ensures_tells_ite hTells
            (hv.truth hSound) (hw.truth hSound) hTest
            (fun h => hYes (by simpa using h))
            fun h => hNo (by simpa using h))).map
      intro s d _ _ hChosen
      refine ⟨rfl, ?_⟩
      by_cases hZero : x = 0 <;>
        simpa [hZero] using hChosen

end Choice

/- Every use is given the truth that it has. -/
def Told
    (value : Atom → Bool)
    (uses : List (String × Bool)) : Prop :=
  ∀ use ∈ uses, value (.verbatim use.1) = use.2

/- Meanings that stand for the values that macros have. -/
structure Meanings.Stand
    (s : Space)
    (value : Atom → Bool)
    (known macros : MacroValues)
    (m : Meanings) : Prop where
  whetherDefined :
    ∀ name, Ensures s (m.whetherDefined name) fun s c =>
      s.Tells value True (macros name).isSome c
  reference :
    ∀ name, Ensures s (m.reference name) fun s v =>
      v.Stands s value (known name) True
        ((macros name).getD 0)

namespace Expression

variable {known macros : MacroValues}
variable {m : Meanings}

/- An operation is told its truth if its text is. -/
theorem told_operation
    {op : Operator}
    {l r : Expression}
    {text : String}
    (hTold :
      value (.verbatim text) =
        Decidable.decide
          (op.apply (l.valueIn macros) (r.valueIn macros) ≠
            0)) :
    Told value ((operation op l r text).uses known macros) := by
  intro use hUse
  unfold uses at hUse
  split_ifs at hUse with hKnown
  · cases hUse
  · rw [List.mem_singleton.mp hUse]
    exact hTold

/-
  What an ordinary tree evaluates to stands for its value, if
  the uses it depends on are told. By induction on the tree.
-/
theorem ensures_evaluate_stands
    (hStand : m.Stand s₀ value known macros)
    (e : Expression)
    (hOrdinary : e.isOrdinary = true) :
    Evaluation.Gives s₀ (evaluate m e) fun s v =>
      v.Stands s value (e.constant? known)
        (Told value (e.uses known macros))
        (e.valueIn macros) := by
  induction e with
  | number n => exact .pure fun _ _ _ => ⟨rfl, rfl⟩
  | defined name =>
      apply
        (Evaluation.Gives.lift
          (hStand.whetherDefined name)).map
      intro s c _ _ hTells
      refine ⟨rfl, hTells.isLive, ?_⟩
      intro _ s' hSound hGrows a ha
      rw [hTells.eval_eq trivial s' hSound hGrows a ha]
      unfold valueIn
      cases (macros name).isSome <;> simp
  | reference name =>
      apply Evaluation.Gives.lift
      apply (hStand.reference name).imp
      intro s v _ _ hStands
      exact hStands.imp fun _ => trivial
  | sign op e text ih =>
      apply (ih hOrdinary).bind
      intro s v _ _ hv
      apply Evaluation.Gives.lift
      apply Sign.ensures_stands hv
      · rintro rfl
        exact id
      · intro hNot hNone hTold
        have hUses :
            (sign op e text).uses known macros =
              [use text (op.apply (e.valueIn macros))] := by
          cases op <;> simp [uses, hNone] at hNot ⊢
        apply hTold (use text (op.apply (e.valueIn macros)))
        simp [hUses]
  | operation op l r text ihl ihr =>
      simp only [isOrdinary, Bool.and_eq_true] at hOrdinary
      rcases hOrdinary with ⟨⟨hTotal, hLeft⟩, hRight⟩
      apply (ihl hLeft).bind
      intro s v _ hGrows hv
      apply ((ihr hRight).grows hGrows).bind
      intro s' w _ hGrows' hw
      apply Evaluation.Gives.lift
      apply Operator.ensures_stands hTotal (hv.grows hGrows')
        hw
      intro hOpen hTold
      apply
        hTold
          (use text
            (op.apply (l.valueIn macros)
              (r.valueIn macros)))
      simp [uses, hOpen]
  | connective op l r ihl ihr =>
      simp only [isOrdinary, Bool.and_eq_true] at hOrdinary
      apply (ihl hOrdinary.1).bind
      intro s v _ hGrows hv
      apply ((ihr hOrdinary.2).grows hGrows).bind
      intro s' w hSound hGrows' hw
      apply Evaluation.Gives.lift
      apply Connective.ensures_stands hSound
        (hv.grows hGrows') hw
      · intro hTold use hUse
        apply hTold use
        cases op <;> simp [uses, hUse]
      · intro hNeeded hTold use hUse
        apply hTold use
        cases op <;> simp at hNeeded <;>
          simp [uses, hUse, hNeeded]
  | conditional test yes no ihTest ihYes ihNo =>
      simp only [isOrdinary, Bool.and_eq_true] at hOrdinary
      rcases hOrdinary with ⟨⟨hTest, hYes⟩, hNo⟩
      apply (ihTest hTest).bind
      intro s c _ hGrows hc
      apply ((ihYes hYes).grows hGrows).bind
      intro s' v _ hGrows' hv
      apply ((ihNo hNo).grows (hGrows.trans hGrows')).bind
      intro s'' w hSound hGrows'' hw
      have hc' := hc.grows (hGrows'.trans hGrows'')
      apply gives_choice hSound hc' (hv.grows hGrows'') hw
      · intro hTold use hUse
        exact hTold use (List.mem_append_left _ hUse)
      · intro hChosen hTold use hUse
        apply hTold use
        apply List.mem_append_right
        rwa [if_neg hChosen]
      · intro hChosen hTold use hUse
        apply hTold use
        apply List.mem_append_right
        rwa [if_pos hChosen]
  | builtin | call | excess | malformed => cases hOrdinary

end Expression

end Variability
