import Variability.Expression.Evaluation
import Variability.Proofs.Expression.Position
import Variability.Proofs.Macro.Coupling

/-
  Evaluating an expression in two runs.

  Two runs whose definitions say the same evaluate an expression
  alike: they find the same numbers, and conditions that belong
  together. The proof follows the tree of the expression, and
  for macros how many may still be inside each other; where the
  tokens stand does not matter in either run.

  Main declarations:
    * `Value.Alike`
    * `Evaluation.Couples`
    * `Expression.couples_evaluate`
    * `Evaluator.couples_condition`
-/

namespace Variability

open Coupling

variable {α β α' β' : Type}
variable {R : Coupling}
variable {s t s' t' s₀ t₀ : Space}

------------------------------------------------------------
-- Values
------------------------------------------------------------

namespace Value

/- The same number, or conditions that belong together. -/
inductive Alike (R : Coupling) (s t : Space) :
    Value → Value → Prop where
  | number (v : Int64) : Alike R s t (.number v) (.number v)
  | condition {c d : Condition}
      (hAlike : R.conditions s t c d) :
      Alike R s t (.condition c) (.condition d)

variable {v v' w w' : Value}

theorem Alike.later
    (hAlike : v.Alike R s t v')
    (hLater : R.Later s t s' t') :
    v.Alike R s' t' v' := by
  cases hAlike with
  | number n => exact .number n
  | condition hAlike => exact .condition (hLater.keeps hAlike)

theorem Alike.truth
    (hLawful : R.Lawful)
    (hSpaces : R.spaces s t)
    (hAlike : v.Alike R s t v') :
    R.conditions s t v.truth v'.truth := by
  cases hAlike with
  | number n =>
      unfold Value.truth
      by_cases hZero : n = 0
      · simp only [hZero, if_true]
        exact hLawful.zero hSpaces
      · simp only [hZero, if_false]
        exact hLawful.one hSpaces
  | condition hAlike => exact hAlike

theorem couples_verbatim
    (hLawful : R.Lawful)
    (text : String) :
    R.Couples s₀ t₀ (Value.verbatim text)
      (Value.verbatim text) (Alike R) :=
  (hLawful.atom s₀ t₀ (.verbatim text)).map
    fun _ _ _ _ _ hAlike => .condition hAlike

theorem couples_orVerbatim
    (hLawful : R.Lawful)
    {x x' : Option Value}
    (hAlike : Option.Rel (Alike R s₀ t₀) x x')
    (text : String) :
    R.Couples s₀ t₀ (Value.orVerbatim x text)
      (Value.orVerbatim x' text) (Alike R) := by
  cases hAlike with
  | none => exact couples_verbatim hLawful text
  | some hAlike =>
      exact .pure fun _ _ hLater => hAlike.later hLater

end Value

theorem Sign.result?_alike
    (hLawful : R.Lawful)
    (hSpaces : R.spaces s t)
    {v v' : Value}
    (hAlike : v.Alike R s t v')
    (op : Sign) :
    Option.Rel (Value.Alike R s t) (op.result? v)
      (op.result? v') := by
  cases hAlike with
  | number n => cases op <;> exact .some (.number _)
  | condition hAlike =>
      cases op with
      | not =>
          exact .some (.condition (hLawful.neg hSpaces hAlike))
      | minus | plus | complement => exact .none

theorem Operator.result?_alike
    {v v' w w' : Value}
    (hv : v.Alike R s t v')
    (hw : w.Alike R s t w')
    (op : Operator) :
    Option.Rel (Value.Alike R s t) (op.result? v w)
      (op.result? v' w') := by
  cases hv with
  | condition => exact .none
  | number n =>
      cases hw with
      | condition => exact .none
      | number k =>
          simp only [Operator.result?]
          cases op.compute? n k with
          | none => exact .none
          | some x => exact .some (.number x)

theorem Connective.couples_result
    (hLawful : R.Lawful)
    (hSpaces : R.spaces s₀ t₀)
    {v v' w w' : Value}
    (hv : v.Alike R s₀ t₀ v')
    (hw : w.Alike R s₀ t₀ w')
    (op : Connective) :
    R.Couples s₀ t₀ (op.result v w) (op.result v' w')
      (Value.Alike R) := by
  have hvTruth := hv.truth hLawful hSpaces
  have hwTruth := hw.truth hLawful hSpaces
  have hOr :
      R.Couples s₀ t₀
        (Value.condition <$> Condition.or v.truth w.truth)
        (Value.condition <$> Condition.or v'.truth w'.truth)
        (Value.Alike R) :=
    (hLawful.or hvTruth hwTruth).map
      fun _ _ _ _ _ hAlike => .condition hAlike
  have hAnd :
      R.Couples s₀ t₀
        (Value.condition <$> Condition.and v.truth w.truth)
        (Value.condition <$> Condition.and v'.truth w'.truth)
        (Value.Alike R) :=
    (hLawful.and hvTruth hwTruth).map
      fun _ _ _ _ _ hAlike => .condition hAlike
  cases op with
  | or =>
      cases hv with
      | condition => exact hOr
      | number n =>
          cases hw with
          | condition => exact hOr
          | number k => exact .pure fun _ _ _ => .number _
  | and =>
      cases hv with
      | condition => exact hAnd
      | number n =>
          cases hw with
          | condition => exact hAnd
          | number k => exact .pure fun _ _ _ => .number _

------------------------------------------------------------
-- Evaluations
------------------------------------------------------------

namespace Evaluation

/- Two evaluations both fail or both give related values. -/
def Couples
    (R : Coupling)
    (s₀ t₀ : Space)
    (f : Evaluation α)
    (g : Evaluation β)
    (post : Space → Space → α → β → Prop) : Prop :=
  R.Couples s₀ t₀ f.run g.run fun s t => Option.Rel (post s t)

namespace Couples

variable {f : Evaluation α}
variable {g : Evaluation β}
variable {post : Space → Space → α → β → Prop}
variable {post' : Space → Space → α' → β' → Prop}

theorem failure :
    Couples R s₀ t₀ (failure : Evaluation α)
      (failure : Evaluation β) post :=
  Coupling.Couples.pure fun _ _ _ => .none

theorem pure
    {x : α}
    {y : β}
    (hPost : ∀ s t, R.Later s₀ t₀ s t → post s t x y) :
    Couples R s₀ t₀ (Pure.pure x) (Pure.pure y) post :=
  Coupling.Couples.pure fun s t hLater =>
    .some (hPost s t hLater)

theorem lift
    {f : InSpace α}
    {g : InSpace β}
    (hCouples : R.Couples s₀ t₀ f g post) :
    Couples R s₀ t₀ (liftM f) (liftM g) post :=
  Coupling.Couples.map hCouples fun _ _ _ _ _ hxy =>
    .some hxy

theorem bind
    {f' : α → Evaluation α'}
    {g' : β → Evaluation β'}
    (hFirst : Couples R s₀ t₀ f g post)
    (hRest :
      ∀ s t x y, R.Later s₀ t₀ s t → post s t x y →
        Couples R s t (f' x) (g' y) post') :
    Couples R s₀ t₀ (f >>= f') (g >>= g') post' := by
  unfold Couples
  rw [OptionT.run_bind, OptionT.run_bind]
  apply Coupling.Couples.bind hFirst
  intro s t out out' hLater hOut
  cases hOut with
  | none => exact Couples.failure
  | some hxy => exact hRest s t _ _ hLater hxy

theorem map
    {h : α → α'}
    {k : β → β'}
    (hCouples : Couples R s₀ t₀ f g post)
    (hPost :
      ∀ s t x y, R.Later s₀ t₀ s t → post s t x y →
        post' s t (h x) (k y)) :
    Couples R s₀ t₀ (h <$> f) (k <$> g) post' := by
  unfold Couples
  rw [OptionT.run_map, OptionT.run_map]
  apply Coupling.Couples.map hCouples
  intro s t out out' hLater hOut
  cases hOut with
  | none => exact .none
  | some hxy => exact .some (hPost s t _ _ hLater hxy)

theorem later
    (hCouples : Couples R s₀ t₀ f g post)
    (hLater : R.Later s₀ t₀ s t) :
    Couples R s t f g post :=
  Coupling.Couples.later hCouples hLater

end Couples

end Evaluation

------------------------------------------------------------
-- Trees
------------------------------------------------------------

/- Arguments that differ at most in where they stand. -/
def ArgumentsAlike
    (arguments arguments' : List (List Token)) : Prop :=
  arguments.map (·.map Token.bare) =
    arguments'.map (·.map Token.bare)

/- Meanings of macros that run alike from two spaces on. -/
structure Meanings.Couples
    (R : Coupling)
    (s₀ t₀ : Space)
    (m m' : Meanings) : Prop where
  whetherDefined :
    ∀ name,
      R.Couples s₀ t₀ (m.whetherDefined name)
        (m'.whetherDefined name) R.conditions
  reference :
    ∀ name,
      R.Couples s₀ t₀ (m.reference name) (m'.reference name)
        (Value.Alike R)
  call :
    ∀ name arguments arguments' text,
      ArgumentsAlike arguments arguments' →
        R.Couples s₀ t₀ (m.call name arguments text)
          (m'.call name arguments' text) (Value.Alike R)
  unclosedCall :
    ∀ name,
      R.Couples s₀ t₀ (m.unclosedCall name)
        (m'.unclosedCall name) fun _ _ _ _ => True

namespace Expression

/- A choice between two values by a third. -/
theorem couples_choice
    (hLawful : R.Lawful)
    (hSpaces : R.spaces s₀ t₀)
    {c c' v v' w w' : Value}
    (hc : c.Alike R s₀ t₀ c')
    (hv : v.Alike R s₀ t₀ v')
    (hw : w.Alike R s₀ t₀ w') :
    Evaluation.Couples R s₀ t₀
      (match c with
        | .number n => return if n = 0 then w else v
        | .condition c =>
            Value.condition <$>
              liftM (Condition.ite c v.truth w.truth))
      (match c' with
        | .number n => return if n = 0 then w' else v'
        | .condition c =>
            Value.condition <$>
              liftM (Condition.ite c v'.truth w'.truth))
      (Value.Alike R) := by
  cases hc with
  | number n =>
      apply Evaluation.Couples.pure
      intro s t hLater
      by_cases hZero : n = 0
      · simp only [hZero, if_true]
        exact hw.later hLater
      · simp only [hZero, if_false]
        exact hv.later hLater
  | condition hAlike =>
      have hChoice :=
        hLawful.ite hAlike (hv.truth hLawful hSpaces)
          (hw.truth hLawful hSpaces)
      exact
        (Evaluation.Couples.lift hChoice).map
          fun _ _ _ _ _ hAlike => .condition hAlike

/- A call, whether its arguments end or not. -/
theorem couples_call
    {m m' : Meanings}
    (hMeanings : m.Couples R s₀ t₀ m')
    (name text : String)
    {arguments arguments' : Option (List (List Token))}
    (hArguments :
      arguments.map (·.map (·.map Token.bare)) =
        arguments'.map (·.map (·.map Token.bare))) :
    Evaluation.Couples R s₀ t₀
      (evaluate m (.call name arguments text))
      (evaluate m' (.call name arguments' text))
      (Value.Alike R) := by
  cases arguments with
  | none =>
      cases arguments' with
      | some arguments' => cases hArguments
      | none =>
          apply Evaluation.Couples.bind
            (.lift (hMeanings.unclosedCall name))
          intro s t _ _ _ _
          exact .failure
  | some arguments =>
      cases arguments' with
      | none => cases hArguments
      | some arguments' =>
          have hAlike : ArgumentsAlike arguments arguments' :=
            Option.some.inj hArguments
          exact .lift (hMeanings.call name _ _ text hAlike)

/-
  Expressions that differ at most in where their arguments stand
  evaluate alike, by induction on the first of them.
-/
theorem couples_evaluate
    (hLawful : R.Lawful)
    {m m' : Meanings}
    (hMeanings : m.Couples R s₀ t₀ m')
    {e e' : Expression}
    (hBare : e.bare = e'.bare) :
    Evaluation.Couples R s₀ t₀ (evaluate m e)
      (evaluate m' e') (Value.Alike R) := by
  induction e generalizing e' with
  | number v =>
      cases e' with
      | number v' =>
          cases hBare
          exact .pure fun _ _ _ => .number v
      | _ => cases hBare
  | defined name =>
      cases e' with
      | defined name' =>
          cases hBare
          exact
            (Evaluation.Couples.lift
              (hMeanings.whetherDefined name)).map
                fun _ _ _ _ _ hAlike => .condition hAlike
      | _ => cases hBare
  | builtin text =>
      cases e' with
      | builtin text' =>
          cases hBare
          exact .lift (Value.couples_verbatim hLawful text)
      | _ => cases hBare
  | reference name =>
      cases e' with
      | reference name' =>
          cases hBare
          exact .lift (hMeanings.reference name)
      | _ => cases hBare
  | call name arguments text =>
      cases e' with
      | call name' arguments' text' =>
          simp only [bare, call.injEq] at hBare
          rcases hBare with ⟨rfl, hArguments, rfl⟩
          exact couples_call hMeanings name text hArguments
      | _ => cases hBare
  | sign op e text ih =>
      cases e' with
      | sign op' e' text' =>
          simp only [bare, sign.injEq] at hBare
          rcases hBare with ⟨rfl, hBare, rfl⟩
          apply (ih hBare).bind
          intro s t v v' hLater hv
          apply Evaluation.Couples.lift
          apply Value.couples_orVerbatim hLawful
          exact
            Sign.result?_alike hLawful hLater.spaces hv op
      | _ => cases hBare
  | operation op l r text ihl ihr =>
      cases e' with
      | operation op' l' r' text' =>
          simp only [bare, operation.injEq] at hBare
          rcases hBare with ⟨rfl, hLeft, hRight, rfl⟩
          apply (ihl hLeft).bind
          intro s t v v' hLater hv
          apply ((ihr hRight).later hLater).bind
          intro s' t' w w' hLater' hw
          apply Evaluation.Couples.lift
          apply Value.couples_orVerbatim hLawful
          exact
            Operator.result?_alike (hv.later hLater') hw op
      | _ => cases hBare
  | connective op l r ihl ihr =>
      cases e' with
      | connective op' l' r' =>
          simp only [bare, connective.injEq] at hBare
          rcases hBare with ⟨rfl, hLeft, hRight⟩
          apply (ihl hLeft).bind
          intro s t v v' hLater hv
          apply ((ihr hRight).later hLater).bind
          intro s' t' w w' hLater' hw
          apply Evaluation.Couples.lift
          exact
            Connective.couples_result hLawful hLater'.spaces
              (hv.later hLater') hw op
      | _ => cases hBare
  | conditional test yes no ihTest ihYes ihNo =>
      cases e' with
      | conditional test' yes' no' =>
          simp only [bare, conditional.injEq] at hBare
          rcases hBare with ⟨hTest, hYes, hNo⟩
          apply (ihTest hTest).bind
          intro s t c c' hLater hc
          apply ((ihYes hYes).later hLater).bind
          intro s' t' v v' hLater' hv
          have hLaterAll := hLater.trans hLater'
          apply ((ihNo hNo).later hLaterAll).bind
          intro s'' t'' w w' hLater'' hw
          exact
            couples_choice hLawful hLater''.spaces
              (hc.later (hLater'.trans hLater''))
              (hv.later hLater'') hw
      | _ => cases hBare
  | excess e ih =>
      cases e' with
      | excess e' =>
          simp only [bare, excess.injEq] at hBare
          apply (ih hBare).bind
          intro s t _ _ _ _
          exact .failure
      | _ => cases hBare
  | malformed =>
      cases e' with
      | malformed => exact .failure
      | _ => cases hBare

end Expression

------------------------------------------------------------
-- Macros
------------------------------------------------------------

namespace Evaluator

variable {e e' : Evaluator}
variable {body body' : List Token → InSpace Value}
variable {definitions definitions' : List (Condition × Macro)}

open Definitions

/- Bodies of macros have values that run alike. -/
def BodiesCouple
    (R : Coupling)
    (s₀ t₀ : Space)
    (body body' : List Token → InSpace Value) : Prop :=
  ∀ tokens tokens', Token.Alike tokens tokens' →
    R.Couples s₀ t₀ (body tokens) (body' tokens')
      (Value.Alike R)

theorem BodiesCouple.later
    (hBodies : BodiesCouple R s₀ t₀ body body')
    (hLater : R.Later s₀ t₀ s t) :
    BodiesCouple R s t body body' :=
  fun tokens tokens' hAlike =>
    (hBodies tokens tokens' hAlike).later hLater

theorem couples_objectValue
    (hBodies : BodiesCouple R s₀ t₀ body body')
    {m m' : Macro}
    (hMacro : m.Alike m') :
    R.Couples s₀ t₀ (objectValue body m)
      (objectValue body' m') (Value.Alike R) := by
  have hBody := hMacro.body
  unfold objectValue
  cases hTokens : m.body with
  | nil =>
      cases hTokens' : m'.body with
      | nil => exact .pure fun _ _ _ => .number 1
      | cons => simp [hTokens, hTokens', Token.Alike] at hBody
  | cons =>
      cases hTokens' : m'.body with
      | nil => simp [hTokens, hTokens', Token.Alike] at hBody
      | cons =>
          rw [hTokens, hTokens'] at hBody
          exact hBodies _ _ hBody

theorem couples_anyObject
    (hLawful : R.Lawful)
    (hBodies : BodiesCouple R s₀ t₀ body body')
    (hDefinitions :
      List.Forall₂ (InForceAlike R s₀ t₀) definitions
        definitions')
    {r r' : Condition}
    (hr : R.conditions s₀ t₀ r r') :
    R.Couples s₀ t₀ (anyObject body r definitions)
      (anyObject body' r' definitions') R.conditions := by
  induction definitions generalizing
      s₀ t₀ r r' definitions' with
  | nil =>
      cases hDefinitions
      exact .pure fun _ _ hLater => hLater.keeps hr
  | cons entry rest ih =>
      cases hDefinitions with
      | @cons _ entry' _ rest' hEntry hRest =>
          apply
            (couples_objectValue hBodies
              hEntry.definition).bind
          intro s t v v' hLater hv
          have hTruth := hv.truth hLawful hLater.spaces
          apply
            (hLawful.and (hLater.keeps hEntry.condition)
              hTruth).bind
          intro s' t' both both' hLater' hBoth
          have hLaterAll := hLater.trans hLater'
          apply
            (hLawful.or (hLaterAll.keeps hr) hBoth).bind
          intro s'' t'' r r' hLater'' hr'
          have hLaterEnd := hLaterAll.trans hLater''
          exact
            ih (hBodies.later hLaterEnd)
              (hRest.imp fun _ _ h => h.later hLaterEnd) hr'

theorem couples_someObject
    (hLawful : R.Lawful)
    (hSpaces : R.spaces s₀ t₀)
    (hBodies : BodiesCouple R s₀ t₀ body body')
    (hDefinitions :
      List.Forall₂ (InForceAlike R s₀ t₀) definitions
        definitions')
    {undecided undecided' : Condition}
    (hUndecided :
      R.conditions s₀ t₀ undecided undecided')
    (name : String) :
    R.Couples s₀ t₀
      (nameValue.someObject body name definitions undecided)
      (nameValue.someObject body' name definitions'
        undecided')
      (Value.Alike R) := by
  unfold nameValue.someObject
  apply
    (couples_anyObject hLawful hBodies hDefinitions
      (hLawful.zero hSpaces)).bind
  intro s t r r' hLater hr
  have hUndecided' := hLater.keeps hUndecided
  have hZero :=
    hLawful.eq_zero_iff hLater.spaces hUndecided'
  by_cases hNone : undecided = .zero
  · rw [if_pos hNone, if_pos (hZero.mp hNone)]
    exact .pure fun _ _ hLater' =>
      .condition (hLater'.keeps hr)
  rw [if_neg hNone, if_neg (hZero.not.mp hNone)]
  apply (hLawful.atom s t (.defined name)).bind
  intro s' t' free free' hLater' hFree
  apply (hLawful.and (hLater'.keeps hUndecided') hFree).bind
  intro s'' t'' both both' hLater'' hBoth
  apply
    (hLawful.or ((hLater'.trans hLater'').keeps hr)
      hBoth).bind
  intro s₃ t₃ c c' _ hc
  exact .pure fun _ _ hLater₄ => .condition (hLater₄.keeps hc)

theorem any_isFunctionLike_eq
    (hDefinitions :
      List.Forall₂ (InForceAlike R s t) definitions
        definitions') :
    definitions.any (·.2.isFunctionLike) =
      definitions'.any (·.2.isFunctionLike) := by
  induction hDefinitions with
  | nil => rfl
  | cons hFirst _ ih =>
      rw [List.any_cons, List.any_cons, ih,
        hFirst.definition.isFunctionLike_eq]

theorem couples_nameValue
    (hLawful : R.Lawful)
    (hTable :
      Definitions.Alike R s₀ t₀ e.definitions e'.definitions)
    (hBodies : BodiesCouple R s₀ t₀ body body')
    (name : String) :
    R.Couples s₀ t₀ (e.nameValue body name)
      (e'.nameValue body' name) (Value.Alike R) := by
  unfold nameValue
  apply (couples_inForce hLawful hTable name).bind
  rintro s t ⟨definitions, undecided⟩
    ⟨definitions', undecided'⟩ hLater
    ⟨hDefinitions, hUndecided⟩
  dsimp only at hDefinitions hUndecided ⊢
  have hBodies' := hBodies.later hLater
  have hSome :=
    couples_someObject hLawful hLater.spaces hBodies'
      hDefinitions hUndecided name
  rw [any_isFunctionLike_eq hDefinitions]
  by_cases hFunction :
      definitions'.any (·.2.isFunctionLike) = true
  · rw [if_pos hFunction, if_pos hFunction]
    exact Value.couples_verbatim hLawful name
  rw [if_neg hFunction, if_neg hFunction]
  cases hDefinitions with
  | nil => exact hSome
  | @cons entry entry' rest rest' hEntry hRest =>
      cases hRest with
      | cons => exact hSome
      | nil =>
          have hOne :=
            hLawful.eq_one_iff hLater.spaces hEntry.condition
          dsimp only
          by_cases hAll : entry.1 = .one
          · rw [if_pos hAll, if_pos (hOne.mp hAll)]
            exact
              couples_objectValue hBodies' hEntry.definition
          · rw [if_neg hAll, if_neg (hOne.not.mp hAll)]
            exact hSome

theorem substitute_alike
    {m m' : Macro}
    (hMacro : m.Alike m')
    {arguments arguments' : List (List Token)}
    (hArguments : ArgumentsAlike arguments arguments') :
    Option.Rel Token.Alike (m.substitute arguments)
      (m'.substitute arguments') := by
  have hEq :
      (m.substitute arguments).map (·.map Token.bare) =
        (m'.substitute arguments').map
          (·.map Token.bare) := by
    rw [← m.substitute_bare, ← m'.substitute_bare,
      hMacro.bare_eq, hArguments]
  generalize m.substitute arguments = tokens at hEq ⊢
  generalize m'.substitute arguments' = tokens' at hEq ⊢
  cases tokens with
  | none =>
      cases tokens' with
      | none => exact .none
      | some => cases hEq
  | some tokens =>
      cases tokens' with
      | none => cases hEq
      | some tokens' => exact .some (Option.some.inj hEq)

theorem couples_callValue
    (hLawful : R.Lawful)
    (hTable :
      Definitions.Alike R s₀ t₀ e.definitions e'.definitions)
    (hBodies : BodiesCouple R s₀ t₀ body body')
    (name : String)
    {arguments arguments' : List (List Token)}
    (hArguments : ArgumentsAlike arguments arguments')
    (text : String) :
    R.Couples s₀ t₀ (e.callValue body name arguments text)
      (e'.callValue body' name arguments' text)
      (Value.Alike R) := by
  unfold callValue
  apply (couples_inForce hLawful hTable name).bind
  rintro s t ⟨definitions, undecided⟩
    ⟨definitions', undecided'⟩ hLater ⟨hDefinitions, _⟩
  have hVerbatim :
      R.Couples s t (Value.verbatim text)
        (Value.verbatim text) (Value.Alike R) :=
    Value.couples_verbatim hLawful text
  dsimp only at hDefinitions ⊢
  cases hDefinitions with
  | nil => exact hVerbatim
  | @cons entry entry' rest rest' hEntry hRest =>
      cases hRest with
      | cons => exact hVerbatim
      | nil =>
          have hOne :=
            hLawful.eq_one_iff hLater.spaces hEntry.condition
          have hTokens :=
            substitute_alike hEntry.definition hArguments
          dsimp only
          by_cases hAll : entry.1 = .one
          · rw [if_pos hAll, if_pos (hOne.mp hAll)]
            generalize entry.2.substitute arguments = tokens
              at hTokens ⊢
            generalize
              entry'.2.substitute arguments' = tokens'
              at hTokens ⊢
            cases hTokens with
            | none => exact hVerbatim
            | some hTokens =>
                exact hBodies.later hLater _ _ hTokens
          · rw [if_neg hAll, if_neg (hOne.not.mp hAll)]
            exact hVerbatim

theorem takesArguments_eq
    (hTable :
      Definitions.Alike R s t e.definitions e'.definitions)
    (hFree : e.isFree = e'.isFree)
    (expanding : List String) :
    e.takesArguments expanding =
      e'.takesArguments expanding := by
  funext name
  unfold takesArguments isAtomic
  rw [hFree, hTable.isFunctionLike_eq]

/-
  Tokens that differ at most in where they stand have values
  alike, by induction on how many macros may be inside them.
-/
theorem couples_valueWithin
    (hLawful : R.Lawful)
    (hTable :
      Definitions.Alike R s₀ t₀ e.definitions e'.definitions)
    (hFree : e.isFree = e'.isFree)
    (depth : Nat)
    (expanding : List String)
    {tokens tokens' : List Token}
    (hTokens : Token.Alike tokens tokens') :
    Evaluation.Couples R s₀ t₀
      (e.valueWithin depth expanding tokens)
      (e'.valueWithin depth expanding tokens')
      (Value.Alike R) := by
  induction depth generalizing
      s₀ t₀ expanding tokens tokens' with
  | zero => exact .failure
  | succ depth ih =>
      have hBodies (name : String) :
          BodiesCouple R s₀ t₀
            (fun tokens =>
              (e.valueWithin depth (name :: expanding)
                  tokens).run >>= fun v =>
                Value.orVerbatim v (Token.spell tokens))
            (fun tokens =>
              (e'.valueWithin depth (name :: expanding)
                  tokens).run >>= fun v =>
                Value.orVerbatim v (Token.spell tokens)) := by
        intro tokens tokens' hTokens
        apply Coupling.Couples.bind
          (ih hTable (name :: expanding) hTokens)
        intro s t v v' _ hv
        rw [hTokens.spell_eq]
        exact Value.couples_orVerbatim hLawful hv _
      have hBare :
          (Expression.read (e.takesArguments expanding)
              tokens).bare =
            (Expression.read (e'.takesArguments expanding)
              tokens').bare := by
        rw [← Expression.read_bare, ← Expression.read_bare,
          hTokens, takesArguments_eq hTable hFree]
      rw [valueWithin, valueWithin]
      apply Expression.couples_evaluate hLawful _ hBare
      constructor
      · exact couples_whetherDefined hLawful hTable
      · intro name
        have hAtomic :
            e.isAtomic expanding name =
              e'.isAtomic expanding name := by
          unfold isAtomic
          rw [hFree]
        dsimp only
        rw [hAtomic]
        by_cases hAtom : e'.isAtomic expanding name = true
        · rw [if_pos hAtom, if_pos hAtom]
          exact
            (hLawful.atom s₀ t₀ (.defined name)).map
              fun _ _ _ _ _ hAlike => .condition hAlike
        · rw [if_neg hAtom, if_neg hAtom]
          exact
            couples_nameValue hLawful hTable (hBodies name)
              name
      · intro name arguments arguments' text hArguments
        exact
          couples_callValue hLawful hTable (hBodies name)
            name hArguments text
      · intro name
        exact
          (couples_inForce hLawful hTable name).map
            fun _ _ _ _ _ _ => trivial

/- The conditions of two runs for the same tokens belong together. -/
theorem couples_condition
    (hLawful : R.Lawful)
    (hTable :
      Definitions.Alike R s₀ t₀ e.definitions e'.definitions)
    (hFree : e.isFree = e'.isFree)
    {tokens tokens' : List Token}
    (hTokens : Token.Alike tokens tokens') :
    R.Couples s₀ t₀ (e.condition tokens)
      (e'.condition tokens') R.conditions := by
  unfold condition
  rw [List.Forall₂.length_eq hTable]
  apply Coupling.Couples.bind
    (couples_valueWithin hLawful hTable hFree _ [] hTokens)
  intro s t v v' hLater hv
  cases hv with
  | none =>
      rw [hTokens.spell_eq]
      exact hLawful.atom s t _
  | some hv =>
      apply Coupling.Couples.pure
      intro s' t' hLater'
      exact
        (hv.later hLater').truth hLawful hLater'.spaces

end Evaluator

end Variability
