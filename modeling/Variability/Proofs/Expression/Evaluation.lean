import Variability.Expression.Evaluation
import Variability.Proofs.Macro.Definitions

/-
  Evaluating an expression gives a condition of the space.

  Whatever an expression and the macros in it are, its evaluation
  leaves a sound space that has grown, and the condition it gives
  is live there. This goes by the tree of the expression, and for
  macros by how many may still be inside each other.

  Main declarations:
    * `Value.IsLive`
    * `Expression.ensures_evaluate`
    * `Evaluator.ensures_condition`
-/

namespace Variability

open InSpace

variable {α β : Type}
variable {s s' s₀ : Space}

------------------------------------------------------------
-- Values
------------------------------------------------------------

namespace Value

/- A number, or a condition that is live. -/
def IsLive (s : Space) : Value → Prop
  | .number _ => True
  | .condition c => s.manager.IsLive c

theorem IsLive.grows
    {v : Value}
    (hLive : v.IsLive s)
    (hGrows : s.Grows s') :
    v.IsLive s' := by
  cases v with
  | number => trivial
  | condition c => exact hGrows.isLive hLive

theorem IsLive.truth
    {v : Value}
    (hLive : v.IsLive s)
    (hSound : s.Sound) :
    s.manager.IsLive v.truth := by
  cases v with
  | number n =>
      unfold Value.truth
      by_cases hZero : n = 0
      · simpa only [hZero, if_true] using
          hSound.manager.reduced.isLive_zero
      · simpa only [hZero, if_false] using
          hSound.manager.reduced.isLive_one
  | condition c => exact hLive

theorem ensures_verbatim (text : String) :
    Ensures s₀ (Value.verbatim text) fun s v =>
      v.IsLive s :=
  (Condition.ensures_atom (.verbatim text)).map
    fun _ _ _ _ hMeans => hMeans.isLive

theorem ensures_orVerbatim
    {v : Option Value}
    (hLive : ∀ x, v = some x → x.IsLive s₀)
    (text : String) :
    Ensures s₀ (Value.orVerbatim v text) fun s v =>
      v.IsLive s := by
  cases v with
  | none => exact ensures_verbatim text
  | some x =>
      apply Ensures.pure
      intro s _ hGrows
      exact (hLive x rfl).grows hGrows

end Value

/- The results of signs and operators are live. -/
theorem Sign.isLive_result
    {op : Sign}
    {v w : Value}
    (hLive : v.IsLive s)
    (hResult : op.result? v = some w) :
    w.IsLive s := by
  cases op <;> cases v <;>
    simp only [Sign.result?, Option.some.injEq,
      reduceCtorEq] at hResult <;>
    subst hResult
  all_goals first
    | trivial
    | exact (s.manager.isLive_neg _).mpr hLive

theorem Operator.isLive_result
    {op : Operator}
    {v w x : Value}
    (hResult : op.result? v w = some x) :
    x.IsLive s := by
  cases v with
  | condition c => simp [Operator.result?] at hResult
  | number n =>
      cases w with
      | condition c => simp [Operator.result?] at hResult
      | number k =>
          rcases Option.map_eq_some_iff.mp hResult with
            ⟨y, _, rfl⟩
          trivial

theorem Connective.ensures_result
    {op : Connective}
    {v w : Value}
    (hSound : s₀.Sound)
    (hv : v.IsLive s₀)
    (hw : w.IsLive s₀) :
    Ensures s₀ (op.result v w) fun s x => x.IsLive s := by
  have hvTruth := Space.means_self (hv.truth hSound)
  have hwTruth := Space.means_self (hw.truth hSound)
  have hOr :
      Ensures s₀
        (Value.condition <$> Condition.or v.truth w.truth)
        fun s x => x.IsLive s :=
    (Condition.ensures_or hvTruth hwTruth).map
      fun _ _ _ _ hMeans => hMeans.isLive
  have hAnd :
      Ensures s₀
        (Value.condition <$> Condition.and v.truth w.truth)
        fun s x => x.IsLive s :=
    (Condition.ensures_and hvTruth hwTruth).map
      fun _ _ _ _ hMeans => hMeans.isLive
  cases op with
  | or =>
      cases v with
      | condition c => exact hOr
      | number n =>
          cases w with
          | condition c => exact hOr
          | number k => exact .pure fun _ _ _ => trivial
  | and =>
      cases v with
      | condition c => exact hAnd
      | number n =>
          cases w with
          | condition c => exact hAnd
          | number k => exact .pure fun _ _ _ => trivial

------------------------------------------------------------
-- Evaluations
------------------------------------------------------------

namespace Evaluation

/- What an evaluation ensures of the value it gives, if any. -/
def Ensures
    (s₀ : Space)
    (f : Evaluation α)
    (post : Space → α → Prop) : Prop :=
  InSpace.Ensures s₀ f.run fun s out =>
    ∀ x, out = some x → post s x

namespace Ensures

variable {f : Evaluation α}
variable {g : α → Evaluation β}
variable {post : Space → α → Prop}
variable {post' : Space → β → Prop}

theorem failure :
    Ensures s₀ (failure : Evaluation α) post :=
  InSpace.Ensures.pure fun _ _ _ _ hNone => by cases hNone

theorem pure
    {x : α}
    (hPost : ∀ s, s.Sound → s₀.Grows s → post s x) :
    Ensures s₀ (Pure.pure x) post :=
  InSpace.Ensures.pure fun s hSound hGrows y hSome => by
    cases hSome
    exact hPost s hSound hGrows

theorem lift
    {h : InSpace α}
    (hEnsures : InSpace.Ensures s₀ h post) :
    Ensures s₀ (liftM h) post :=
  InSpace.Ensures.map hEnsures fun _ _ _ _ hx _ hSome => by
    cases hSome
    exact hx

theorem bind
    (hFirst : Ensures s₀ f post)
    (hRest :
      ∀ s x, s.Sound → s₀.Grows s → post s x →
        Ensures s (g x) post') :
    Ensures s₀ (f >>= g) post' := by
  unfold Ensures
  rw [OptionT.run_bind]
  apply InSpace.Ensures.bind hFirst
  intro s out hSound hGrows hOut
  cases out with
  | none => exact Ensures.failure
  | some x => exact hRest s x hSound hGrows (hOut x rfl)

theorem map
    {h : α → β}
    (hEnsures : Ensures s₀ f post)
    (hPost :
      ∀ s x, s.Sound → s₀.Grows s → post s x →
        post' s (h x)) :
    Ensures s₀ (h <$> f) post' := by
  unfold Ensures
  rw [OptionT.run_map]
  apply InSpace.Ensures.map hEnsures
  intro s out hSound hGrows hOut y hSome
  rcases Option.map_eq_some_iff.mp hSome with ⟨x, hx, rfl⟩
  exact hPost s x hSound hGrows (hOut x hx)

theorem grows
    (hEnsures : Ensures s₀ f post)
    (hGrows : s₀.Grows s) :
    Ensures s f post :=
  InSpace.Ensures.grows hEnsures hGrows

end Ensures

end Evaluation

------------------------------------------------------------
-- Trees
------------------------------------------------------------

/- Meanings of macros that give live results from a space on. -/
structure Meanings.Safe
    (s₀ : Space)
    (m : Meanings) : Prop where
  whetherDefined :
    ∀ name, Ensures s₀ (m.whetherDefined name) fun s c =>
      s.manager.IsLive c
  reference :
    ∀ name, Ensures s₀ (m.reference name) fun s v =>
      v.IsLive s
  call :
    ∀ name arguments text,
      Ensures s₀ (m.call name arguments text) fun s v =>
        v.IsLive s
  unclosedCall :
    ∀ name, Ensures s₀ (m.unclosedCall name) fun _ _ => True

namespace Expression

/- A choice between two live values by a third. -/
theorem ensures_choice
    (hSound : s₀.Sound)
    {u v w : Value}
    (hu : u.IsLive s₀)
    (hv : v.IsLive s₀)
    (hw : w.IsLive s₀) :
    Evaluation.Ensures s₀
      (match u with
        | .number n => return if n = 0 then w else v
        | .condition c =>
            Value.condition <$>
              liftM (Condition.ite c v.truth w.truth))
      fun s x => x.IsLive s := by
  cases u with
  | number n =>
      apply Evaluation.Ensures.pure
      intro s _ hGrows
      by_cases hZero : n = 0
      · simpa only [hZero, if_true] using hw.grows hGrows
      · simpa only [hZero, if_false] using hv.grows hGrows
  | condition c =>
      have hChoice :=
        Condition.ensures_ite (Space.means_self hu)
          (Space.means_self (hv.truth hSound))
          (Space.means_self (hw.truth hSound))
      exact
        (Evaluation.Ensures.lift hChoice).map
          fun _ _ _ _ hMeans => hMeans.isLive

/- The value of a tree is live, if it has one. -/
theorem ensures_evaluate
    {m : Meanings}
    (hSafe : m.Safe s₀)
    (e : Expression) :
    Evaluation.Ensures s₀ (evaluate m e) fun s v =>
      v.IsLive s := by
  induction e with
  | number v => exact .pure fun _ _ _ => trivial
  | defined name =>
      exact
        (Evaluation.Ensures.lift
          (hSafe.whetherDefined name)).map
            fun _ _ _ _ hLive => hLive
  | builtin text => exact .lift (Value.ensures_verbatim text)
  | reference name => exact .lift (hSafe.reference name)
  | call name arguments text =>
      cases arguments with
      | some arguments =>
          exact .lift (hSafe.call name arguments text)
      | none =>
          apply Evaluation.Ensures.bind
            (.lift (hSafe.unclosedCall name))
          intro s _ _ _ _
          exact .failure
  | sign op e text ih =>
      apply ih.bind
      intro s v _ _ hv
      apply Evaluation.Ensures.lift
      apply Value.ensures_orVerbatim
      intro x hx
      exact Sign.isLive_result hv hx
  | operation op l r text ihl ihr =>
      apply ihl.bind
      intro s v _ hGrows hv
      apply (ihr.grows hGrows).bind
      intro s' w _ _ _
      apply Evaluation.Ensures.lift
      apply Value.ensures_orVerbatim
      intro x hx
      exact Operator.isLive_result hx
  | connective op l r ihl ihr =>
      apply ihl.bind
      intro s v _ hGrows hv
      apply (ihr.grows hGrows).bind
      intro s' w hSound hGrows' hw
      apply Evaluation.Ensures.lift
      exact
        Connective.ensures_result hSound (hv.grows hGrows')
          hw
  | conditional test yes no ihTest ihYes ihNo =>
      apply ihTest.bind
      intro s c _ hGrows hc
      apply (ihYes.grows hGrows).bind
      intro s' v _ hGrows' hv
      apply (ihNo.grows (hGrows.trans hGrows')).bind
      intro s'' w hSound hGrows'' hw
      exact
        ensures_choice hSound
          (hc.grows (hGrows'.trans hGrows''))
          (hv.grows hGrows'') hw
  | excess e ih =>
      apply ih.bind
      intro s _ _ _ _
      exact .failure
  | malformed => exact .failure

end Expression

------------------------------------------------------------
-- Macros
------------------------------------------------------------

namespace Evaluator

variable {e : Evaluator}
variable {body : List Token → InSpace Value}

/- Values that the bodies of macros have are live. -/
def SafeBody
    (s₀ : Space)
    (body : List Token → InSpace Value) : Prop :=
  ∀ tokens, Ensures s₀ (body tokens) fun s v => v.IsLive s

theorem SafeBody.grows
    (hBody : SafeBody s₀ body)
    (hGrows : s₀.Grows s) :
    SafeBody s body :=
  fun tokens => (hBody tokens).grows hGrows

theorem ensures_objectValue
    (hBody : SafeBody s₀ body)
    (m : Macro) :
    Ensures s₀ (objectValue body m) fun s v =>
      v.IsLive s := by
  unfold objectValue
  cases m.body with
  | nil => exact .pure fun _ _ _ => trivial
  | cons t ts => exact hBody (t :: ts)

/- Definitions with live conditions. -/
def AllLive
    (s : Space)
    (definitions : List (Condition × Macro)) : Prop :=
  ∀ entry ∈ definitions, s.manager.IsLive entry.1

theorem ensures_anyObject
    {definitions : List (Condition × Macro)}
    {r : Condition}
    (hBody : SafeBody s₀ body)
    (hLive : AllLive s₀ definitions)
    (hr : s₀.manager.IsLive r) :
    Ensures s₀ (anyObject body r definitions) fun s c =>
      s.manager.IsLive c := by
  induction definitions generalizing s₀ r with
  | nil => exact .pure fun _ _ hGrows => hGrows.isLive hr
  | cons entry rest ih =>
      rcases entry with ⟨c, m⟩
      have hc : s₀.manager.IsLive c :=
        hLive (c, m) List.mem_cons_self
      apply (ensures_objectValue hBody m).bind
      intro s v hSound hGrows hv
      apply
        (Condition.ensures_and
          (Space.means_self (hGrows.isLive hc))
          (Space.means_self (hv.truth hSound))).bind
      intro s' both _ hGrows' hBoth
      have hGrowsAll := hGrows.trans hGrows'
      apply
        (Condition.ensures_or
          (Space.means_self (hGrowsAll.isLive hr))
          hBoth).bind
      intro s'' r' _ hGrows'' hr'
      have hGrowsEnd := hGrowsAll.trans hGrows''
      apply ih (hBody.grows hGrowsEnd) _ hr'.isLive
      intro entry hEntry
      exact
        hGrowsEnd.isLive
          (hLive entry (List.mem_cons_of_mem _ hEntry))

theorem ensures_someObject
    {definitions : List (Condition × Macro)}
    {undecided : Condition}
    (hSound : s₀.Sound)
    (hBody : SafeBody s₀ body)
    (hLive : AllLive s₀ definitions)
    (hUndecided : s₀.manager.IsLive undecided)
    (name : String) :
    Ensures s₀
      (nameValue.someObject body name definitions undecided)
      fun s v => v.IsLive s := by
  unfold nameValue.someObject
  apply
    (ensures_anyObject hBody hLive
      hSound.manager.reduced.isLive_zero).bind
  intro s r _ hGrows hr
  by_cases hZero : undecided = .zero
  · rw [if_pos hZero]
    exact .pure fun _ _ hGrows' => hGrows'.isLive hr
  · rw [if_neg hZero]
    apply (Condition.ensures_atom (.defined name)).bind
    intro s' free _ hGrows' hFree
    have hUndecided' :=
      (hGrows.trans hGrows').isLive hUndecided
    apply
      (Condition.ensures_and
        (Space.means_self hUndecided') hFree).bind
    intro s'' both _ hGrows'' hBoth
    have hr' := (hGrows'.trans hGrows'').isLive hr
    apply
      (Condition.ensures_or (Space.means_self hr')
        hBoth).bind
    intro s₃ c _ _ hc
    exact
      .pure fun _ _ hGrows₄ => hGrows₄.isLive hc.isLive

theorem ensures_nameValue
    (hTable : Definitions.IsLive s₀ e.definitions)
    (hBody : SafeBody s₀ body)
    (name : String) :
    Ensures s₀ (e.nameValue body name) fun s v =>
      v.IsLive s := by
  unfold nameValue
  apply (Definitions.ensures_inForce hTable name).bind
  rintro s ⟨definitions, undecided⟩ hSound hGrows
    ⟨hLive, hUndecided⟩
  have hSome :=
    ensures_someObject hSound (hBody.grows hGrows) hLive
      hUndecided name
  by_cases hFunction :
      definitions.any (·.2.isFunctionLike) = true
  · simp only [hFunction, if_true]
    exact Value.ensures_verbatim name
  simp only [hFunction]
  match definitions with
  | [] => exact hSome
  | [(c, m)] =>
      by_cases hOne : c = .one
      · simp only [hOne, if_true]
        exact ensures_objectValue (hBody.grows hGrows) m
      · simp only [hOne, if_false]
        exact hSome
  | _ :: _ :: _ => exact hSome

theorem ensures_callValue
    (hTable : Definitions.IsLive s₀ e.definitions)
    (hBody : SafeBody s₀ body)
    (name : String)
    (arguments : List (List Token))
    (text : String) :
    Ensures s₀ (e.callValue body name arguments text)
      fun s v => v.IsLive s := by
  unfold callValue
  apply (Definitions.ensures_inForce hTable name).bind
  rintro s ⟨definitions, undecided⟩ _ hGrows _
  match definitions with
  | [] => exact Value.ensures_verbatim text
  | [(c, m)] =>
      cases hTokens :
          if c = .one then m.substitute arguments
          else none with
      | some tokens =>
          simp only [hTokens]
          exact hBody.grows hGrows tokens
      | none =>
          simp only [hTokens]
          exact Value.ensures_verbatim text
  | _ :: _ :: _ => exact Value.ensures_verbatim text

/- The value of a body inside the bodies that are expanding. -/
def bodyValue
    (e : Evaluator)
    (depth : Nat)
    (expanding : List String)
    (tokens : List Token) :
    InSpace Value := do
  let v ← e.valueWithin depth expanding tokens
  Value.orVerbatim v (Token.spell tokens)

/- What macros mean where some of them are expanding. -/
def meanings
    (e : Evaluator)
    (depth : Nat)
    (expanding : List String) :
    Meanings where
  whetherDefined := e.definitions.whetherDefined
  reference name :=
    if e.isAtomic expanding name then
      .condition <$> Condition.defined name
    else
      e.nameValue (e.bodyValue depth (name :: expanding)) name
  call name :=
    e.callValue (e.bodyValue depth (name :: expanding)) name
  unclosedCall name :=
    (fun _ => ()) <$> e.definitions.inForce name

/- Tokens have the value of the expression that is read from them. -/
theorem valueWithin_succ
    (e : Evaluator)
    (depth : Nat)
    (expanding : List String)
    (tokens : List Token) :
    e.valueWithin (depth + 1) expanding tokens =
      (Expression.read (e.takesArguments expanding)
        tokens).evaluate (e.meanings depth expanding) := by
  rw [valueWithin]
  rfl

/- The value of some tokens is live, if they have one. -/
theorem ensures_valueWithin
    (hTable : Definitions.IsLive s₀ e.definitions)
    (depth : Nat)
    (expanding : List String)
    (tokens : List Token) :
    Evaluation.Ensures s₀
      (e.valueWithin depth expanding tokens)
      fun s v => v.IsLive s := by
  induction depth generalizing s₀ expanding tokens with
  | zero => exact .failure
  | succ depth ih =>
      rw [valueWithin_succ]
      have hBody (name : String) :
          SafeBody s₀
            (e.bodyValue depth (name :: expanding)) := by
        intro tokens
        apply InSpace.Ensures.bind
          (ih hTable (name :: expanding) tokens)
        intro s v _ _ hv
        exact Value.ensures_orVerbatim hv _
      apply Expression.ensures_evaluate
      constructor
      · intro name
        exact
          (Definitions.ensures_whetherDefined hTable
            name).imp fun _ _ _ _ hMeans => hMeans.isLive
      · intro name
        by_cases hAtomic : e.isAtomic expanding name = true
        · simp only [meanings, hAtomic, if_true]
          exact
            (Condition.ensures_atom (.defined name)).map
              fun _ _ _ _ hMeans => hMeans.isLive
        · simp only [meanings, hAtomic]
          exact ensures_nameValue hTable (hBody name) name
      · intro name arguments text
        exact
          ensures_callValue hTable (hBody name) name
            arguments text
      · intro name
        exact
          (Definitions.ensures_inForce hTable name).map
            fun _ _ _ _ _ => trivial

/- The condition of some tokens is live. -/
theorem ensures_condition
    (hTable : Definitions.IsLive s₀ e.definitions)
    (tokens : List Token) :
    Ensures s₀ (e.condition tokens) fun s c =>
      s.manager.IsLive c := by
  unfold condition
  apply InSpace.Ensures.bind
    (ensures_valueWithin hTable _ [] tokens)
  intro s v hSound hGrows hv
  cases v with
  | some v =>
      exact
        .pure fun s' hSound' hGrows' =>
          ((hv v rfl).grows hGrows').truth hSound'
  | none =>
      exact
        (Condition.ensures_atom _).imp
          fun _ _ _ _ hMeans => hMeans.isLive

end Evaluator

end Variability
