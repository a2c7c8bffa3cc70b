import Variability.Proofs.Expression.Literals

/-
  Expressions at one assignment.

  At one assignment every value that an expression can have is
  a number or a truth value, and which of them it is can be told
  without building conditions. The evaluation over conditions
  finds the same numbers, and conditions that have these truth
  values there.

  Main declarations:
    * `Computed`
    * `World`
    * `Expression.outcome?`
    * `Evaluator.outcomeWithin`
    * `Evaluator.ensures_condition_in`
-/

namespace Variability

------------------------------------------------------------
-- Outcomes
------------------------------------------------------------

/- What a value is at one assignment. -/
inductive Computed where
  | number (v : Int64)
  | truth (b : Bool)
  deriving DecidableEq, Repr

/- Whether an outcome counts as true. -/
def Computed.holds : Computed → Bool
  | .number v => v ≠ 0
  | .truth b => b

def Sign.outcome? : Sign → Computed → Option Computed
  | .not, .truth b => some (.truth !b)
  | op, .number v => some (.number (op.apply v))
  | _, .truth _ => none

theorem Sign.outcome?_number
    (op : Sign)
    (v : Int64) :
    op.outcome? (.number v) = some (.number (op.apply v)) := by
  cases op <;> rfl

def Operator.outcome? (op : Operator) :
    Computed → Computed → Option Computed
  | .number a, .number b => (op.compute? a b).map .number
  | _, _ => none

/- An operation has an outcome if it can be computed. -/
theorem Operator.exists_of_outcome?
    (op : Operator)
    {o o' x : Computed}
    (hOutcome : op.outcome? o o' = some x) :
    ∃ v w y, o = .number v ∧ o' = .number w ∧
      op.compute? v w = some y ∧ x = .number y := by
  cases o with
  | truth b => cases hOutcome
  | number v =>
      cases o' with
      | truth b => cases hOutcome
      | number w =>
          rcases Option.map_eq_some_iff.mp hOutcome with
            ⟨y, hy, rfl⟩
          exact ⟨v, w, y, rfl, rfl, hy, rfl⟩

/- A connective of truth values. -/
def Connective.ofBool (p q : Bool) : Connective → Bool
  | .or => p || q
  | .and => p && q

def Connective.outcome (op : Connective) :
    Computed → Computed → Computed
  | .number a, .number b => .number (op.apply a b)
  | l, r => .truth (op.ofBool l.holds r.holds)

/- The outcome of a choice between two others. -/
def Computed.choose (o yes no : Computed) : Computed :=
  match o with
  | .number v => if v = 0 then no else yes
  | .truth b => .truth (if b then yes.holds else no.holds)

/- What macros, calls and uses as they are written come to. -/
structure Outcomes where
  whetherDefined : String → Bool
  reference : String → Computed
  call : String → List (List Token) → String → Computed
  verbatim : String → Bool

/- An outcome that is there, or else that of the use as written. -/
def Outcomes.orVerbatim
    (m : Outcomes)
    (o : Option Computed)
    (text : String) :
    Computed :=
  o.getD (.truth (m.verbatim text))

/- The outcome of an expression, if it has one. -/
def Expression.outcome? (m : Outcomes) :
    Expression → Option Computed
  | .number v => some (.number v)
  | .defined name => some (.truth (m.whetherDefined name))
  | .builtin text => some (.truth (m.verbatim text))
  | .reference name => some (m.reference name)
  | .call name (some arguments) text =>
      some (m.call name arguments text)
  | .call _ none _ => none
  | .sign op e text => do
      let o ← e.outcome? m
      some (m.orVerbatim (op.outcome? o) text)
  | .operation op l r text => do
      let a ← l.outcome? m
      let b ← r.outcome? m
      some (m.orVerbatim (op.outcome? a b) text)
  | .connective op l r => do
      let a ← l.outcome? m
      let b ← r.outcome? m
      some (op.outcome a b)
  | .conditional test yes no => do
      let c ← test.outcome? m
      let a ← yes.outcome? m
      let b ← no.outcome? m
      some (c.choose a b)
  | .excess _ | .malformed => none

namespace Expression

variable {m : Outcomes}
variable {f l r : Expression}
variable {o o' o'' : Computed}

theorem outcome?_sign
    (op : Sign)
    (text : String)
    (hSome : f.outcome? m = some o) :
    (sign op f text).outcome? m =
      some (m.orVerbatim (op.outcome? o) text) := by
  rw [outcome?, hSome]
  rfl

theorem outcome?_operation
    (op : Operator)
    (text : String)
    (hLeft : l.outcome? m = some o)
    (hRight : r.outcome? m = some o') :
    (operation op l r text).outcome? m =
      some (m.orVerbatim (op.outcome? o o') text) := by
  rw [outcome?, hLeft, hRight]
  rfl

theorem outcome?_connective
    (op : Connective)
    (hLeft : l.outcome? m = some o)
    (hRight : r.outcome? m = some o') :
    (connective op l r).outcome? m =
      some (op.outcome o o') := by
  rw [outcome?, hLeft, hRight]
  rfl

theorem outcome?_conditional
    (hTest : f.outcome? m = some o)
    (hYes : l.outcome? m = some o')
    (hNo : r.outcome? m = some o'') :
    (conditional f l r).outcome? m = some (o.choose o' o'') := by
  rw [outcome?, hTest, hYes, hNo]
  rfl

end Expression

------------------------------------------------------------
-- Worlds
------------------------------------------------------------

/- The truth of conditions and of atoms at one assignment. -/
structure World where
  holds : Condition → Bool
  value : Atom → Bool

namespace World

/- Whether some decision of a kind is in force. -/
def decided
    (W : World)
    (p : Decision → Bool)
    (ds : List Decision) :
    Bool :=
  ds.any fun d => p d && W.holds d.condition

/- Whether a macro is defined. -/
def whetherDefined
    (W : World)
    (table : Definitions)
    (name : String) :
    Bool :=
  W.decided (·.definition.isSome) (table.decisions name) ||
    !W.decided (fun _ => true) (table.decisions name) &&
      W.value (.defined name)

/- The world that an assignment of a space is. -/
def ofSpace (s : Space) (a : Nat → Bool) : World where
  holds c := s.manager.eval c a
  value := s.atomValue a

/-
  An assignment of a space is a world, as far as the atoms of
  the space and the conditions of a table are concerned.
-/
structure Realizes
    (W : World)
    (table : Definitions)
    (s : Space)
    (a : Nat → Bool) : Prop where
  assigns : Coupling.Assigns s W.value a
  eval_eq :
    ∀ name, ∀ d ∈ table.decisions name,
      s.manager.eval d.condition a = W.holds d.condition

end World

namespace Evaluator

/- The outcome of a macro without arguments, given that of its body. -/
def objectOutcome
    (body : List Token → Computed)
    (m : Macro) :
    Computed :=
  match m.body with
  | [] => .number 1
  | t :: ts => body (t :: ts)

/- Whether some definition is in force and not zero. -/
def anyOutcome
    (W : World)
    (body : List Token → Computed)
    (entries : List (Condition × Macro)) :
    Bool :=
  entries.any fun d =>
    W.holds d.1 && (objectOutcome body d.2).holds

/-
  Whether one of several definitions is in force and not zero,
  or a macro that nothing was decided about is defined.
-/
def someOutcome
    (e : Evaluator)
    (W : World)
    (body : List Token → Computed)
    (name : String) :
    Bool :=
  anyOutcome W body (e.definitions.entries name) ||
    !W.decided (fun _ => true) (e.definitions.decisions name) &&
      W.value (.defined name)

/- The outcome of a macro without arguments. -/
def nameOutcome
    (e : Evaluator)
    (W : World)
    (body : List Token → Computed)
    (name : String) :
    Computed :=
  if (e.definitions.entries name).any (·.2.isFunctionLike) then
    .truth (W.value (.verbatim name))
  else
    match e.definitions.entries name with
    | [(c, m)] =>
        if c = .one then objectOutcome body m
        else .truth (e.someOutcome W body name)
    | _ => .truth (e.someOutcome W body name)

/- The outcome of a macro with arguments. -/
def callOutcome
    (e : Evaluator)
    (W : World)
    (body : List Token → Computed)
    (name : String)
    (arguments : List (List Token))
    (text : String) :
    Computed :=
  match e.definitions.entries name with
  | [(c, m)] =>
      match if c = .one then m.substitute arguments else none with
      | some tokens => body tokens
      | none => .truth (W.value (.verbatim text))
  | _ => .truth (W.value (.verbatim text))

/- What macros come to, given the outcomes of bodies inside them. -/
def outcomes
    (e : Evaluator)
    (W : World)
    (expanding : List String)
    (body : String → List Token → Computed) :
    Outcomes where
  whetherDefined := W.whetherDefined e.definitions
  reference name :=
    if e.isAtomic expanding name then
      .truth (W.value (.defined name))
    else
      e.nameOutcome W (body name) name
  call name := e.callOutcome W (body name) name
  verbatim text := W.value (.verbatim text)

/-
  The outcome of some tokens inside the bodies of the macros
  that are expanding.
-/
def outcomeWithin
    (e : Evaluator)
    (W : World) :
    (depth : Nat) →
    (expanding : List String) →
    List Token →
    Option Computed
  | 0, _, _ => none
  | depth + 1, expanding, tokens =>
      (Expression.read (e.takesArguments expanding)
        tokens).outcome?
        (e.outcomes W expanding fun name tokens =>
          (e.outcomeWithin W depth (name :: expanding)
            tokens).getD
            (.truth (W.value (.verbatim (Token.spell tokens)))))

/- The outcome of a body inside the bodies that are expanding. -/
def bodyOutcome
    (e : Evaluator)
    (W : World)
    (depth : Nat)
    (expanding : List String)
    (tokens : List Token) :
    Computed :=
  (e.outcomeWithin W depth expanding tokens).getD
    (.truth (W.value (.verbatim (Token.spell tokens))))

theorem outcomeWithin_succ
    (e : Evaluator)
    (W : World)
    (depth : Nat)
    (expanding : List String)
    (tokens : List Token) :
    e.outcomeWithin W (depth + 1) expanding tokens =
      (Expression.read (e.takesArguments expanding)
        tokens).outcome?
        (e.outcomes W expanding fun name =>
          e.bodyOutcome W depth (name :: expanding)) := by
  rw [outcomeWithin]
  rfl

variable {e : Evaluator}
variable {W : World}
variable {name : String}

/- A macro that the table misses takes no arguments. -/
theorem takesArguments_of_not_contains
    (expanding : List String)
    (hNone : e.definitions.contains name = false) :
    e.takesArguments expanding name = false := by
  unfold takesArguments
  rw [Definitions.isFunctionLike_eq,
    Definitions.entries_of_not_contains hNone]
  exact Bool.and_false _

/- It has the truth of its atom. -/
theorem outcomes_reference_of_not_contains
    (expanding : List String)
    (body : String → List Token → Computed)
    (hNone : e.definitions.contains name = false) :
    (e.outcomes W expanding body).reference name =
      .truth (W.value (.defined name)) := by
  have hDecisions :=
    Definitions.decisions_of_not_contains hNone
  have hEntries := Definitions.entries_of_not_contains hNone
  unfold outcomes
  dsimp only
  split
  · rfl
  · simp [nameOutcome, someOutcome, anyOutcome, World.decided,
      hEntries, hDecisions]

/- Whether some tokens are true in a world. -/
def holdsIn
    (e : Evaluator)
    (W : World)
    (tokens : List Token) :
    Bool :=
  (e.bodyOutcome W (e.definitions.length + 1) [] tokens).holds

end Evaluator

------------------------------------------------------------
-- Saying
------------------------------------------------------------

open InSpace

variable {s s' s₀ : Space}
variable {At : Space → (Nat → Bool) → Prop}
variable {c d f : Condition}
variable {p q r : Bool}

/-
  A condition that has a truth value, now and later, at the
  assignments of some kind.
-/
structure Space.Says
    (At : Space → (Nat → Bool) → Prop)
    (s : Space)
    (b : Bool)
    (c : Condition) : Prop where
  isLive : s.manager.IsLive c
  eval_eq :
    ∀ s', s'.Sound → s.Grows s' → ∀ a, At s' a →
      s'.manager.eval c a = b

namespace Space

theorem Says.grows
    (hSays : s.Says At p c)
    (hGrows : s.Grows s') :
    s'.Says At p c where
  isLive := hGrows.isLive hSays.isLive
  eval_eq := fun s'' hSound hGrows' =>
    hSays.eval_eq s'' hSound (hGrows.trans hGrows')

/- What a condition means at some assignments it says there. -/
theorem Means.says_of
    {value : Space → (Nat → Bool) → Bool}
    (hMeans : s.Means value c)
    (hValue :
      ∀ s', s'.Sound → s.Grows s' → ∀ a, At s' a →
        value s' a = p) :
    s.Says At p c where
  isLive := hMeans.isLive
  eval_eq := fun s' hSound hGrows a ha =>
    (hMeans.eval_eq s' hSound hGrows a).trans
      (hValue s' hSound hGrows a ha)

theorem Says.neg
    (hSays : s.Says At p c) :
    s.Says At (!p) (-c) :=
  (means_self hSays.isLive).neg.says_of
    fun s' hSound hGrows a ha => by
      rw [hSays.eval_eq s' hSound hGrows a ha]

end Space

namespace Condition

theorem ensures_says_or
    (hc : s₀.Says At p c)
    (hd : s₀.Says At q d) :
    Ensures s₀ (Condition.or c d) fun s out =>
      s.Says At (p || q) out := by
  apply
    (Condition.ensures_or (Space.means_self hc.isLive)
      (Space.means_self hd.isLive)).imp
  intro s out _ hGrows hMeans
  apply hMeans.says_of
  intro s' hSound hGrows' a ha
  have hGrowsAll := hGrows.trans hGrows'
  rw [hc.eval_eq s' hSound hGrowsAll a ha,
    hd.eval_eq s' hSound hGrowsAll a ha]

theorem ensures_says_and
    (hc : s₀.Says At p c)
    (hd : s₀.Says At q d) :
    Ensures s₀ (Condition.and c d) fun s out =>
      s.Says At (p && q) out := by
  apply
    (Condition.ensures_and (Space.means_self hc.isLive)
      (Space.means_self hd.isLive)).imp
  intro s out _ hGrows hMeans
  apply hMeans.says_of
  intro s' hSound hGrows' a ha
  have hGrowsAll := hGrows.trans hGrows'
  rw [hc.eval_eq s' hSound hGrowsAll a ha,
    hd.eval_eq s' hSound hGrowsAll a ha]

theorem ensures_says_ite
    (hc : s₀.Says At p c)
    (hd : s₀.Says At q d)
    (hf : s₀.Says At r f) :
    Ensures s₀ (Condition.ite c d f) fun s out =>
      s.Says At (if p then q else r) out := by
  apply
    (Condition.ensures_ite (Space.means_self hc.isLive)
      (Space.means_self hd.isLive)
      (Space.means_self hf.isLive)).imp
  intro s out _ hGrows hMeans
  apply hMeans.says_of
  intro s' hSound hGrows' a ha
  have hGrowsAll := hGrows.trans hGrows'
  rw [hc.eval_eq s' hSound hGrowsAll a ha,
    hd.eval_eq s' hSound hGrowsAll a ha,
    hf.eval_eq s' hSound hGrowsAll a ha]

/- The condition of an atom says what the atom is in a world. -/
theorem ensures_says_atom
    (W : World)
    (table : Definitions)
    (atom : Atom) :
    Ensures s₀ (Condition.atom atom) fun s c =>
      s.Says (W.Realizes table) (W.value atom) c := by
  apply (Condition.ensures_tells_atom W.value atom).imp
  intro s c _ _ hTells
  refine ⟨hTells.isLive, ?_⟩
  intro s' hSound hGrows a hRealizes
  exact
    hTells.eval_eq trivial s' hSound hGrows a
      hRealizes.assigns

end Condition

------------------------------------------------------------
-- Values
------------------------------------------------------------

namespace Value

variable {v w : Value}
variable {o o' : Computed}

/- A value comes to an outcome: the same number, or its truth. -/
inductive ComesTo
    (At : Space → (Nat → Bool) → Prop)
    (s : Space) :
    Value → Computed → Prop where
  | number (v : Int64) : ComesTo At s (.number v) (.number v)
  | condition {c : Condition} {b : Bool}
      (hSays : s.Says At b c) :
      ComesTo At s (.condition c) (.truth b)

theorem ComesTo.grows
    (hComes : v.ComesTo At s o)
    (hGrows : s.Grows s') :
    v.ComesTo At s' o := by
  cases hComes with
  | number v => exact .number v
  | condition hSays => exact .condition (hSays.grows hGrows)

theorem ComesTo.truth
    (hComes : v.ComesTo At s o)
    (hSound : s.Sound) :
    s.Says At o.holds v.truth := by
  cases hComes with
  | condition hSays => exact hSays
  | number v =>
      refine ⟨Value.IsLive.truth trivial hSound, ?_⟩
      intro s' _ _ a _
      exact Evaluator.eval_truth_number s' a v

theorem ensures_comesTo_verbatim
    (W : World)
    (table : Definitions)
    (text : String) :
    Ensures s₀ (Value.verbatim text) fun s v =>
      v.ComesTo (W.Realizes table) s
        (.truth (W.value (.verbatim text))) :=
  (Condition.ensures_says_atom W table _).map
    fun _ _ _ _ hSays => .condition hSays

theorem ensures_comesTo_orVerbatim
    {W : World}
    {table : Definitions}
    {x : Option Value}
    {y : Option Computed}
    (hComes :
      Option.Rel (fun v => v.ComesTo (W.Realizes table) s₀)
        x y)
    (text : String) :
    Ensures s₀ (Value.orVerbatim x text) fun s v =>
      v.ComesTo (W.Realizes table) s
        (y.getD (.truth (W.value (.verbatim text)))) := by
  cases hComes with
  | none => exact ensures_comesTo_verbatim W table text
  | some hComes =>
      exact .pure fun _ _ hGrows => hComes.grows hGrows

end Value

section Operators

variable {v w : Value}
variable {o o' : Computed}

theorem Sign.result?_comesTo
    (hComes : v.ComesTo At s o)
    (op : Sign) :
    Option.Rel (fun v => v.ComesTo At s) (op.result? v)
      (op.outcome? o) := by
  cases hComes with
  | number v =>
      rw [Sign.result?_number, Sign.outcome?_number]
      exact .some (.number _)
  | condition hSays =>
      cases op with
      | not => exact .some (.condition hSays.neg)
      | minus | plus | complement => exact .none

theorem Operator.result?_comesTo
    (hv : v.ComesTo At s o)
    (hw : w.ComesTo At s o')
    (op : Operator) :
    Option.Rel (fun v => v.ComesTo At s) (op.result? v w)
      (op.outcome? o o') := by
  cases hv with
  | condition => exact .none
  | number n =>
      cases hw with
      | condition => exact .none
      | number k =>
          simp only [Operator.result?, Operator.outcome?]
          cases op.compute? n k with
          | none => exact .none
          | some x => exact .some (.number x)

theorem Connective.ensures_result_comesTo
    (hSound : s₀.Sound)
    (hv : v.ComesTo At s₀ o)
    (hw : w.ComesTo At s₀ o')
    (op : Connective) :
    Ensures s₀ (op.result v w) fun s x =>
      x.ComesTo At s (op.outcome o o') := by
  have hvTruth := hv.truth hSound
  have hwTruth := hw.truth hSound
  have hTruth :
      Ensures s₀
        (match op with
          | .or => Value.condition <$>
              Condition.or v.truth w.truth
          | .and => Value.condition <$>
              Condition.and v.truth w.truth)
        fun s x =>
          x.ComesTo At s
            (.truth (op.ofBool o.holds o'.holds)) := by
    cases op with
    | or =>
        exact
          (Condition.ensures_says_or hvTruth hwTruth).map
            fun _ _ _ _ hSays => .condition hSays
    | and =>
        exact
          (Condition.ensures_says_and hvTruth hwTruth).map
            fun _ _ _ _ hSays => .condition hSays
  cases hv with
  | condition => exact hTruth
  | number n =>
      cases hw with
      | condition => exact hTruth
      | number k =>
          cases op <;>
            simp only [Connective.result, Connective.outcome,
              Connective.apply, Connective.holds,
              Value.ofBool] <;>
            exact .pure fun _ _ _ => .number _

end Operators

------------------------------------------------------------
-- Trees
------------------------------------------------------------

namespace Evaluation

variable {α β γ δ : Type}
variable {g : Evaluation α}
variable {h : α → Evaluation β}
variable {x : Option γ}
variable {k : γ → Option δ}
variable {post : Space → α → γ → Prop}
variable {post' : Space → β → δ → Prop}

/- An evaluation gives what is there in advance, or neither does. -/
def Follows
    (s₀ : Space)
    (g : Evaluation α)
    (x : Option γ)
    (post : Space → α → γ → Prop) : Prop :=
  InSpace.Ensures s₀ g.run fun s out =>
    Option.Rel (post s) out x

namespace Follows

theorem fail :
    Follows s₀ (failure : Evaluation α) none post :=
  InSpace.Ensures.pure fun _ _ _ => .none

theorem pure
    {y : α}
    {z : γ}
    (hPost : ∀ s, s.Sound → s₀.Grows s → post s y z) :
    Follows s₀ (Pure.pure y) (some z) post :=
  InSpace.Ensures.pure fun s hSound hGrows =>
    .some (hPost s hSound hGrows)

theorem lift
    {g : InSpace α}
    {z : γ}
    (hEnsures :
      InSpace.Ensures s₀ g fun s y => post s y z) :
    Follows s₀ (liftM g) (some z) post :=
  InSpace.Ensures.map hEnsures fun _ _ _ _ hy => .some hy

theorem bind
    (hFirst : Follows s₀ g x post)
    (hRest :
      ∀ s y z, s.Sound → s₀.Grows s → post s y z →
        Follows s (h y) (k z) post') :
    Follows s₀ (g >>= h) (x >>= k) post' := by
  unfold Follows
  rw [OptionT.run_bind]
  apply InSpace.Ensures.bind hFirst
  intro s out hSound hGrows hOut
  cases hOut with
  | none => exact Follows.fail
  | some hPost => exact hRest s _ _ hSound hGrows hPost

theorem map
    {h : α → β}
    {k : γ → δ}
    (hFollows : Follows s₀ g x post)
    (hPost : ∀ s y z, post s y z → post' s (h y) (k z)) :
    Follows s₀ (h <$> g) (k <$> x) post' := by
  unfold Follows
  rw [OptionT.run_map]
  apply InSpace.Ensures.map hFollows
  intro s out _ _ hOut
  cases hOut with
  | none => exact .none
  | some hyz => exact .some (hPost s _ _ hyz)

/- An evaluation that fails in the end. -/
theorem bind_failure
    (hFirst : InSpace.Ensures s₀ g.run fun _ _ => True) :
    Follows s₀ (g >>= fun _ => (failure : Evaluation β))
      (none : Option δ) post' := by
  unfold Follows
  rw [OptionT.run_bind]
  apply InSpace.Ensures.bind hFirst
  intro s out _ _ _
  cases out with
  | none => exact Follows.fail
  | some y => exact Follows.fail

theorem grows
    (hFollows : Follows s₀ g x post)
    (hGrows : s₀.Grows s) :
    Follows s g x post :=
  InSpace.Ensures.grows hFollows hGrows

end Follows

end Evaluation

/- Meanings of macros that come to outcomes from a space on. -/
structure Meanings.ComeTo
    (W : World)
    (table : Definitions)
    (s₀ : Space)
    (m : Meanings)
    (o : Outcomes) : Prop where
  whetherDefined :
    ∀ name,
      Ensures s₀ (m.whetherDefined name) fun s c =>
        s.Says (W.Realizes table) (o.whetherDefined name) c
  reference :
    ∀ name,
      Ensures s₀ (m.reference name) fun s v =>
        v.ComesTo (W.Realizes table) s (o.reference name)
  call :
    ∀ name arguments text,
      Ensures s₀ (m.call name arguments text) fun s v =>
        v.ComesTo (W.Realizes table) s
          (o.call name arguments text)
  unclosedCall :
    ∀ name, Ensures s₀ (m.unclosedCall name) fun _ _ => True
  verbatim :
    ∀ text, o.verbatim text = W.value (.verbatim text)

namespace Expression

variable {W : World}
variable {table : Definitions}

/- The chosen value comes to the outcome of the choice. -/
theorem follows_choice
    {u v w : Value}
    {o yes no : Computed}
    (hSound : s₀.Sound)
    (hu : u.ComesTo At s₀ o)
    (hv : v.ComesTo At s₀ yes)
    (hw : w.ComesTo At s₀ no) :
    Evaluation.Follows s₀
      (match u with
        | .number n => return if n = 0 then w else v
        | .condition c =>
            Value.condition <$>
              liftM (Condition.ite c v.truth w.truth))
      (some (o.choose yes no))
      fun s r => r.ComesTo At s := by
  cases hu with
  | number n =>
      apply Evaluation.Follows.pure
      intro s _ hGrows
      by_cases hZero : n = 0
      · simpa only [Computed.choose, hZero, if_true] using
          hw.grows hGrows
      · simpa only [Computed.choose, hZero, if_false] using
          hv.grows hGrows
  | condition hSays =>
      have hChoice :=
        Condition.ensures_says_ite hSays (hv.truth hSound)
          (hw.truth hSound)
      exact
        Evaluation.Follows.map (.lift hChoice)
          fun _ _ _ hSays => .condition hSays

/- By induction on the tree, whose operands are all evaluated. -/
theorem follows_evaluate
    {m : Meanings}
    {o : Outcomes}
    (hMeanings : m.ComeTo W table s₀ o)
    (e : Expression) :
    Evaluation.Follows s₀ (evaluate m e) (e.outcome? o)
      fun s v => v.ComesTo (W.Realizes table) s := by
  have hUse
      {s : Space} {x : Option Value} {y : Option Computed}
      (hRel :
        Option.Rel (fun v => v.ComesTo (W.Realizes table) s)
          x y)
      (text : String) :
      Evaluation.Follows s
        (liftM (Value.orVerbatim x text))
        (some (o.orVerbatim y text))
        fun s v => v.ComesTo (W.Realizes table) s := by
    apply Evaluation.Follows.lift
    unfold Outcomes.orVerbatim
    rw [hMeanings.verbatim]
    exact Value.ensures_comesTo_orVerbatim hRel text
  induction e with
  | number v => exact .pure fun _ _ _ => .number v
  | defined name =>
      exact
        Evaluation.Follows.lift
          ((hMeanings.whetherDefined name).map
            fun _ _ _ _ hSays => .condition hSays)
  | builtin text =>
      apply Evaluation.Follows.lift
      rw [hMeanings.verbatim]
      exact Value.ensures_comesTo_verbatim W table text
  | reference name => exact .lift (hMeanings.reference name)
  | call name arguments text =>
      cases arguments with
      | some arguments =>
          exact .lift (hMeanings.call name arguments text)
      | none =>
          apply Evaluation.Follows.bind_failure
          exact (hMeanings.unclosedCall name).map
            fun _ _ _ _ _ => trivial
  | sign op e text ih =>
      apply ih.bind
      intro s v o' _ _ hv
      exact hUse (Sign.result?_comesTo hv op) text
  | operation op l r text ihl ihr =>
      apply ihl.bind
      intro s v o' _ hGrows hv
      apply (ihr.grows hGrows).bind
      intro s' w o'' _ hGrows' hw
      exact
        hUse
          (Operator.result?_comesTo (hv.grows hGrows') hw op)
          text
  | connective op l r ihl ihr =>
      apply ihl.bind
      intro s v o' _ hGrows hv
      apply (ihr.grows hGrows).bind
      intro s' w o'' hSound hGrows' hw
      apply Evaluation.Follows.lift
      exact
        Connective.ensures_result_comesTo hSound
          (hv.grows hGrows') hw op
  | conditional test yes no ihTest ihYes ihNo =>
      apply ihTest.bind
      intro s u o' _ hGrows hu
      apply (ihYes.grows hGrows).bind
      intro s' v o'' _ hGrows' hv
      apply (ihNo.grows (hGrows.trans hGrows')).bind
      intro s'' w o₃ hSound hGrows'' hw
      exact
        follows_choice hSound
          (hu.grows (hGrows'.trans hGrows''))
          (hv.grows hGrows'') hw
  | excess e ih =>
      apply Evaluation.Follows.bind_failure
      exact InSpace.Ensures.imp ih fun _ _ _ _ _ => trivial
  | malformed => exact .fail

end Expression

------------------------------------------------------------
-- Definitions
------------------------------------------------------------

namespace World

variable {W : World}
variable {table : Definitions}
variable {a : Nat → Bool}

theorem realizes_ofSpace
    (table : Definitions)
    (s : Space)
    (a : Nat → Bool) :
    (World.ofSpace s a).Realizes table s a where
  assigns := fun _ _ => rfl
  eval_eq := fun _ _ _ => rfl

/- Decisions hold at an assignment as they do in its world. -/
theorem Realizes.holds_eq
    (hRealizes : W.Realizes table s a)
    (p : Decision → Bool)
    (name : String) :
    Definitions.holds s a p (table.decisions name) =
      W.decided p (table.decisions name) := by
  unfold Definitions.holds World.decided
  apply any_congr
  intro d hd
  rw [hRealizes.eval_eq name d hd]

end World

section Macros

variable {W : World}
variable {table : Definitions}

/- What holds, or else the atom of a macro where another condition holds. -/
theorem Condition.ensures_says_orDefined
    (name : String)
    (hc : s₀.Says (W.Realizes table) p c)
    (hd : s₀.Says (W.Realizes table) q d) :
    Ensures s₀
      (do
        let free ← Condition.defined name
        Condition.or c (← Condition.and d free))
      fun s out =>
        s.Says (W.Realizes table)
          (p || q && W.value (.defined name)) out := by
  apply
    (Condition.ensures_says_atom W table
      (.defined name)).bind
  intro s free _ hGrows hFree
  apply
    (Condition.ensures_says_and (hd.grows hGrows)
      hFree).bind
  intro s' both _ hGrows' hBoth
  exact
    Condition.ensures_says_or
      (hc.grows (hGrows.trans hGrows')) hBoth

/- Whether some decision about a macro is in force. -/
theorem Definitions.ensures_decided_in
    (hTable : IsLive s₀ table)
    (W : World)
    (p : Decision → Bool)
    (name : String) :
    Ensures s₀ (decided ((table.decisions name).filter p))
      fun s c =>
        s.Says (W.Realizes table)
          (W.decided p (table.decisions name)) c := by
  apply
    (ensures_decided (decisions_isLive hTable name)).imp
  intro s c _ _ hMeans
  apply hMeans.says_of
  intro s' _ _ a hRealizes
  rw [holds_true_filter, hRealizes.holds_eq]

/- The condition under which a macro is defined says whether it is. -/
theorem Definitions.ensures_whetherDefined_in
    (hTable : IsLive s₀ table)
    (W : World)
    (name : String) :
    Ensures s₀ (table.whetherDefined name) fun s c =>
      s.Says (W.Realizes table) (W.whetherDefined table name)
        c := by
  unfold whetherDefined
  apply
    (ensures_decided_in hTable W
      (·.definition.isSome) name).bind
  intro s isDefined _ hGrows hDefined
  have hAll :=
    ensures_decided_in (hTable.grows hGrows) W
      (fun _ => true) name
  rw [List.filter_true] at hAll
  apply hAll.bind
  intro s' isDecided _ hGrows' hDecided
  have hDefined' := hDefined.grows hGrows'
  by_cases hOne : isDecided = .one
  · rw [if_pos hOne]
    apply Ensures.pure
    intro s'' _ hGrows''
    refine ⟨hGrows''.isLive hDefined'.isLive, ?_⟩
    intro t hSound hGrowsEnd a hRealizes
    have hGrowsAll := hGrows''.trans hGrowsEnd
    have hAllDecided :=
      hDecided.eval_eq t hSound hGrowsAll a hRealizes
    rw [hOne, Diagram.Manager.eval_one] at hAllDecided
    rw [hDefined'.eval_eq t hSound hGrowsAll a hRealizes]
    unfold World.whetherDefined
    rw [← hAllDecided, Bool.not_true, Bool.false_and,
      Bool.or_false]
  · rw [if_neg hOne]
    exact
      Condition.ensures_says_orDefined name hDefined'
        hDecided.neg

namespace Evaluator

variable {e : Evaluator}
variable {body : List Token → InSpace Value}
variable {out : List Token → Computed}

/- Bodies of macros have values that come to outcomes. -/
def BodiesComeTo
    (W : World)
    (table : Definitions)
    (s₀ : Space)
    (body : List Token → InSpace Value)
    (out : List Token → Computed) : Prop :=
  ∀ tokens,
    Ensures s₀ (body tokens) fun s v =>
      v.ComesTo (W.Realizes table) s (out tokens)

theorem BodiesComeTo.grows
    (hBodies : BodiesComeTo W table s₀ body out)
    (hGrows : s₀.Grows s) :
    BodiesComeTo W table s body out :=
  fun tokens => (hBodies tokens).grows hGrows

theorem ensures_objectValue_comesTo
    (hBodies : BodiesComeTo W table s₀ body out)
    (m : Macro) :
    Ensures s₀ (objectValue body m) fun s v =>
      v.ComesTo (W.Realizes table) s
        (objectOutcome out m) := by
  unfold objectValue objectOutcome
  cases m.body with
  | nil => exact .pure fun _ _ _ => .number 1
  | cons t ts => exact hBodies (t :: ts)

/- Definitions whose conditions hold as they do in a world. -/
def AllSay
    (W : World)
    (table : Definitions)
    (s : Space)
    (entries : List (Condition × Macro)) : Prop :=
  ∀ d ∈ entries,
    s.Says (W.Realizes table) (W.holds d.1) d.1

theorem ensures_anyObject_in
    {entries : List (Condition × Macro)}
    {r : Condition}
    {b : Bool}
    (hBodies : BodiesComeTo W table s₀ body out)
    (hEntries : AllSay W table s₀ entries)
    (hr : s₀.Says (W.Realizes table) b r) :
    Ensures s₀ (anyObject body r entries) fun s c =>
      s.Says (W.Realizes table)
        (b || anyOutcome W out entries) c := by
  induction entries generalizing s₀ r b with
  | nil =>
      apply Ensures.pure
      intro s _ hGrows
      rw [anyOutcome, List.any_nil, Bool.or_false]
      exact hr.grows hGrows
  | cons d rest ih =>
      rcases d with ⟨c, m⟩
      have hc := hEntries (c, m) List.mem_cons_self
      apply (ensures_objectValue_comesTo hBodies m).bind
      intro s v hSound hGrows hv
      apply
        (Condition.ensures_says_and (hc.grows hGrows)
          (hv.truth hSound)).bind
      intro s' both _ hGrows' hBoth
      have hGrowsAll := hGrows.trans hGrows'
      apply
        (Condition.ensures_says_or (hr.grows hGrowsAll)
          hBoth).bind
      intro s'' r' _ hGrows'' hr'
      have hGrowsEnd := hGrowsAll.trans hGrows''
      have hRest : AllSay W table s'' rest := fun d hd =>
        (hEntries d (List.mem_cons_of_mem _ hd)).grows
          hGrowsEnd
      apply (ih (hBodies.grows hGrowsEnd) hRest hr').imp
      intro s₃ out' _ _ hOut
      rw [Bool.or_assoc] at hOut
      exact hOut

theorem allSay_entries
    (hTable : Definitions.IsLive s table)
    (W : World)
    (name : String) :
    AllSay W table s (table.entries name) := by
  rintro ⟨c, m⟩ hEntry
  have hMem := Definitions.mem_entries_iff.mp hEntry
  refine ⟨hTable name _ hMem, ?_⟩
  intro s' _ _ a hRealizes
  exact hRealizes.eval_eq name _ hMem

/-
  A name with some definitions, or none: where nothing is
  decided it counts as whether it is defined.
-/
theorem ensures_someObject_comesTo
    {undecided : Condition}
    (hSound : s₀.Sound)
    (hTable : Definitions.IsLive s₀ e.definitions)
    (hBodies : BodiesComeTo W e.definitions s₀ body out)
    (name : String)
    (hUndecided :
      s₀.Says (W.Realizes e.definitions)
        (!W.decided (fun _ => true)
          (e.definitions.decisions name))
        undecided) :
    Ensures s₀
      (nameValue.someObject body name
        (e.definitions.entries name) undecided)
      fun s v =>
        v.ComesTo (W.Realizes e.definitions) s
          (.truth (e.someOutcome W out name)) := by
  have hZero :
      s₀.Says (W.Realizes e.definitions) false .zero :=
    ⟨hSound.manager.reduced.isLive_zero,
      fun s' _ _ a _ => s'.manager.eval_zero a⟩
  unfold nameValue.someObject
  apply
    (ensures_anyObject_in hBodies
      (allSay_entries hTable W name) hZero).bind
  intro s r _ hGrows hr
  rw [Bool.false_or] at hr
  have hUndecided' := hUndecided.grows hGrows
  by_cases hNone : undecided = .zero
  · rw [if_pos hNone]
    apply Ensures.pure
    intro s' _ hGrows'
    refine .condition ⟨hGrows'.isLive hr.isLive, ?_⟩
    intro t hSoundEnd hGrowsEnd a hRealizes
    have hGrowsAll := hGrows'.trans hGrowsEnd
    have hNever :=
      hUndecided'.eval_eq t hSoundEnd hGrowsAll a hRealizes
    rw [hNone, Diagram.Manager.eval_zero] at hNever
    rw [hr.eval_eq t hSoundEnd hGrowsAll a hRealizes]
    unfold someOutcome
    rw [← hNever, Bool.false_and, Bool.or_false]
  · rw [if_neg hNone]
    exact
      (Condition.ensures_says_orDefined name hr
        hUndecided').map
          fun _ _ _ _ hSays => .condition hSays

/- The value of a name comes to the outcome of its macro. -/
theorem ensures_nameValue_comesTo
    (hTable : Definitions.IsLive s₀ e.definitions)
    (hBodies : BodiesComeTo W e.definitions s₀ body out)
    (name : String) :
    Ensures s₀ (e.nameValue body name) fun s v =>
      v.ComesTo (W.Realizes e.definitions) s
        (e.nameOutcome W out name) := by
  unfold nameValue
  apply
    (Definitions.ensures_inForce_means hTable name).bind
  rintro s ⟨entries, undecided⟩ hSound hGrows
    ⟨hEntries, hUndecided⟩
  change entries = e.definitions.entries name at hEntries
  change s.Means _ undecided at hUndecided
  subst hEntries
  have hSays :
      s.Says (W.Realizes e.definitions)
        (!W.decided (fun _ => true)
          (e.definitions.decisions name))
        undecided := by
    apply hUndecided.says_of
    intro s' _ _ a hRealizes
    rw [hRealizes.holds_eq]
  have hSome :=
    ensures_someObject_comesTo hSound (hTable.grows hGrows)
      (hBodies.grows hGrows) name hSays
  unfold nameOutcome
  by_cases hFunction :
      (e.definitions.entries name).any
        (·.2.isFunctionLike) = true
  · simp only [hFunction, if_true]
    exact
      Value.ensures_comesTo_verbatim W e.definitions name
  simp only [hFunction]
  generalize e.definitions.entries name = entries at hSome ⊢
  rcases entries with _ | ⟨⟨c, m⟩, _ | ⟨_, _⟩⟩
  · exact hSome
  · by_cases hOne : c = .one
    · simp only [hOne, if_true]
      exact
        ensures_objectValue_comesTo (hBodies.grows hGrows) m
    · simp only [hOne, if_false]
      exact hSome
  · exact hSome

/- The value of a call comes to the outcome of its macro. -/
theorem ensures_callValue_comesTo
    (hTable : Definitions.IsLive s₀ e.definitions)
    (hBodies : BodiesComeTo W e.definitions s₀ body out)
    (name : String)
    (arguments : List (List Token))
    (text : String) :
    Ensures s₀ (e.callValue body name arguments text)
      fun s v =>
        v.ComesTo (W.Realizes e.definitions) s
          (e.callOutcome W out name arguments text) := by
  have hVerbatim {s : Space} :
      Ensures s (Value.verbatim text) fun s v =>
        v.ComesTo (W.Realizes e.definitions) s
          (.truth (W.value (.verbatim text))) :=
    Value.ensures_comesTo_verbatim W e.definitions text
  unfold callValue callOutcome
  apply
    (Definitions.ensures_inForce_means hTable name).bind
  rintro s ⟨entries, undecided⟩ _ hGrows ⟨hEntries, -⟩
  change entries = e.definitions.entries name at hEntries
  subst hEntries
  generalize e.definitions.entries name = entries
  rcases entries with _ | ⟨⟨c, m⟩, _ | ⟨_, _⟩⟩
  · exact hVerbatim
  · cases hTokens :
        if c = .one then m.substitute arguments
        else none with
    | some tokens =>
        simp only [hTokens]
        exact hBodies.grows hGrows tokens
    | none =>
        simp only [hTokens]
        exact hVerbatim
  · exact hVerbatim

------------------------------------------------------------
-- Whole Expressions
------------------------------------------------------------

/-
  The value of some tokens comes to their outcome, by induction
  on how many macros can still be inside each other.
-/
theorem follows_valueWithin
    (hTable : Definitions.IsLive s₀ e.definitions)
    (W : World)
    (depth : Nat)
    (expanding : List String)
    (tokens : List Token) :
    Evaluation.Follows s₀
      (e.valueWithin depth expanding tokens)
      (e.outcomeWithin W depth expanding tokens)
      fun s v => v.ComesTo (W.Realizes e.definitions) s := by
  induction depth generalizing s₀ expanding tokens with
  | zero => exact .fail
  | succ depth ih =>
      rw [valueWithin_succ, outcomeWithin_succ]
      have hBody (name : String) :
          BodiesComeTo W e.definitions s₀
            (e.bodyValue depth (name :: expanding))
            (e.bodyOutcome W depth (name :: expanding)) := by
        intro tokens
        apply InSpace.Ensures.bind
          (ih hTable (name :: expanding) tokens)
        intro s v _ _ hv
        exact Value.ensures_comesTo_orVerbatim hv _
      apply Expression.follows_evaluate
      constructor
      · exact
          Definitions.ensures_whetherDefined_in hTable W
      · intro name
        simp only [meanings, outcomes]
        by_cases hAtomic : e.isAtomic expanding name = true
        · simp only [hAtomic, if_true]
          exact
            (Condition.ensures_says_atom W e.definitions
              (.defined name)).map
                fun _ _ _ _ hSays => .condition hSays
        · simp only [hAtomic]
          exact
            ensures_nameValue_comesTo hTable (hBody name) name
      · intro name arguments text
        exact
          ensures_callValue_comesTo hTable (hBody name) name
            arguments text
      · intro name
        exact
          (Definitions.ensures_inForce hTable name).map
            fun _ _ _ _ _ => trivial
      · exact fun _ => rfl

/-
  The condition of some tokens is true at an assignment exactly
  if the tokens are true in the world of the assignment.
-/
theorem ensures_condition_in
    (hTable : Definitions.IsLive s₀ e.definitions)
    (W : World)
    (tokens : List Token) :
    Ensures s₀ (e.condition tokens) fun s c =>
      s.Says (W.Realizes e.definitions)
        (e.holdsIn W tokens) c := by
  unfold condition
  apply InSpace.Ensures.bind
    (follows_valueWithin hTable W _ [] tokens)
  unfold holdsIn bodyOutcome
  intro s v _ _ hv
  generalize
    e.outcomeWithin W (e.definitions.length + 1) []
      tokens = o at hv
  cases hv with
  | some hComes =>
      apply Ensures.pure
      intro s' hSound hGrows
      exact (hComes.grows hGrows).truth hSound
  | none =>
      exact
        Condition.ensures_says_atom W e.definitions
          (.verbatim (Token.spell tokens))

/- A condition that is the same in all worlds is one or zero. -/
theorem condition_eq_of_holdsIn
    {b : Bool}
    {tokens : List Token}
    (hSound : s.Sound)
    (hTable : Definitions.IsLive s e.definitions)
    (hHolds :
      ∀ a,
        e.holdsIn (.ofSpace (e.condition tokens s).2 a) tokens =
          b) :
    (e.condition tokens s).1 = if b then .one else .zero := by
  have hSays (W : World) :=
    ensures_condition_in hTable W tokens s hSound (.refl s)
  rcases hSays ⟨fun _ => true, fun _ => true⟩ with
    ⟨hSound', -, hLive⟩
  have hReduced := hSound'.manager.reduced
  have hEval (a : Nat → Bool) :
      (e.condition tokens s).2.manager.eval
          (e.condition tokens s).1 a =
        b := by
    rw [(hSays (.ofSpace (e.condition tokens s).2
        a)).2.2.eval_eq _ hSound' (.refl _) a
        (World.realizes_ofSpace _ _ a),
      hHolds]
  cases b with
  | true =>
      apply
        hReduced.eq_of_eval_eq hLive.isLive hReduced.isLive_one
      intro a
      rw [hEval, Diagram.Manager.eval_one]
  | false =>
      apply
        hReduced.eq_of_eval_eq hLive.isLive
          hReduced.isLive_zero
      intro a
      rw [hEval, Diagram.Manager.eval_zero]

end Evaluator

end Macros

end Variability
