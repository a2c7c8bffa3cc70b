import Variability.Expression
import Variability.Macro.Definitions

/-
  Evaluating the expressions of conditional directives.

  Known integers are computed with. Truth of what is not known
  is a condition; any other use of it becomes an atom of its own
  that carries the text of the use. Every operand is evaluated,
  also one that the value does not depend on.

  Main definitions:
    * `Value`
    * `Expression.evaluate`
    * `Evaluator.condition`
-/

namespace Variability

/- What an expression evaluates to. -/
inductive Value where
  | number (v : Int64)
  | condition (c : Condition)
  deriving DecidableEq, Repr

namespace Value

/- The condition under which a value is not zero. -/
def truth : Value → Condition
  | .number v => if v = 0 then .zero else .one
  | .condition c => c

/- The number of a truth value. -/
def ofBool (b : Bool) : Value :=
  .number (if b then 1 else 0)

end Value

------------------------------------------------------------
-- Operators
------------------------------------------------------------

/- The quotient or remainder, if it fits 64 bits. -/
def divided? (f : Int64 → Int64 → Int64) (a b : Int64) : Option Int64 :=
  if b = 0 ∨ (a = Int64.minValue ∧ b = -1) then none else some (f a b)

/-
  The value of an operation on words of 64 bits. Sums and
  products wrap around, and shifts count modulo 64.
-/
def Operator.compute? (a b : Int64) : Operator → Option Int64
  | .bitOr => some (a ||| b)
  | .bitXor => some (a ^^^ b)
  | .bitAnd => some (a &&& b)
  | .equal => some (if a = b then 1 else 0)
  | .unequal => some (if a = b then 0 else 1)
  | .less => some (if a < b then 1 else 0)
  | .greater => some (if b < a then 1 else 0)
  | .lessEqual => some (if a ≤ b then 1 else 0)
  | .greaterEqual => some (if b ≤ a then 1 else 0)
  | .shiftLeft => some (a <<< b)
  | .shiftRight => some (a >>> b)
  | .plus => some (a + b)
  | .minus => some (a - b)
  | .times => some (a * b)
  | .divide => divided? (· / ·) a b
  | .remainder => divided? (· % ·) a b

/- The value of an operator in front of a value, if it has one. -/
def Sign.result? : Sign → Value → Option Value
  | .not, .number v => some (.ofBool (v = 0))
  | .not, .condition c => some (.condition (-c))
  | .minus, .number v => some (.number (-v))
  | .plus, .number v => some (.number v)
  | .complement, .number v => some (.number (~~~v))
  | _, .condition _ => none

/- The value of an operation on two values, if it has one. -/
def Operator.result? (op : Operator) : Value → Value → Option Value
  | .number a, .number b => (op.compute? a b).map .number
  | _, _ => none

/- The value of a connective. -/
def Connective.result (op : Connective) : Value → Value → InSpace Value
  | .number a, .number b =>
      match op with
      | .or => pure (.ofBool (a ≠ 0 ∨ b ≠ 0))
      | .and => pure (.ofBool (a ≠ 0 ∧ b ≠ 0))
  | l, r =>
      match op with
      | .or => .condition <$> Condition.or l.truth r.truth
      | .and => .condition <$> Condition.and l.truth r.truth

------------------------------------------------------------
-- Trees
------------------------------------------------------------

/-
  A computation of a value. Atoms that were asked for stay when
  it turns out that there is none.
-/
abbrev Evaluation := OptionT InSpace

/- The value of a use that is not looked into. -/
def Value.verbatim (text : String) : InSpace Value :=
  .condition <$> Condition.verbatim text

/- A value that is there, or else the use as it is written. -/
def Value.orVerbatim (v : Option Value) (text : String) : InSpace Value :=
  match v with
  | some v => pure v
  | none => Value.verbatim text

/- What the value of a macro depends on. -/
structure Meanings where
  whetherDefined : String → InSpace Condition
  reference : String → InSpace Value
  call : String → List (List Token) → String → InSpace Value
  unclosedCall : String → InSpace Unit

namespace Expression

/- The value of an expression, given the meanings of macros. -/
def evaluate (m : Meanings) : Expression → Evaluation Value
  | .number v => pure (.number v)
  | .defined name => .condition <$> liftM (m.whetherDefined name)
  | .builtin text => liftM (Value.verbatim text)
  | .reference name => liftM (m.reference name)
  | .call name (some arguments) text =>
      liftM (m.call name arguments text)
  | .call name none _ => do
      liftM (m.unclosedCall name)
      failure
  | .sign op e text => do
      let v ← evaluate m e
      liftM (Value.orVerbatim (op.result? v) text)
  | .operation op l r text => do
      let a ← evaluate m l
      let b ← evaluate m r
      liftM (Value.orVerbatim (op.result? a b) text)
  | .connective op l r => do
      let a ← evaluate m l
      let b ← evaluate m r
      liftM (op.result a b)
  | .conditional test yes no => do
      let c ← evaluate m test
      let a ← evaluate m yes
      let b ← evaluate m no
      match c with
      | .number v => return if v = 0 then b else a
      | .condition c =>
          .condition <$> liftM (Condition.ite c a.truth b.truth)
  | .excess e => do
      let _ ← evaluate m e
      failure
  | .malformed => failure

end Expression

------------------------------------------------------------
-- Macros
------------------------------------------------------------

/- What expressions are evaluated against. -/
structure Evaluator where
  definitions : Definitions
  /- Macros whose definitions do not count. -/
  isFree : String → Bool

namespace Evaluator

/- Whether a macro is taken as an atom and not looked up. -/
def isAtomic
    (e : Evaluator)
    (expanding : List String)
    (name : String) :
    Bool :=
  e.isFree name || expanding.contains name

/- Whether an occurrence of a macro takes an argument list. -/
def takesArguments
    (e : Evaluator)
    (expanding : List String)
    (name : String) :
    Bool :=
  !e.isAtomic expanding name && e.definitions.isFunctionLike name

/- The value of a macro without arguments, given that of its body. -/
def objectValue
    (body : List Token → InSpace Value)
    (m : Macro) :
    InSpace Value :=
  match m.body with
  | [] => pure (.number 1)
  | t :: ts => body (t :: ts)

/- Where one of several definitions is in force and not zero. -/
def anyObject
    (body : List Token → InSpace Value) :
    Condition →
    List (Condition × Macro) →
    InSpace Condition
  | r, [] => pure r
  | r, (c, m) :: rest => do
      let v ← objectValue body m
      let r ← Condition.or r (← Condition.and c v.truth)
      anyObject body r rest

/-
  The value of a macro without arguments. A name that nothing
  was decided about counts as whether it is defined.
-/
def nameValue
    (e : Evaluator)
    (body : List Token → InSpace Value)
    (name : String) :
    InSpace Value := do
  let (definitions, undecided) ← e.definitions.inForce name
  if definitions.any (·.2.isFunctionLike) then
    Value.verbatim name
  else
    match definitions with
    | [(c, m)] =>
        if c = .one then
          objectValue body m
        else
          someObject definitions undecided
    | _ => someObject definitions undecided
  where
    /- One of several definitions, or none. -/
    someObject
        (definitions : List (Condition × Macro))
        (undecided : Condition) :
        InSpace Value := do
      let r ← anyObject body .zero definitions
      if undecided = .zero then
        return .condition r
      else
        let free ← Condition.defined name
        let r ← Condition.or r (← Condition.and undecided free)
        return .condition r

/- The value of a macro with arguments. -/
def callValue
    (e : Evaluator)
    (body : List Token → InSpace Value)
    (name : String)
    (arguments : List (List Token))
    (text : String) :
    InSpace Value := do
  let (definitions, _) ← e.definitions.inForce name
  match definitions with
  | [(c, m)] =>
      match if c = .one then m.substitute arguments else none with
      | some tokens => body tokens
      | none => Value.verbatim text
  | _ => Value.verbatim text

/-
  The value of some tokens inside the bodies of the macros that
  are expanding, at most `depth` further macros inside each other.
-/
def valueWithin
    (e : Evaluator) :
    (depth : Nat) →
    (expanding : List String) →
    List Token →
    Evaluation Value
  | 0, _, _ => failure
  | depth + 1, expanding, tokens =>
      let body (name : String) (tokens : List Token) : InSpace Value := do
        let v ← valueWithin e depth (name :: expanding) tokens
        Value.orVerbatim v (Token.spell tokens)
      (Expression.read (e.takesArguments expanding) tokens).evaluate
        { whetherDefined := e.definitions.whetherDefined
          reference := fun name =>
            if e.isAtomic expanding name then
              .condition <$> Condition.defined name
            else
              e.nameValue (body name) name
          call := fun name => e.callValue (body name) name
          unclosedCall := fun name =>
            (fun _ => ()) <$> e.definitions.inForce name }

/-
  The condition under which some tokens are not zero. A macro
  does not expand inside its own body, so no more macros can be
  inside each other than there are names.
-/
def condition (e : Evaluator) (tokens : List Token) : InSpace Condition := do
  match ← e.valueWithin (e.definitions.length + 1) [] tokens with
  | some v => return v.truth
  | none => Condition.verbatim (Token.spell tokens)

end Evaluator

end Variability
