import Variability.Token

/-
  Macros and the substitution of their arguments.

  Main definitions:
    * `Macro`
    * `Macro.parse`
    * `Macro.substitute`
-/

namespace Variability

/- A macro without its name. -/
structure Macro where
  /- The parameters, if the macro takes an argument list. -/
  parameters : Option (List String)
  /- Whether the last parameter takes all further arguments. -/
  variadic : Bool
  body : List Token
  deriving DecidableEq, Repr, Inhabited

namespace Macro

------------------------------------------------------------
-- Reading
------------------------------------------------------------

/- The name under which further arguments are known in a body. -/
def furtherArguments : String := "__VA_ARGS__"

/- A parameter list behind its parenthesis, and what follows it. -/
def parameterList :
    List Token → Option (List String × Bool × List Token)
  | [] => none
  | t :: rest =>
      if t.is ")" then
        some ([], false, rest)
      else do
        let (names, variadic, body) ← parameterList rest
        if t.is "," then
          return (names, variadic, body)
        else if t.is "..." then
          return (furtherArguments :: names, true, body)
        else
          return (t.text :: names, variadic, body)

/-
  The name and the macro that a definition gives. A parenthesis
  behind the name opens a parameter list, also after a blank.
-/
def parse : List Token → Option (String × Macro)
  | [] => none
  | name :: rest =>
      match rest with
      | [] => some (name.text, ⟨none, false, []⟩)
      | t :: rest' =>
          if t.is "(" then
            (parameterList rest').map fun (names, variadic, body) =>
              (name.text, ⟨some names, variadic, body⟩)
          else
            some (name.text, ⟨none, false, rest⟩)

/- Whether a macro takes an argument list. -/
def isFunctionLike (m : Macro) : Bool :=
  m.parameters.isSome

------------------------------------------------------------
-- Substitution
------------------------------------------------------------

/- Whether a token asks for an operation on the spelling of arguments. -/
def isSpellingOperator (t : Token) : Bool :=
  t.is "#" || t.is "##"

/- What stands for a token of a body, given the arguments. -/
def replacement
    (parameters : List String)
    (variadic : Bool)
    (arguments : List (List Token))
    (t : Token) :
    List Token :=
  if t.kind = .identifier then
    match parameters.idxOf? t.text with
    | none => [t]
    | some i =>
        if variadic ∧ i + 1 = parameters.length then
          List.flatten ((arguments.drop i).intersperse [t.mark ","])
        else
          t.mark "(" :: arguments.getD i [] ++ [t.mark ")"]
  else
    [t]

/- Whether a macro with these parameters can be given `n` arguments. -/
def accepts
    (parameters : List String)
    (variadic : Bool)
    (n : Nat) :
    Bool :=
  if variadic then
    decide (parameters.length ≤ n + 1)
  else
    n == parameters.length

/-
  The body of a macro with its parameters replaced, each
  argument in parentheses. Bodies that paste or quote arguments
  have none.
-/
def substitute
    (m : Macro)
    (arguments : List (List Token)) :
    Option (List Token) := do
  let parameters ← m.parameters
  if m.body.any isSpellingOperator then
    none
  else if accepts parameters m.variadic arguments.length then
    some (m.body.flatMap (replacement parameters m.variadic arguments))
  else
    none

end Macro

end Variability
