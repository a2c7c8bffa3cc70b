import Variability.Dict
import Variability.Formula
import Variability.Smt.Script

/-
  The formula that an SMT-LIB script asserts.

  The assertions of a script are joined. Only names, `and`,
  `or`, `not` and `let` have a formula; a name that no `let`
  binds is a literal. A `let` binds its names while its body is
  read, and takes them back also if the body has no formula.

  Main definitions:
    * `Smt.Scopes`
    * `Smt.Term.convert`
    * `Smt.conjunction`
    * `Smt.Script.formula`
    * `Smt.parse`
-/

namespace Variability

namespace Smt

/- Why a term has no formula. -/
inductive Unsupported where
  | identifier
  | functionIdentifier
  | negationArguments
  | function (name : String)
  | term
  deriving DecidableEq, Repr

/- The message for a term without a formula. -/
def Unsupported.message : Unsupported → String
  | .identifier => "unsupported identifier"
  | .functionIdentifier => "unsupported function"
  | .negationArguments => "\x60not\x60 takes exactly one argument"
  | .function name => "unsupported function \x60" ++ name ++ "\x60"
  | .term => "unsupported term"

------------------------------------------------------------
-- Scopes
------------------------------------------------------------

/- The values of the names that are bound, each name's innermost one first. -/
abbrev Scopes := Dict String (List Formula)

namespace Scopes

/- The innermost value of a name. -/
def lookup (name : String) (scopes : Scopes) : Option Formula :=
  (Dict.find? name scopes).bind List.head?

/- Bind a name. -/
def push
    (name : String)
    (value : Formula)
    (scopes : Scopes) :
    Scopes :=
  Dict.insert name (value :: (Dict.find? name scopes).getD []) scopes

/- Take back the innermost binding of a name. -/
def pop (name : String) (scopes : Scopes) : Scopes :=
  match Dict.find? name scopes with
  | none => scopes
  | some values =>
      if (values.drop 1).isEmpty then
        scopes.filter (·.1 ≠ name)
      else
        Dict.insert name (values.drop 1) scopes

/- Bind names one after the other. -/
def pushAll
    (values : List (String × Formula))
    (scopes : Scopes) :
    Scopes :=
  values.foldl (fun s (name, value) => s.push name value) scopes

/- Take back bindings one after the other. -/
def popAll (names : List String) (scopes : Scopes) : Scopes :=
  names.foldl (fun s name => s.pop name) scopes

end Scopes

/- A computation on scopes; what it did to them stays if it fails. -/
abbrev Conversion := ExceptT Unsupported (StateM Scopes)

/- Bind names while something is done. -/
def Conversion.within
    {α : Type}
    (values : List (String × Formula))
    (inner : Conversion α) :
    Conversion α :=
  fun scopes =>
    let (result, left) := inner (scopes.pushAll values)
    (result, left.popAll (values.map (·.1)))

------------------------------------------------------------
-- Terms
------------------------------------------------------------

/- The formula of a name. -/
def nameFormula (name : String) (scopes : Scopes) : Formula :=
  match name with
  | "true" => .truth
  | "false" => .falsity
  | name => (scopes.lookup name).getD (.literal name)

namespace Term

mutual

/- The formula of a term. -/
def convert : Term → Conversion Formula
  | .identifier none => throw .identifier
  | .identifier (some name) => do
      return nameFormula name (← get)
  | .application none _ => throw .functionIdentifier
  | .application (some head) arguments =>
      match head, arguments with
      | "and", arguments => do
          return .conj (← convertEach arguments)
      | "or", arguments => do
          return .disj (← convertEach arguments)
      | "not", [argument] => do
          return .not (← convert argument)
      | "not", _ => throw .negationArguments
      | head, _ => throw (.function head)
  | .binding bindings body => do
      let values ← convertValues bindings
      Conversion.within values (convert body)
  | .other => throw .term

/- The formulas of some terms. -/
def convertEach : List Term → Conversion (List Formula)
  | [] => return []
  | t :: rest => do
      let f ← convert t
      return f :: (← convertEach rest)

/- The values of names, none of which is bound yet. -/
def convertValues :
    List (String × Term) → Conversion (List (String × Formula))
  | [] => return []
  | (name, t) :: rest => do
      let f ← convert t
      return (name, f) :: (← convertValues rest)

end

end Term

------------------------------------------------------------
-- Scripts
------------------------------------------------------------

/- The formulas that commands assert. -/
def assertions : List Command → Conversion (List Formula)
  | [] => return []
  | .other :: rest => assertions rest
  | .assert t :: rest => do
      let f ← t.convert
      return f :: (← assertions rest)

/- One formula for all; a single one stays as it is. -/
def conjunction : List Formula → Formula
  | [f] => f
  | fs => .conj fs

/- Why a text has no formula. -/
inductive Error where
  | unreadable (e : ReadError)
  | unsupported (e : Unsupported)
  deriving DecidableEq, Repr

/- The offset of an error, where it has one. -/
def Error.offset? : Error → Option Nat
  | .unreadable e => some e.offset
  | .unsupported _ => none

/- The message of an error. -/
def Error.message : Error → String
  | .unreadable e => e.mistake.message
  | .unsupported e => e.message

/-
  The formula that a script asserts. An assertion without a
  formula comes before a later mistake.
-/
def Script.formula (script : Script) : Except Error Formula :=
  match (assertions script.commands []).1, script.mistake with
  | .error e, _ => .error (.unsupported e)
  | .ok _, some e => .error (.unreadable e)
  | .ok fs, none => .ok (conjunction fs)

/- The formula that a text asserts. -/
def parse (text : String) : Except Error Formula :=
  (Script.read text).formula

end Smt

end Variability
