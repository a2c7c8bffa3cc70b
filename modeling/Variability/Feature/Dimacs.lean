import Variability.Feature
import Variability.Text.Blank

/-
  Reading a feature model from the comments of a file in the
  format DIMACS.

  The comment `c ID NAME` names the variable of a feature; a
  dollar sign at the end of the number marks a variable that
  stands for no feature.

  Main definitions:
    * `ReadError`
    * `FeatureModel.ofDimacs`
-/

namespace Variability

namespace Dimacs

/- A comment whose number is none, by its offset in bytes. -/
structure ReadError where
  offset : Nat
  number : String
  deriving DecidableEq, Repr

namespace ReadError

/- The message of an error. -/
def message (e : ReadError) : String :=
  "invalid variable id \x60" ++ e.number ++ "\x60"

end ReadError

/- The value of a decimal number that fits 32 bits. -/
def number? (number : List Char) : Option Nat :=
  let digits :=
    match number with
    | '+' :: digits => digits
    | digits => digits
  if digits.isEmpty ∨ !digits.all Char.isDigit then
    none
  else
    let n := digits.foldl (fun n c => 10 * n + (c.toNat - '0'.toNat)) 0
    if n < Nat.pow 2 32 then some n else none

/- The feature that a line names, or its number if that is none. -/
def featureOf (line : List Char) : Except String (Option String) :=
  match Text.words line with
  | ['c'] :: number :: name :: _ =>
      if number.getLast? = some '$' then
        .ok none
      else if (number? number).isSome then
        .ok (some (String.ofList name))
      else
        .error (String.ofList number)
  | _ => .ok none

/- The features that lines name, the first one at an offset. -/
def featuresFrom
    (offset : Nat) :
    List (List Char) → Except ReadError (List String)
  | [] => .ok []
  | line :: rest =>
      match featureOf line with
      | .error number => .error ⟨offset, number⟩
      | .ok feature => do
          let next := offset + (String.ofList line).utf8ByteSize + 1
          return feature.toList ++ (← featuresFrom next rest)

end Dimacs

/- The features that the comments of a text name. -/
def FeatureModel.ofDimacs
    (text : String) :
    Except Dimacs.ReadError FeatureModel := do
  let lines := Text.splitOn '\n' text.toList
  return .ofList (← Dimacs.featuresFrom 0 lines)

end Variability
