import Variability.Condition
import Variability.Dict
import Variability.Macro

/-
  The definitions of macros, each with the condition under
  which it is in force.

  The conditions of one name exclude each other; where none of
  them holds, no directive has decided about the name.

  Main definitions:
    * `Definitions`
    * `Definitions.record`
    * `Definitions.whetherDefined`
    * `Definitions.inForce`
-/

namespace Variability

/- What a directive said about a macro, and under which condition. -/
structure Decision where
  condition : Condition
  /- None where the macro was undefined. -/
  definition : Option Macro
  deriving DecidableEq, Repr

/- The decisions about every macro that a directive has named. -/
abbrev Definitions := Dict String (List Decision)

namespace Definitions

/- Restrict a decision to where a condition fails. -/
def restrict (c : Condition) (d : Decision) : InSpace Decision := do
  return { d with condition := ← Condition.and d.condition (-c) }

/-
  Record what a directive says under a condition: it replaces
  earlier decisions there, and those that hold nowhere go.
-/
def record
    (table : Definitions)
    (name : String)
    (definition : Option Macro)
    (c : Condition) :
    InSpace Definitions := do
  let earlier ← ((Dict.find? name table).getD []).mapM (restrict c)
  let kept := earlier.filter (·.condition ≠ .zero)
  return Dict.insert name (kept ++ [⟨c, definition⟩]) table

/- Whether a directive has named a macro. -/
def contains (table : Definitions) (name : String) : Bool :=
  (Dict.find? name table).isSome

/- Where some directive decided. -/
def decided (decisions : List Decision) : InSpace Condition :=
  Condition.anyOf (decisions.map (·.condition))

/-
  The condition under which a macro is defined. Where no
  directive decided, its own atom stands in.
-/
def whetherDefined
    (table : Definitions)
    (name : String) :
    InSpace Condition := do
  let decisions := (Dict.find? name table).getD []
  let isDefined ←
    decided (decisions.filter (·.definition.isSome))
  let isDecided ← decided decisions
  if isDecided = .one then
    return isDefined
  else
    let free ← Condition.defined name
    Condition.or isDefined (← Condition.and (-isDecided) free)

/-
  The definitions of a macro with their conditions, and the
  condition under which no directive decided.
-/
def inForce
    (table : Definitions)
    (name : String) :
    InSpace (List (Condition × Macro) × Condition) := do
  let decisions := (Dict.find? name table).getD []
  let isDecided ← decided decisions
  let definitions := decisions.filterMap fun d =>
    d.definition.map (d.condition, ·)
  return (definitions, -isDecided)

/- The definition of a macro if it is in force everywhere. -/
def unconditional
    (table : Definitions)
    (name : String) :
    Option Macro :=
  match Dict.find? name table with
  | some [⟨c, some m⟩] => if c = .one then some m else none
  | _ => none

/- Whether some definition of a macro takes an argument list. -/
def isFunctionLike (table : Definitions) (name : String) : Bool :=
  ((Dict.find? name table).getD []).any fun d =>
    d.definition.any (·.isFunctionLike)

/- All conditions of all decisions. -/
def roots (table : Definitions) : List Condition :=
  table.flatMap fun (_, decisions) => decisions.map (·.condition)

end Definitions

end Variability
