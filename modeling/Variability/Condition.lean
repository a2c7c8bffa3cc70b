import Variability.Diagram.Manager
import Variability.Formula

/-
  Conditions over what is not known about a compilation.

  A space gives every atom a variable of its own, in the order
  in which atoms are first asked for, and shares all diagrams
  over these variables. A condition is a handle into the space.

  Main definitions:
    * `Atom`
    * `Space`
    * `InSpace`
    * `Space.toFormula`
    * `Space.text`
-/

namespace Variability

/- What a variable of a diagram stands for. -/
inductive Atom where
  /- A macro is defined. -/
  | defined (name : String)
  /- A condition that is not looked into, by its text. -/
  | verbatim (text : String)
  deriving DecidableEq, Repr, Inhabited

namespace Atom

/- The written form of an atom. -/
def text : Atom → String
  | .defined name => "(defined " ++ name ++ ")"
  | .verbatim text => text

end Atom

/- A condition, as a handle into a space. -/
abbrev Condition := Diagram.Handle

/- The atoms in the order of their variables, and the diagrams. -/
structure Space where
  manager : Diagram.Manager
  atoms : List Atom

namespace Space

/- The space in which nothing was asked for. -/
def empty : Space :=
  ⟨default, []⟩

instance : Inhabited Space := ⟨empty⟩

/- The atom of a variable; variables count from 1. -/
def atomOf? (s : Space) : Nat → Option Atom
  | 0 => none
  | v + 1 => s.atoms[v]?

end Space

------------------------------------------------------------
-- Building Conditions
------------------------------------------------------------

/- A computation that may add atoms and diagrams to a space. -/
abbrev InSpace := StateM Space

namespace Condition

/- The variable of an atom, a new one if it has none yet. -/
def variableOf (a : Atom) : InSpace Nat := fun ⟨manager, atoms⟩ =>
  match atoms.idxOf? a with
  | some i => (i + 1, ⟨manager, atoms⟩)
  | none => (atoms.length + 1, ⟨manager, atoms ++ [a]⟩)

/- Build a diagram. -/
def build
    (f : Diagram.Manager → Condition × Diagram.Manager) :
    InSpace Condition := fun ⟨manager, atoms⟩ =>
  let (c, manager) := f manager
  (c, ⟨manager, atoms⟩)

/- The condition that an atom holds. -/
def atom (a : Atom) : InSpace Condition := do
  let v ← variableOf a
  build (·.mkVar v)

/- The condition that a macro is defined. -/
def defined (name : String) : InSpace Condition :=
  atom (.defined name)

/- A condition that is not looked into. -/
def verbatim (text : String) : InSpace Condition :=
  atom (.verbatim text)

/- Both conditions. -/
def and (c d : Condition) : InSpace Condition :=
  build (·.and c d)

/- One of two conditions. -/
def or (c d : Condition) : InSpace Condition :=
  build (·.or c d)

/- The second condition where the first holds, else the third. -/
def ite (c d e : Condition) : InSpace Condition :=
  build (·.ite c d e)

/- One of several conditions. -/
def anyOf (cs : List Condition) : InSpace Condition :=
  build (·.orMany cs)

end Condition

------------------------------------------------------------
-- Formulas of Conditions
------------------------------------------------------------

/- The formulas that were found so far, none where there is none. -/
abbrev Expansions := List (Condition × Option Formula)

namespace Space

/-
  The formula of a diagram at most `depth` nodes deep, taken
  apart by its top variables. There is none if a variable does
  not stand for a macro, and then nothing further is looked at.
-/
def expandWithin
    (s : Space)
    (rename : String → String) :
    (depth : Nat) →
    Condition →
    Expansions →
    Option Formula × Expansions
  | 0, _, found => (none, found)
  | depth + 1, c, found =>
      if c = .one then (some .truth, found)
      else if c = .zero then (some .falsity, found)
      else
        match found.lookup c with
        | some f => (f, found)
        | none =>
            let (f, found) :=
              match s.atomOf? (s.manager.topVar c) with
              | some (.defined name) =>
                  match
                    expandWithin s rename depth (s.manager.high c) found
                  with
                  | (none, found) => (none, found)
                  | (some high, found) =>
                      let (low, found) :=
                        expandWithin s rename depth
                          (s.manager.low c) found
                      ( low.map (.choice (.literal (rename name)) high),
                        found )
              | _ => (none, found)
            (f, (c, f) :: found)

/-
  The formula of a condition over the names of its macros, if
  the condition is about macros only.
-/
def toFormula
    (s : Space)
    (rename : String → String)
    (c : Condition) :
    Option Formula :=
  (s.expandWithin rename (s.manager.liveCount + 1) c []).1.map
    Formula.simplify

/- The written form of a diagram, at most `depth` nodes deep. -/
def textWithin (s : Space) : (depth : Nat) → Condition → String
  | 0, _ => ""
  | depth + 1, c =>
      if c = .one then "1"
      else if c = .zero then "0"
      else
        let atom := s.atomOf? (s.manager.topVar c)
        "[" ++ ((atom.map Atom.text).getD "") ++
          " ? " ++ textWithin s depth (s.manager.high c) ++
          " : " ++ textWithin s depth (s.manager.low c) ++ "]"

/- A condition by its choices, the oldest atom first. -/
def text (s : Space) (c : Condition) : String :=
  s.textWithin (s.manager.liveCount + 1) c

/- Free all diagrams that no given condition needs; atoms stay. -/
def collectGarbage (s : Space) (roots : List Condition) : Space :=
  { s with manager := s.manager.collectGarbage roots }

end Space

end Variability
