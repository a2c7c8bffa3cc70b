import Variability.Formula
import Variability.Diagram.Manager

/-
  Formulas as decision diagrams.

  Literals are numbered from 1 in the order in which they are
  first met. In one manager two formulas have the same handle
  exactly if they agree under every assignment.

  Main definitions:
    * `Formula.toDiagram`
    * `Formula.equivalent`
    * `Formula.support`
    * `Formula.table`
-/

namespace Variability

open Diagram

/- The variables of literals, and the manager that the diagrams live in. -/
structure Numbering where
  numbers : List (String × Nat)
  manager : Manager

namespace Numbering

/- The diagram of a single literal. -/
def literal (s : Numbering) (name : String) : Handle × Numbering :=
  match s with
  | { numbers, manager } =>
      match numbers.lookup name with
      | some v =>
          let (r, manager) := manager.mkVar v
          (r, { numbers, manager })
      | none =>
          let v := numbers.length + 1
          let (r, manager) := manager.mkVar v
          (r, { numbers := numbers ++ [(name, v)], manager })

/- Conjunction of two diagrams. -/
def and (s : Numbering) (f g : Handle) : Handle × Numbering :=
  match s with
  | { numbers, manager } =>
      let (r, manager) := manager.and f g
      (r, { numbers, manager })

/- Disjunction of two diagrams. -/
def or (s : Numbering) (f g : Handle) : Handle × Numbering :=
  match s with
  | { numbers, manager } =>
      let (r, manager) := manager.or f g
      (r, { numbers, manager })

end Numbering

namespace Formula

mutual

/- Build the diagram of a formula. -/
def toDiagram : Formula → Numbering → Handle × Numbering
  | .truth, s => (.one, s)
  | .falsity, s => (.zero, s)
  | .literal name, s => s.literal name
  | .negation f, s =>
      let (r, s) := toDiagram f s
      (-r, s)
  | .conj fs, s => conjToDiagram fs .one s
  | .disj fs, s => disjToDiagram fs .zero s

/- Build the conjunction of a diagram with some formulas. -/
def conjToDiagram :
    List Formula → Handle → Numbering → Handle × Numbering
  | [], r, s => (r, s)
  | f :: fs, r, s =>
      let (g, s) := toDiagram f s
      let (r, s) := s.and r g
      conjToDiagram fs r s

/- Build the disjunction of a diagram with some formulas. -/
def disjToDiagram :
    List Formula → Handle → Numbering → Handle × Numbering
  | [], r, s => (r, s)
  | f :: fs, r, s =>
      let (g, s) := toDiagram f s
      let (r, s) := s.or r g
      disjToDiagram fs r s

end

/- Whether two formulas agree under every assignment of their literals. -/
def equivalent (f g : Formula) : Bool :=
  let (a, s) := f.toDiagram ⟨[], default⟩
  let (b, _) := g.toDiagram s
  a == b

------------------------------------------------------------
-- Meaning
------------------------------------------------------------

/- The names that the value of a formula depends on, in order. -/
def support (f : Formula) : List String :=
  let (r, s) := f.toDiagram ⟨[], default⟩
  let tops := (s.manager.descendants [r]).map fun (i : Nat) =>
    s.manager.topVar ⟨i⟩
  f.names.filter fun name =>
    (s.numbers.lookup name).any tops.contains

/- The assignment under which the names at the one bits of a number hold. -/
def assignment (names : List String) (k : Nat) (name : String) : Bool :=
  names.contains name && k.testBit (names.idxOf name)

/-
  The values of a formula under all assignments of its support,
  the assignments being numbered from 0.
-/
def table (f : Formula) : List Bool :=
  let names := f.support
  (List.range (Nat.pow 2 names.length)).map fun k =>
    f.eval (assignment names k)

end Formula

end Variability
