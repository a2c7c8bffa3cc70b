import Variability.Path

/-
  Lines of files.

  Main definitions:
    * `Location`
    * `Location.make`
    * `Location.compare`
-/

namespace Variability

/- A line of a file, counted from 1. -/
structure Location where
  file : Path
  line : Nat
  deriving DecidableEq, Repr, Inhabited

namespace Location

/- A line of a file, whose path is brought to its normal form. -/
def make (file : Path) (line : Nat) : Location :=
  ⟨file.normalize, line⟩

/- The written form of a location. -/
def text (l : Location) : String :=
  l.file.text ++ ":" ++ toString l.line

/- Locations are ordered by file, then by line. -/
def compare (a b : Location) : Ordering :=
  (a.file.compare b.file).then (Ord.compare a.line b.line)

/- Put a location into an ordered set. -/
def insertOrdered (l : Location) : List Location → List Location
  | [] => [l]
  | other :: rest =>
      match l.compare other with
      | .lt => l :: other :: rest
      | .eq => other :: rest
      | .gt => other :: insertOrdered l rest

/- Some locations in order, each once. -/
def orderedSet (ls : List Location) : List Location :=
  ls.foldl (fun set l => insertOrdered l set) []

end Location

end Variability
