import Variability.Diagram.Pairing

/-
  Handles of diagram nodes.

  A handle names a node by its index; a negative code is the
  complement of the node that the positive code names.

  Main definitions:
    * `Handle`
    * `Handle.index`, `Handle.negated`
    * `Handle.text`
-/

namespace Variability

namespace Diagram

------------------------------------------------------------
-- Handles
------------------------------------------------------------

/- A signed node index. -/
structure Handle where
  code : Int
  deriving DecidableEq, Repr, Inhabited

namespace Handle

/- The index of the node that a handle names. -/
def index (r : Handle) : Nat :=
  r.code.natAbs

/- Whether a handle names the complement of its node. -/
def negated (r : Handle) : Bool :=
  decide (r.code < 0)

instance : Neg Handle where
  neg r := ⟨-r.code⟩

/- The handle of a node itself. -/
def ofIndex (i : Nat) : Handle :=
  ⟨i⟩

/- The constant true, the first node of every manager. -/
def one : Handle := ⟨1⟩

/- The constant false. -/
def zero : Handle := ⟨-1⟩

/- Whether a handle is a constant. -/
def isTerminal (r : Handle) : Bool :=
  r.index == 1

/-
  A handle as a 32-bit word: twice the index, and one more for
  a complement.
-/
def word (r : Handle) : UInt32 :=
  2 * r.index.toUInt32 + (if r.negated then 1 else 0)

/- The same word in 64 bits. -/
def word64 (r : Handle) : UInt64 :=
  r.word.toUInt64

instance : Spread Handle where
  spread := word64

/- The written form: `@` and the index, after `~` for a complement. -/
def text (r : Handle) : String :=
  (if r.negated then "~@" else "@") ++ toString r.index

/- `-r` when `negate` holds, else `r`. -/
def negateIf (negate : Bool) (r : Handle) : Handle :=
  if negate then -r else r

/- Codes are 32-bit; the least of them has no complement. -/
def inRange (r : Handle) : Bool :=
  decide (-2147483648 < r.code) && decide (r.code < 2147483648)

end Handle

end Diagram

end Variability
