/-
  Pairing of 64-bit words, used to spread keys over buckets.

  The pairing of two numbers walks the square shells of the
  plane: `(a, b)` is `b² + a` below the diagonal and
  `a² + a + b` on and above it. Arithmetic wraps, so on large
  words the result is only a well spread hash.

  Main definitions:
    * `pair`
    * `pairThree`
    * `Spread`
-/

namespace Variability

namespace Diagram

/- The pairing of two words. -/
def pair
    (a b : UInt64) :
    UInt64 :=
  if a < b then
    b * b + a
  else
    a * a + a + b

/- The pairing of three words. -/
def pairThree
    (a b c : UInt64) :
    UInt64 :=
  pair (pair a b) c

/- Keys that can be spread over buckets. -/
class Spread (α : Type) where
  spread : α → UInt64

export Spread (spread)

instance : Spread (UInt64 × UInt64) where
  spread p := pair p.1 p.2

instance : Spread (UInt64 × UInt64 × UInt64) where
  spread t := pairThree t.1 t.2.1 t.2.2

/- The bucket of a key among `count` buckets. -/
def bucketOf
    {α : Type}
    [Spread α]
    (count : Nat)
    (key : α) :
    Nat :=
  (spread key).toNat % count

/- The most bits that the size of a table or cache may have. -/
def maxBits : Nat := 31

end Diagram

end Variability
