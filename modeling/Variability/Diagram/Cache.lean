import Variability.Diagram.Pairing

/-
  A lossy cache of computed results.

  Every key has one slot; an entry is kept with its key, so a
  later entry of the same slot replaces it and never answers
  for it. Reads are counted as hits and misses.

  Main definitions:
    * `Cache.create?`
    * `Cache.find`
    * `Cache.insert`
    * `Cache.clear`
-/

namespace Variability

namespace Diagram

/- A cache with one slot for each bucket of its keys. -/
structure Cache (κ ν : Type) where
  slots : Array (Option (κ × ν))
  hits : Nat := 0
  misses : Nat := 0

namespace Cache

variable {κ ν : Type}

/- An empty cache of `2 ^ bits` slots. -/
def empty (bits : Nat) : Cache κ ν where
  slots := Array.replicate (Nat.pow 2 bits) none

/- An empty cache, if it may have that many bits. -/
def create? (bits : Nat) : Option (Cache κ ν) :=
  if bits ≤ maxBits then some (empty bits) else none

/- Forget all entries; the counts stay. -/
def clear (c : Cache κ ν) : Cache κ ν :=
  { c with slots := Array.replicate c.slots.size none }

/- The entry of a key, if its slot holds that key. -/
def peek
    [Spread κ] [DecidableEq κ]
    (c : Cache κ ν)
    (key : κ) :
    Option ν :=
  match c.slots[bucketOf c.slots.size key]? with
  | some (some (key', value)) =>
      if key' = key then some value else none
  | _ => none

/- Look a key up and count the outcome. -/
def find
    [Spread κ] [DecidableEq κ]
    (c : Cache κ ν)
    (key : κ) :
    Option ν × Cache κ ν :=
  match c.peek key with
  | some value => (some value, { c with hits := c.hits + 1 })
  | none => (none, { c with misses := c.misses + 1 })

/- Put an entry into the slot of its key. -/
def insert
    [Spread κ]
    (c : Cache κ ν)
    (key : κ)
    (value : ν) :
    Cache κ ν :=
  { c with
    slots :=
      c.slots.setIfInBounds (bucketOf c.slots.size key)
        (some (key, value)) }

end Cache

end Diagram

end Variability
