import Variability.Diagram.Pairing

/-
  A table of cells that are shared by value.

  Cells are numbered from 1; cell 0 is a sentinel that is never
  handed out. A new value takes the least free cell. Values that
  were `put` are linked in chains, one chain for each bucket of
  hashes, so that an equal value is found again. Growing doubles
  the cells and leaves the buckets as they are.

  Main definitions:
    * `Table.create?`
    * `Table.add`
    * `Table.put`
    * `Table.drop`
    * `Table.chain`
-/

namespace Variability

namespace Diagram

------------------------------------------------------------
-- Cells
------------------------------------------------------------

/- A cell with its value and the next cell of its chain, 0 for none. -/
structure Cell (α : Type) where
  value : α
  next : Nat := 0
  occupied : Bool := false
  deriving Inhabited

/- A table with its chains of cells. -/
structure Table (α : Type) where
  cells : Array (Cell α)
  buckets : Array Nat
  /- The greatest cell that was ever handed out. -/
  last : Nat := 0
  /- No cell below this one is free. -/
  minFree : Nat := 1
  /- How many cells are occupied, the sentinel apart. -/
  count : Nat := 0

namespace Table

variable {α : Type} [Inhabited α]

/- The most bits that the number of buckets may have. -/
def maxBucketBits : Nat := 16

/- A table with room for `2 ^ bits` cells, the sentinel among them. -/
def empty (bits : Nat) : Table α where
  cells :=
    (Array.replicate (Nat.pow 2 bits)
      { value := default }).setIfInBounds 0
      { value := default, occupied := true }
  buckets := Array.replicate (Nat.pow 2 (min bits maxBucketBits)) 0

/- An empty table, if it may have that many bits. -/
def create? (bits : Nat) : Option (Table α) :=
  if bits ≤ maxBits then some (empty bits) else none

/- How many cells there is room for, the sentinel included. -/
def capacity (t : Table α) : Nat :=
  t.cells.size

------------------------------------------------------------
-- Reading
------------------------------------------------------------

/- A cell by its number; the sentinel is no cell. -/
def cell? (t : Table α) (i : Nat) : Option (Cell α) :=
  if i = 0 then none else t.cells[i]?

/- The value of a cell, the default value if there is no such cell. -/
def value (t : Table α) (i : Nat) : α :=
  match t.cells[i]? with
  | some c => c.value
  | none => default

/- The next cell of a chain. -/
def next (t : Table α) (i : Nat) : Nat :=
  match t.cells[i]? with
  | some c => c.next
  | none => 0

/- Whether a cell is occupied. -/
def isOccupied (t : Table α) (i : Nat) : Bool :=
  match t.cells[i]? with
  | some c => c.occupied
  | none => false

/- The first cell of a bucket's chain, 0 for none. -/
def bucket (t : Table α) (b : Nat) : Nat :=
  t.buckets.getD b 0

/- The cells of the chain from `i`, at most `steps` of them. -/
def chainFrom (t : Table α) : (steps : Nat) → (i : Nat) → List Nat
  | 0, _ => []
  | steps + 1, i =>
      if i = 0 then [] else i :: chainFrom t steps (t.next i)

/- The cells of a bucket's chain. -/
def chain (t : Table α) (b : Nat) : List Nat :=
  t.chainFrom t.cells.size (t.bucket b)

------------------------------------------------------------
-- Allocation
------------------------------------------------------------

/- The least free cell from `i` on. -/
def firstFree (t : Table α) (i : Nat) : Nat :=
  if i ≤ t.last then
    if t.isOccupied i then firstFree t (i + 1) else i
  else
    t.last + 1
  termination_by t.last + 1 - i

/- Make room for a cell that comes right after the last. -/
def grow (t : Table α) (i : Nat) : Table α :=
  if i < t.cells.size then
    t
  else
    { t with
      cells :=
        t.cells ++ Array.replicate t.cells.size { value := default } }

/- Store a value in the least free cell, outside every chain. -/
def add (t : Table α) (value : α) : Nat × Table α :=
  let i := t.firstFree t.minFree
  match t.grow i with
  | { cells, buckets, last, minFree := _, count } =>
      ( i,
        { cells := cells.setIfInBounds i { value, occupied := true }
          buckets
          last := max last i
          minFree := i + 1
          count := count + 1 } )

/- Free a cell; its chain is not changed. -/
def drop : (t : Table α) → (i : Nat) → Table α
  | { cells, buckets, last, minFree, count }, i =>
      { cells := cells.modify i fun c => { c with occupied := false }
        buckets
        last
        minFree := min minFree i
        count := count - 1 }

/- A cell may be dropped if it exists and some cell is occupied. -/
def canDrop (t : Table α) (i : Nat) : Bool :=
  (t.cell? i).isSome && decide (0 < t.count)

/- Set the next cell of a chain. -/
def setNext (t : Table α) (i next : Nat) : Table α :=
  { t with
    cells := t.cells.modify i fun c => { c with next := next } }

/- Set the first cell of a bucket's chain. -/
def setBucket (t : Table α) (b i : Nat) : Table α :=
  { t with buckets := t.buckets.setIfInBounds b i }

------------------------------------------------------------
-- Sharing
------------------------------------------------------------

/- Where a walk along a chain ends. -/
inductive Found where
  /- At a cell that holds the value. -/
  | at (i : Nat)
  /- At the end of the chain, after the given cell. -/
  | after (i : Nat)

/- Walk from cell `i` to a cell that holds the value or to the end. -/
def walk
    [DecidableEq α]
    (t : Table α)
    (value : α) :
    (steps : Nat) → (i : Nat) → Found
  | 0, i => .after i
  | steps + 1, i =>
      if t.value i = value then
        .at i
      else if t.next i = 0 then
        .after i
      else
        walk t value steps (t.next i)

/- Whether each cell that a walk from cell `i` comes to exists. -/
def canWalk
    [DecidableEq α]
    (t : Table α)
    (value : α) :
    (steps : Nat) → (i : Nat) → Bool
  | 0, _ => true
  | steps + 1, i =>
      match t.cell? i with
      | none => false
      | some c =>
          decide (c.value = value) || decide (c.next = 0) ||
            canWalk t value steps c.next

/- A value may be put if its chain leads to no missing cell. -/
def canPut [Spread α] [DecidableEq α] (t : Table α) (value : α) : Bool :=
  let first := t.bucket (bucketOf t.buckets.size value)
  decide (first = 0) || t.canWalk value t.cells.size first

/- The cell of a value, stored at the end of its chain if it is new. -/
def put
    [Spread α] [DecidableEq α]
    (t : Table α)
    (value : α) :
    Nat × Table α :=
  let b := bucketOf t.buckets.size value
  let first := t.bucket b
  if first = 0 then
    let (i, t) := t.add value
    (i, t.setBucket b i)
  else
    match t.walk value t.cells.size first with
    | .at i => (i, t)
    | .after j =>
        let (i, t) := t.add value
        (i, t.setNext j i)

/- Link cells in a chain, each to the one behind it. -/
def relink (t : Table α) : List Nat → Table α
  | [] => t
  | [i] => t.setNext i 0
  | i :: j :: rest => relink (t.setNext i j) (j :: rest)

/- Drop the cells of a bucket that are not alive and link the others in their order. -/
def sweep
    (alive : Nat → Bool)
    (t : Table α)
    (b : Nat) :
    Table α :=
  let (kept, dead) := (t.chain b).partition alive
  let t := dead.foldl drop t
  (t.setBucket b (kept.headD 0)).relink kept

end Table

end Diagram

end Variability
