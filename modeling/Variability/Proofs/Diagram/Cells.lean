import Mathlib.Order.Bounds.Defs
import Variability.Proofs.Diagram.Search
import Variability.Proofs.Diagram.Sweep

/-
  Which cells a table hands out while it is in use.

  A table in use stores values, drops occupied cells and links
  chains anew. No cell below its mark for free cells is free, in
  whatever order this happens, so the cell of a new value is the
  least free one. Dropped cells are due in no chain any more, and
  values are stored only when all chains are as they are due.

  Main declarations:
    * `Table.Allocates`, `Table.Shares`
    * `Table.Due`
    * `Table.InUse`
    * `Table.InUse.sweepAll`
    * `Table.InUse.allocates_least`
-/

namespace Variability

namespace Diagram

namespace Table

variable {α : Type}
variable {t : Table α}

------------------------------------------------------------
-- Storing
------------------------------------------------------------

/- A new value takes the least cell that is free. -/
theorem Accounted.isLeast_firstFree
    (hAccounted : t.Accounted) :
    IsLeast {j | 1 ≤ j ∧ t.isOccupied j = false}
      (t.firstFree t.minFree) := by
  rcases hAccounted.free_firstFree with ⟨hZero, hFree⟩
  refine ⟨⟨Nat.one_le_iff_ne_zero.mpr hZero, hFree⟩, ?_⟩
  rintro j ⟨-, hj⟩
  by_contra hLess
  have hOccupied :=
    hAccounted.isOccupied_of_lt_firstFree (Nat.lt_of_not_le hLess)
  rw [hj] at hOccupied
  cases hOccupied

variable [Inhabited α]

/-
  A value is stored in the least free cell, for which there is
  room then, and nothing else changes but the successor of the
  cell that the new one is linked behind.
-/
structure Allocates
    (t t' : Table α)
    (v : α)
    (i : Nat)
    (link : Option Nat) : Prop where
  least : IsLeast {j | 1 ≤ j ∧ t.isOccupied j = false} i
  capacity_eq :
    t'.capacity =
      if i < t.capacity then t.capacity else t.capacity * 2
  room : i < t'.capacity
  value_eq :
    ∀ j, t'.value j = if j = i then v else t.value j
  isOccupied_eq :
    ∀ j, t'.isOccupied j = (decide (j = i) || t.isOccupied j)
  next_eq :
    ∀ j, t'.next j =
      if j = i then 0
      else if link = some j then i
      else t.next j

theorem capacity_add (v : α) :
    (t.add v).2.capacity =
      if t.firstFree t.minFree < t.capacity then t.capacity
      else t.capacity * 2 := by
  rw [capacity, Accounted.size_add, grow, capacity]
  split
  · rfl
  · simp
    omega

/- A value is stored outside all chains. -/
theorem Accounted.allocates_add
    (hAccounted : t.Accounted)
    (v : α) :
    t.Allocates (t.add v).2 v (t.add v).1 none where
  least := hAccounted.isLeast_firstFree
  capacity_eq := capacity_add v
  room := by
    rw [capacity, size_add]
    exact hAccounted.room
  value_eq := hAccounted.value_add v
  isOccupied_eq := hAccounted.isOccupied_add v
  next_eq := by simpa using hAccounted.next_add v

------------------------------------------------------------
-- Chains That Are Due
------------------------------------------------------------

variable [Spread α]
variable {chains chains' : Nat → List Nat}

/- The cells are linked in the given chains. -/
def LinkedBy (t : Table α) (chains : Nat → List Nat) : Prop :=
  ∀ b, b < t.buckets.size →
    Linked t.next (t.bucket b) (chains b)

/-
  Chains that a table is to have, whether its cells are linked
  so already or not.
-/
structure Due (t : Table α) (chains : Nat → List Nat) : Prop where
  accounted : t.Accounted
  buckets_pos : 0 < t.buckets.size
  nodup : ∀ b, b < t.buckets.size → (chains b).Nodup
  occupied :
    ∀ b, b < t.buckets.size →
      ∀ i ∈ chains b, t.isOccupied i = true
  bucketFor_eq :
    ∀ b, b < t.buckets.size →
      ∀ i ∈ chains b, t.bucketFor (t.value i) = b
  distinct :
    ∀ b, b < t.buckets.size →
      ∀ i ∈ chains b, ∀ j ∈ chains b,
        t.value i = t.value j → i = j

theorem ChainedBy.due
    (hChained : t.ChainedBy chains) :
    t.Due chains where
  accounted := hChained.accounted
  buckets_pos := hChained.buckets_pos
  nodup := hChained.nodup
  occupied := hChained.occupied
  bucketFor_eq := hChained.bucketFor_eq
  distinct := hChained.distinct

/- A table that is linked as it is to be is in order. -/
theorem Due.chainedBy
    (hDue : t.Due chains)
    (hLinked : t.LinkedBy chains) :
    t.ChainedBy chains where
  accounted := hDue.accounted
  buckets_pos := hDue.buckets_pos
  linked := hLinked
  nodup := hDue.nodup
  occupied := hDue.occupied
  bucketFor_eq := hDue.bucketFor_eq
  distinct := hDue.distinct

/- Only the chains of buckets matter. -/
theorem ChainedBy.congr
    (hChained : t.ChainedBy chains)
    (hSame : ∀ b, b < t.buckets.size → chains' b = chains b) :
    t.ChainedBy chains' := by
  refine
    ⟨hChained.accounted, hChained.buckets_pos,
      ?_, ?_, ?_, ?_, ?_⟩ <;>
    intro b hb <;> rw [hSame b hb]
  · exact hChained.linked b hb
  · exact hChained.nodup b hb
  · exact hChained.occupied b hb
  · exact hChained.bucketFor_eq b hb
  · exact hChained.distinct b hb

/- A table has the chains that it is chained by. -/
theorem ChainedBy.linkedBy
    (hChained : t.ChainedBy chains) :
    t.LinkedBy chains :=
  hChained.linked

instance decidableLinked (next : Nat → Nat) :
    (first : Nat) → (cells : List Nat) →
      Decidable (Linked next first cells)
  | first, [] => inferInstanceAs (Decidable (first = 0))
  | first, i :: rest =>
      have := decidableLinked next (next i) rest
      inferInstanceAs
        (Decidable
          (first = i ∧ i ≠ 0 ∧ Linked next (next i) rest))

instance (t : Table α) (chains : Nat → List Nat) :
    Decidable (t.LinkedBy chains) := by
  unfold LinkedBy
  infer_instance

/- Chains without some cells. -/
def without (chains : Nat → List Nat) (dead : List Nat) :
    Nat → List Nat :=
  fun b => (chains b).filter (· ∉ dead)

/- Chains with a cell behind one of them, unless it is there. -/
def behind (chains : Nat → List Nat) (b i : Nat) :
    Nat → List Nat :=
  fun b' =>
    if b' = b ∧ i ∉ chains b then chains b' ++ [i] else chains b'

theorem without_nil : without chains [] = chains := by
  funext b
  simp [without]

theorem without_without (dead dead' : List Nat) :
    without (without chains dead) dead' =
      without chains (dead ++ dead') := by
  funext b
  simp only [without, List.filter_filter, List.mem_append,
    not_or, Bool.decide_and]
  congr 1
  funext i
  exact Bool.and_comm _ _

namespace Due

/- A dropped cell is due in no chain any more. -/
theorem drop
    (hDue : t.Due chains)
    {i : Nat}
    (hi : i ≠ 0)
    (hOccupied : t.isOccupied i = true) :
    (t.drop i).Due (without chains [i]) := by
  have hLeft {b j : Nat} (hj : j ∈ without chains [i] b) :
      j ∈ chains b ∧ j ≠ i := by
    simpa [without] using hj
  refine
    { accounted := hDue.accounted.drop hi hOccupied
      buckets_pos := hDue.buckets_pos
      nodup := fun b hb => (hDue.nodup b hb).filter _
      occupied := fun b hb j hj => ?_
      bucketFor_eq := fun b hb j hj => ?_
      distinct := fun b hb j hj k hk hEq => ?_ }
  · rw [isOccupied_drop, hDue.occupied b hb j (hLeft hj).1]
    simpa using (hLeft hj).2
  · rw [bucketFor, value_drop]
    exact hDue.bucketFor_eq b hb j (hLeft hj).1
  · rw [value_drop, value_drop] at hEq
    exact
      hDue.distinct b hb j (hLeft hj).1 k (hLeft hk).1 hEq

/- Links do not change what is due. -/
theorem setNext
    (hDue : t.Due chains)
    (i n : Nat) :
    (t.setNext i n).Due chains where
  accounted := hDue.accounted.setNext i n
  buckets_pos := hDue.buckets_pos
  nodup := hDue.nodup
  occupied := by simpa using hDue.occupied
  bucketFor_eq := by simpa [bucketFor] using hDue.bucketFor_eq
  distinct := by simpa using hDue.distinct

theorem setBucket
    (hDue : t.Due chains)
    (b i : Nat) :
    (t.setBucket b i).Due chains where
  accounted := hDue.accounted.setBucket b i
  buckets_pos := by simpa using hDue.buckets_pos
  nodup := by simpa using hDue.nodup
  occupied := by simpa using hDue.occupied
  bucketFor_eq := by simpa [bucketFor] using hDue.bucketFor_eq
  distinct := by simpa using hDue.distinct

end Due

------------------------------------------------------------
-- Putting
------------------------------------------------------------

namespace ChainedBy

variable [DecidableEq α]

omit [DecidableEq α] in
/- A value that is added is in no chain. -/
theorem add
    (hChained : t.ChainedBy chains)
    (v : α) :
    (t.add v).2.ChainedBy chains := by
  apply (hChained.chained.add v).congr
  intro b hb
  rw [buckets_add] at hb
  exact (hChained.chain_eq hb).symm

/- A value that is in no chain is stored behind that of its bucket. -/
theorem allocates_put
    (hChained : t.ChainedBy chains)
    {v : α}
    (hNew : ∀ i ∈ chains (t.bucketFor v), t.value i ≠ v) :
    t.Allocates (t.put v).2 v (t.put v).1
      (chains (t.bucketFor v)).getLast? := by
  have hb := hChained.chained.bucketFor_lt v
  have hAdd := hChained.accounted.allocates_add v
  by_cases hEmpty : t.bucket (t.bucketFor v) = 0
  · have hNil : chains (t.bucketFor v) = [] := by
      rw [← hChained.chain_eq hb]
      exact hChained.chained.chain_eq_nil hb hEmpty
    have hPut :
        t.put v =
          ((t.add v).1,
            (t.add v).2.setBucket (t.bucketFor v)
              (t.add v).1) := by
      simp [put, hEmpty]
    rw [hPut, hNil]
    exact
      ⟨hAdd.least, hAdd.capacity_eq, hAdd.room, hAdd.value_eq,
        hAdd.isOccupied_eq, hAdd.next_eq⟩
  · rcases walk_cases v (hChained.linked _ hb) hEmpty
        (hChained.length_le hb) with
      ⟨i, hi, hValue, _⟩ | ⟨before, last, hCells, _, hWalk⟩
    · exact absurd hValue (hNew i hi)
    have hPut :
        t.put v =
          ((t.add v).1,
            (t.add v).2.setNext last (t.add v).1) := by
      simp [put, hEmpty, hWalk]
    have hLast : t.isOccupied last = true :=
      hChained.occupied _ hb last (by simp [hCells])
    have hExists : last < (t.add v).2.cells.size := by
      apply lt_size_of_isOccupied
      rw [hAdd.isOccupied_eq, hLast, Bool.or_true]
    have hNe : last ≠ (t.add v).1 := by
      rintro rfl
      rw [hAdd.least.1.2] at hLast
      cases hLast
    rw [hPut, hCells, List.getLast?_concat]
    refine
      { least := hAdd.least
        capacity_eq := by
          simpa [capacity] using hAdd.capacity_eq
        room := by simpa [capacity] using hAdd.room
        value_eq := by simpa using hAdd.value_eq
        isOccupied_eq := by simpa using hAdd.isOccupied_eq
        next_eq := fun j => ?_ }
    dsimp only
    rw [next_setNext _ _ _ _ hExists, hAdd.next_eq]
    by_cases hj : j = last
    · rw [if_pos hj, hj, if_neg hNe, if_pos rfl]
    · simp [hj, Ne.symm hj]

/- The cell of a value is in its chain then, at the end if it is new. -/
theorem put
    (hChained : t.ChainedBy chains)
    (v : α) :
    (t.put v).2.ChainedBy
      (behind chains (t.bucketFor v) (t.put v).1) := by
  have hb := hChained.chained.bucketFor_lt v
  rcases hChained.chained.put_cases v with
    ⟨i, hi, hValue, hPut⟩ | ⟨_, hStored⟩
  · rw [IsChained, hValue, hChained.chain_eq hb] at hi
    have hSame : behind chains (t.bucketFor v) i = chains := by
      funext b
      simp [behind, hi]
    rw [hPut, hSame]
    exact hChained
  · have hFree : (t.put v).1 ∉ chains (t.bucketFor v) := by
      intro hMem
      have hOccupied := hChained.occupied _ hb _ hMem
      rw [hStored.free] at hOccupied
      cases hOccupied
    apply ChainedBy.congr hStored.chained
    intro b hLess
    rw [hStored.buckets_size] at hLess
    rw [hStored.chain_eq b hLess, hChained.chain_eq hLess]
    simp [behind, hFree]

/- A value that some chain holds is found there. -/
theorem put_eq
    (hChained : t.ChainedBy chains)
    {v : α}
    {b i : Nat}
    (hb : b < t.buckets.size)
    (hi : i ∈ chains b)
    (hValue : t.value i = v) :
    t.put v = (i, t) := by
  have hBucket := hChained.bucketFor_eq b hb i hi
  rw [hValue] at hBucket
  have hMem : t.IsChained i := by
    rw [IsChained, hValue, hBucket, hChained.chain_eq hb]
    exact hi
  rcases hChained.chained.put_cases v with
    ⟨j, hj, hValue', hPut⟩ | ⟨hNew, _⟩
  · rw [IsChained, hValue', hBucket, hChained.chain_eq hb] at hj
    rw [hPut,
      hChained.distinct b hb j hj i hi (hValue'.trans hValue.symm)]
  · exact absurd hValue (hNew i hMem)

/- The cell of a value that was put holds it. -/
theorem value_put
    (hChained : t.ChainedBy chains)
    (v : α) :
    (t.put v).1 ≠ 0 ∧
      (t.put v).2.isOccupied (t.put v).1 = true ∧
      (t.put v).2.value (t.put v).1 = v := by
  rcases hChained.chained.put_cases v with
    ⟨i, hi, hValue, hPut⟩ | ⟨_, hStored⟩
  · have hCell :=
      hChained.chained.mem_chain
        (hChained.chained.bucketFor_lt (t.value i)) hi
    rw [hPut]
    exact ⟨hCell.1, hCell.2, hValue⟩
  · refine ⟨hStored.ne_zero, ?_, ?_⟩
    · rw [hStored.isOccupied_eq]
      simp
    · rw [hStored.value_eq, if_pos rfl]

end ChainedBy

/-
  Putting a value ends, in a cell that holds it. A value that
  some chain holds is found there and changes nothing, and any
  other one is stored behind the chain of its bucket.
-/
structure Shares
    [DecidableEq α]
    (t : Table α)
    (chains : Nat → List Nat)
    (v : α) : Prop where
  ends : ∀ made, t.Puts v made ↔ made = t.put v
  holds :
    (t.put v).1 ≠ 0 ∧
      (t.put v).2.isOccupied (t.put v).1 = true ∧
      (t.put v).2.value (t.put v).1 = v
  linked :
    (t.put v).2.LinkedBy
      (behind chains (t.bucketFor v) (t.put v).1)
  found :
    ∀ b i, b < t.buckets.size → i ∈ chains b →
      t.value i = v → t.put v = (i, t)
  stored :
    (∀ b i, b < t.buckets.size → i ∈ chains b →
      t.value i ≠ v) →
      t.Allocates (t.put v).2 v (t.put v).1
        (chains (t.bucketFor v)).getLast?

theorem ChainedBy.shares
    [DecidableEq α]
    (hChained : t.ChainedBy chains)
    (v : α) :
    t.Shares chains v where
  ends := hChained.puts_iff v
  holds := hChained.value_put v
  linked := (hChained.put v).linkedBy
  found := fun _ _ hb hi hValue => hChained.put_eq hb hi hValue
  stored := fun hNew =>
    hChained.allocates_put fun i hi =>
      hNew _ i (hChained.chained.bucketFor_lt v) hi

------------------------------------------------------------
-- Tables in Use
------------------------------------------------------------

/-
  The tables of all uses, with the chains that are due. Only
  occupied cells are dropped, and links are set as they need be;
  but values are stored only when all cells are linked as is due.
-/
inductive InUse
    [DecidableEq α] :
    Table α → (Nat → List Nat) → Prop where
  | create {bits : Nat} {t : Table α}
      (hCreate : create? bits = some t) :
      InUse t fun _ => []
  | add {t : Table α} {chains : Nat → List Nat}
      (hUse : InUse t chains)
      (hLinked : t.LinkedBy chains)
      (v : α) :
      InUse (t.add v).2 chains
  | put {t : Table α} {chains : Nat → List Nat}
      (hUse : InUse t chains)
      (hLinked : t.LinkedBy chains)
      (v : α) :
      InUse (t.put v).2
        (behind chains (t.bucketFor v) (t.put v).1)
  | drop {t : Table α} {chains : Nat → List Nat}
      (hUse : InUse t chains)
      {i : Nat}
      (hi : i ≠ 0)
      (hOccupied : t.isOccupied i = true) :
      InUse (t.drop i) (without chains [i])
  | setNext {t : Table α} {chains : Nat → List Nat}
      (hUse : InUse t chains)
      {i : Nat}
      (hCell : (t.cell? i).isSome = true)
      (next : Nat) :
      InUse (t.setNext i next) chains
  | setBucket {t : Table α} {chains : Nat → List Nat}
      (hUse : InUse t chains)
      {b : Nat}
      (hb : b < t.buckets.size)
      (first : Nat) :
      InUse (t.setBucket b first) chains

namespace InUse

variable [DecidableEq α]

/- The chains that are due, by one case for each way of use. -/
theorem due
    (hUse : InUse t chains) :
    t.Due chains := by
  induction hUse with
  | @create bits t hCreate =>
      unfold create? at hCreate
      split at hCreate
      · cases hCreate
        have hEmpty : (Table.empty bits : Table α).Chained :=
          Chained.empty bits
        apply ChainedBy.due
        apply hEmpty.congr
        intro b hb
        exact (hEmpty.chain_eq_nil hb (bucket_empty bits b)).symm
      · cases hCreate
  | add _ hLinked v ih => exact ((ih.chainedBy hLinked).add v).due
  | put _ hLinked v ih => exact ((ih.chainedBy hLinked).put v).due
  | drop _ hi hOccupied ih => exact ih.drop hi hOccupied
  | setNext _ _ next ih => exact ih.setNext _ next
  | setBucket _ _ first ih => exact ih.setBucket _ first

/- Dropping cells one after the other. -/
theorem drops
    (hUse : InUse t chains)
    {dead : List Nat}
    (hNodup : dead.Nodup)
    (hDead : ∀ i ∈ dead, i ≠ 0 ∧ t.isOccupied i = true) :
    InUse (dead.foldl Table.drop t) (without chains dead) := by
  induction dead generalizing t chains with
  | nil =>
      rw [without_nil]
      exact hUse
  | cons i dead ih =>
      rcases List.nodup_cons.mp hNodup with ⟨hNew, hRest⟩
      rcases hDead i List.mem_cons_self with ⟨hi, hOccupied⟩
      have hFirst := hUse.drop hi hOccupied
      have hLater := ih hFirst hRest (fun j hj => by
        rcases hDead j (List.mem_cons_of_mem i hj) with
          ⟨hZero, hTaken⟩
        refine ⟨hZero, ?_⟩
        rw [isOccupied_drop, hTaken, Bool.true_and,
          decide_eq_true_iff]
        rintro rfl
        exact hNew hj)
      rwa [without_without] at hLater

/- Linking cells that exist one behind the other. -/
theorem relink
    (hUse : InUse t chains)
    {kept : List Nat}
    (hKept : ∀ i ∈ kept, i ≠ 0 ∧ i < t.cells.size) :
    InUse (t.relink kept) chains := by
  have hCell {t : Table α} {i : Nat}
      (hi : i ≠ 0 ∧ i < t.cells.size) :
      (t.cell? i).isSome = true := by
    simp [cell?, hi.1, hi.2]
  induction t, kept using relink.induct with
  | case1 t => exact hUse
  | case2 t i =>
      exact hUse.setNext (hCell (hKept i (by simp))) 0
  | case3 t i j rest ih =>
      rw [Table.relink]
      apply ih (hUse.setNext (hCell (hKept i (by simp))) j)
      intro k hk
      rw [size_setNext]
      exact hKept k (List.mem_cons_of_mem i hk)

variable {b : Nat}

/- Sweeping a bucket drops cells and links the others as is due. -/
theorem sweep
    (hUse : InUse t chains)
    (hLinked : t.LinkedBy chains)
    (alive : Nat → Bool)
    (hb : b < t.buckets.size) :
    ∃ chains',
      InUse (t.sweep alive b) chains' ∧
        (t.sweep alive b).LinkedBy chains' := by
  have hBy := hUse.due.chainedBy hLinked
  have hChained := hBy.chained
  have hCells := hBy.chain_eq hb
  have hDead :
      ∀ i ∈ (t.chain b).filter (!alive ·),
        i ≠ 0 ∧ t.isOccupied i = true := fun i hi =>
    hChained.mem_chain hb (List.mem_of_mem_filter hi)
  refine
    ⟨without chains ((t.chain b).filter (!alive ·)), ?_, ?_⟩
  · have hDropped :=
      hUse.drops ((hChained.nodup b hb).filter _) hDead
    rw [sweep_eq]
    apply InUse.relink
    · apply hDropped.setBucket
      exact (t.buckets_dropped alive b).symm ▸ hb
    · exact hChained.mem_kept alive hb
  · have hSwept := hChained.chainedBy_sweep alive hb
    apply ChainedBy.linkedBy
    apply hSwept.congr
    intro b' hb'
    rw [size_buckets_sweep] at hb'
    by_cases hEq : b' = b
    · subst hEq
      rw [if_pos rfl, kept, without, ← hCells]
      apply List.filter_congr
      intro i hi
      simp [hi]
    · rw [if_neg hEq, hBy.chain_eq hb', without,
        List.filter_eq_self]
      intro i hi
      rw [decide_eq_true_iff]
      intro hMem
      rw [← hBy.chain_eq hb'] at hi
      exact
        hEq (hChained.eq_of_mem_chain hb' hb hi
          (List.mem_of_mem_filter hMem))

/- Sweeping buckets one after the other. -/
theorem sweeps
    (hUse : InUse t chains)
    (hLinked : t.LinkedBy chains)
    (alive : Nat → Bool)
    {buckets : List Nat}
    (hBuckets : ∀ b ∈ buckets, b < t.buckets.size) :
    ∃ chains',
      InUse (buckets.foldl (Table.sweep alive) t) chains' ∧
        (buckets.foldl (Table.sweep alive) t).LinkedBy
          chains' := by
  induction buckets generalizing t chains with
  | nil => exact ⟨chains, hUse, hLinked⟩
  | cons b buckets ih =>
      have hb := hBuckets b List.mem_cons_self
      rcases hUse.sweep hLinked alive hb with
        ⟨chains', hUse', hLinked'⟩
      apply ih hUse' hLinked'
      intro b' hb'
      rw [size_buckets_sweep]
      exact hBuckets b' (List.mem_cons_of_mem b hb')

end InUse

/- A table after all its buckets are swept. -/
def sweepAll (t : Table α) (alive : Nat → Bool) : Table α :=
  (List.range t.buckets.size).foldl (Table.sweep alive) t

namespace InUse

variable [DecidableEq α]

/- Sweeping all buckets leaves what is alive of every chain. -/
theorem sweepAll
    (hUse : InUse t chains)
    (hLinked : t.LinkedBy chains)
    (alive : Nat → Bool) :
    ∃ chains',
      InUse (t.sweepAll alive) chains' ∧
        (t.sweepAll alive).LinkedBy chains' ∧
        ∀ b, b < t.buckets.size →
          chains' b = (chains b).filter alive := by
  have hBy := hUse.due.chainedBy hLinked
  have hBuckets :
      ∀ b ∈ List.range t.buckets.size, b < t.buckets.size :=
    fun _ hb => List.mem_range.mp hb
  have hSwept := hBy.chained.sweepAll alive _ hBuckets
  rcases hUse.sweeps hLinked alive hBuckets with
    ⟨chains', hUse', hLinked'⟩
  refine ⟨chains', hUse', hLinked', fun b hb => ?_⟩
  have hBy' := hUse'.due.chainedBy hLinked'
  calc
    chains' b = (t.sweepAll alive).chain b :=
      (hBy'.chain_eq (hSwept.buckets_size.symm ▸ hb)).symm
    _ = (t.chain b).filter alive := by
      rw [Table.sweepAll, hSwept.chain_eq b hb,
        if_pos (List.mem_range.mpr hb)]
    _ = (chains b).filter alive := by rw [hBy.chain_eq hb]

/-
  In all uses the count is the number of occupied cells, and any
  of these may be dropped. Where the cells are linked as is due,
  a value that is added takes the least free cell, a value that
  is put is found or takes it, and a sweep is such a use again.
-/
theorem allocates_least
    (hUse : InUse t chains) :
    t.count = t.occupiedCells.card ∧
      (∀ i, i ≠ 0 → t.isOccupied i = true →
        t.canDrop i = true) ∧
      (t.LinkedBy chains →
        (∀ v,
          t.Allocates (t.add v).2 v (t.add v).1 none ∧
            (t.add v).2.LinkedBy chains) ∧
        (∀ v, t.Shares chains v) ∧
        ∀ alive, ∃ chains',
          InUse (t.sweepAll alive) chains' ∧
            (t.sweepAll alive).LinkedBy chains' ∧
            ∀ b, b < t.buckets.size →
              chains' b = (chains b).filter alive) := by
  have hAccounted := hUse.due.accounted
  refine
    ⟨hAccounted.count_eq,
      fun i hi hOccupied => (hAccounted.canDrop hi hOccupied).2,
      fun hLinked => ⟨fun v => ?_, fun v => ?_, ?_⟩⟩
  · refine ⟨hAccounted.allocates_add v, ?_⟩
    exact
      ((hUse.due.chainedBy hLinked).add v).linkedBy
  · exact (hUse.due.chainedBy hLinked).shares v
  · exact hUse.sweepAll hLinked

/- A table with two values in one chain. -/
def pairTable : Table (UInt64 × UInt64) :=
  (((empty 1).put (1, 0)).2.put (2, 0)).2

theorem inUse_pairTable :
    InUse pairTable (behind (behind (fun _ => []) 0 1) 0 2) := by
  have hEmpty :
      InUse (empty 1 : Table (UInt64 × UInt64)) fun _ => [] :=
    .create (rfl : create? 1 = some (empty 1))
  have hFirst := hEmpty.put (by decide +kernel) (1, 0)
  have hSecond := hFirst.put (by decide +kernel) (2, 0)
  have hCells :
      (empty 1).bucketFor ((1, 0) : UInt64 × UInt64) = 0 ∧
        ((empty 1).put ((1, 0) : UInt64 × UInt64)).1 = 1 := by
    decide +kernel
  have hCells' :
      ((empty 1).put ((1, 0) : UInt64 × UInt64)).2.bucketFor
          (2, 0) = 0 ∧
        (((empty 1).put ((1, 0) : UInt64 × UInt64)).2.put
          (2, 0)).1 = 2 := by
    decide +kernel
  rwa [hCells.1, hCells.2, hCells'.1, hCells'.2] at hSecond

/- The first cell is dropped, and the chain starts at the second one. -/
def relinkedTable : Table (UInt64 × UInt64) :=
  (pairTable.drop 1).setBucket 0 2

/- The chains of that table. -/
def relinkedChains (b : Nat) : List Nat :=
  if b = 0 then [2] else []

theorem inUse_relinkedTable :
    InUse relinkedTable relinkedChains := by
  have hDropped :=
    inUse_pairTable.drop (by decide : 1 ≠ 0) (by decide +kernel)
  have hTable :=
    hDropped.setBucket (b := 0) (by decide +kernel) 2
  have hChains :
      without (behind (behind (fun _ => []) 0 1) 0 2) [1] =
        relinkedChains := by
    funext b
    by_cases hb : b = 0 <;>
      simp [without, behind, relinkedChains, hb]
  rwa [hChains] at hTable

theorem allocates_least_relinkedTable :
    InUse relinkedTable relinkedChains ∧
      relinkedTable.LinkedBy relinkedChains ∧
      relinkedTable.count = relinkedTable.occupiedCells.card ∧
      relinkedTable.Allocates (relinkedTable.add (3, 0)).2 (3, 0)
        (relinkedTable.add (3, 0)).1 none ∧
      relinkedTable.put (2, 0) = (2, relinkedTable) := by
  rcases allocates_least inUse_relinkedTable with
    ⟨hCount, -, hLinked⟩
  have hTable : relinkedTable.LinkedBy relinkedChains := by
    decide +kernel
  rcases hLinked hTable with ⟨hAdd, hPut, -⟩
  exact
    ⟨inUse_relinkedTable, hTable, hCount,
      (hAdd (3, 0)).1,
      (hPut (2, 0)).found 0 2 (by decide +kernel) (by decide)
        (by decide +kernel)⟩

end InUse

end Table

end Diagram

end Variability
