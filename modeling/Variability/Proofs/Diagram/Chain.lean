import Mathlib.Data.List.Perm.Subperm
import Variability.Proofs.Diagram.Allocation

/-
  The chains of a table.

  The chain of a bucket leads once through each of its cells and
  ends. The cells of a chain are occupied, their values belong to
  its bucket, and no value occurs in it twice. So a value that is
  put is found exactly where it was put before, and sweeping
  leaves the chains of the cells that are kept.

  Main declarations:
    * `Table.Linked`
    * `Table.Chained`
    * `Table.Chained.put_cases`
    * `Table.Chained.sweep`
-/

namespace Variability

namespace Diagram

namespace Table

------------------------------------------------------------
-- Linked Cells
------------------------------------------------------------

/-
  The cells of a list follow each other from `first`, and
  nothing follows the last of them.
-/
def Linked (next : Nat → Nat) : (first : Nat) → List Nat → Prop
  | first, [] => first = 0
  | first, i :: rest =>
      first = i ∧ i ≠ 0 ∧ Linked next (next i) rest

/- Linked cells depend on their own successors only. -/
theorem Linked.congr
    {next next' : Nat → Nat}
    {first : Nat}
    {cells : List Nat}
    (hLinked : Linked next first cells)
    (hNext : ∀ i ∈ cells, next' i = next i) :
    Linked next' first cells := by
  induction cells generalizing first with
  | nil => exact hLinked
  | cons i rest ih =>
      rcases hLinked with ⟨hFirst, hi, hRest⟩
      refine ⟨hFirst, hi, ?_⟩
      rw [hNext i (by simp)]
      exact ih hRest fun j hj => hNext j (by simp [hj])

/- No linked cell is the sentinel. -/
theorem Linked.ne_zero
    {next : Nat → Nat}
    {first : Nat}
    {cells : List Nat}
    (hLinked : Linked next first cells)
    {i : Nat}
    (hi : i ∈ cells) :
    i ≠ 0 := by
  induction cells generalizing first with
  | nil => simp at hi
  | cons j rest ih =>
      rcases hLinked with ⟨_, hj, hRest⟩
      rcases List.mem_cons.mp hi with rfl | hi
      · exact hj
      · exact ih hRest hi

/- A further cell can be linked behind the last one. -/
theorem Linked.append
    {next next' : Nat → Nat}
    {first last i : Nat}
    {cells : List Nat}
    (hLinked : Linked next first (cells ++ [last]))
    (hNext : ∀ j ∈ cells, next' j = next j)
    (hLast : next' last = i)
    (hi : i ≠ 0)
    (hEnd : next' i = 0) :
    Linked next' first (cells ++ [last] ++ [i]) := by
  induction cells generalizing first with
  | nil =>
      rcases hLinked with ⟨hFirst, hNonzero, _⟩
      exact ⟨hFirst, hNonzero, hLast, hi, hEnd⟩
  | cons j rest ih =>
      rcases hLinked with ⟨hFirst, hj, hRest⟩
      refine ⟨hFirst, hj, ?_⟩
      rw [hNext j (by simp)]
      exact ih hRest fun k hk => hNext k (by simp [hk])

variable {α : Type}

/- Walking along linked cells comes to all of them. -/
theorem chainFrom_eq
    {t : Table α}
    {first steps : Nat}
    {cells : List Nat}
    (hLinked : Linked t.next first cells)
    (hSteps : cells.length ≤ steps) :
    t.chainFrom steps first = cells := by
  induction cells generalizing first steps with
  | nil =>
      have hFirst : first = 0 := hLinked
      cases steps <;> simp [chainFrom, hFirst]
  | cons i rest ih =>
      rcases hLinked with ⟨rfl, hFirst, hRest⟩
      cases steps with
      | zero => simp at hSteps
      | succ steps =>
          have hRec := ih hRest (by simpa using hSteps)
          simp [chainFrom, hFirst, hRec]

/-
  A walk along linked cells ends at the one with the value, if
  there is one, else at the last.
-/
theorem walk_cases
    [Inhabited α] [DecidableEq α]
    {t : Table α}
    {first steps : Nat}
    {cells : List Nat}
    (v : α)
    (hLinked : Linked t.next first cells)
    (hFirst : first ≠ 0)
    (hSteps : cells.length ≤ steps) :
    (∃ i ∈ cells,
      t.value i = v ∧ t.walk v steps first = .at i) ∨
    (∃ before last,
      cells = before ++ [last] ∧
      (∀ i ∈ cells, t.value i ≠ v) ∧
      t.walk v steps first = .after last) := by
  induction cells generalizing first steps with
  | nil => exact absurd hLinked hFirst
  | cons i rest ih =>
      rcases hLinked with ⟨rfl, _, hRest⟩
      cases steps with
      | zero => simp at hSteps
      | succ steps =>
          by_cases hValue : t.value first = v
          · left
            exact ⟨first, by simp, hValue,
              by simp [walk, hValue]⟩
          · by_cases hEnd : t.next first = 0
            · right
              have hNil : rest = [] := by
                cases rest with
                | nil => rfl
                | cons j rest =>
                    exact absurd
                      (hRest.1.symm.trans hEnd) hRest.2.1
              subst hNil
              refine ⟨[], first, rfl, ?_, ?_⟩
              · simpa using hValue
              · simp [walk, hValue, hEnd]
            · have hWalk :
                  t.walk v (steps + 1) first =
                    t.walk v steps (t.next first) := by
                simp [walk, hValue, hEnd]
              rw [hWalk]
              rcases ih hRest hEnd
                  (by simpa using hSteps) with
                ⟨j, hj, hFound⟩ |
                  ⟨before, last, hCells, hNew, hAfter⟩
              · exact Or.inl ⟨j, by simp [hj], hFound⟩
              · right
                refine
                  ⟨first :: before, last, ?_, ?_, hAfter⟩
                · simp [hCells]
                · intro j hj
                  rcases List.mem_cons.mp hj with rfl | hj
                  · exact hValue
                  · exact hNew j hj

------------------------------------------------------------
-- Chains
------------------------------------------------------------

variable [Inhabited α] [Spread α]

/- The bucket that a value belongs to. -/
abbrev bucketFor (t : Table α) (v : α) : Nat :=
  bucketOf t.buckets.size v

/- Some cells are the chains of a table, bucket by bucket. -/
structure ChainedBy
    (t : Table α)
    (chains : Nat → List Nat) : Prop where
  accounted : t.Accounted
  buckets_pos : 0 < t.buckets.size
  linked :
    ∀ b, b < t.buckets.size →
      Linked t.next (t.bucket b) (chains b)
  nodup : ∀ b, b < t.buckets.size → (chains b).Nodup
  occupied :
    ∀ b, b < t.buckets.size →
      ∀ i ∈ chains b, t.isOccupied i = true
  bucketFor_eq :
    ∀ b, b < t.buckets.size →
      ∀ i ∈ chains b, t.bucketFor (t.value i) = b
  distinct :
    ∀ b, b < t.buckets.size →
      ∀ i ∈ chains b, ∀ j ∈ chains b,
        t.value i = t.value j → i = j

/- A table whose chains are in order. -/
def Chained (t : Table α) : Prop :=
  t.ChainedBy t.chain

/- The cells that are in some chain. -/
def IsChained (t : Table α) (i : Nat) : Prop :=
  i ∈ t.chain (t.bucketFor (t.value i))

namespace ChainedBy

variable {t : Table α}
variable {chains : Nat → List Nat}

/- No chain is longer than the table has cells. -/
theorem length_le
    (hChained : t.ChainedBy chains)
    {b : Nat}
    (hb : b < t.buckets.size) :
    (chains b).length ≤ t.cells.size := by
  have hSubset : chains b ⊆ List.range t.cells.size := by
    intro i hi
    exact List.mem_range.mpr
      (lt_size_of_isOccupied
        (hChained.occupied b hb i hi))
  simpa using
    (List.subperm_of_subset
      (hChained.nodup b hb) hSubset).length_le

theorem chain_eq
    (hChained : t.ChainedBy chains)
    {b : Nat}
    (hb : b < t.buckets.size) :
    t.chain b = chains b :=
  chainFrom_eq (hChained.linked b hb)
    (hChained.length_le hb)

/- Walking a table in order gives the chains it has. -/
theorem chained
    (hChained : t.ChainedBy chains) :
    t.Chained := by
  have hEq (b : Nat) (hb : b < t.buckets.size) :=
    hChained.chain_eq hb
  refine
    ⟨hChained.accounted, hChained.buckets_pos,
      ?_, ?_, ?_, ?_, ?_⟩ <;>
    intro b hb <;> rw [hEq b hb]
  · exact hChained.linked b hb
  · exact hChained.nodup b hb
  · exact hChained.occupied b hb
  · exact hChained.bucketFor_eq b hb
  · exact hChained.distinct b hb

end ChainedBy

/- The bucket of a value exists. -/
theorem Chained.bucketFor_lt
    {t : Table α}
    (hChained : t.Chained)
    (v : α) :
    t.bucketFor v < t.buckets.size :=
  Nat.mod_lt _ hChained.buckets_pos

/- A table without values has no chains. -/
theorem bucket_empty
    {α : Type} [Inhabited α]
    (bits b : Nat) :
    (Table.empty bits : Table α).bucket b = 0 := by
  simp only [bucket, Table.empty,
    Array.getD_eq_getD_getElem?,
    Array.getElem?_replicate]
  split <;> rfl

/- A table without values is in order. -/
theorem Chained.empty
    (bits : Nat) :
    (Table.empty bits : Table α).Chained := by
  have hBy :
      (Table.empty bits : Table α).ChainedBy fun _ => [] :=
    { accounted := Accounted.empty bits
      buckets_pos := by
        rw [Table.empty, Array.size_replicate]
        exact Nat.two_pow_pos _
      linked := fun b _ => bucket_empty bits b
      nodup := by simp
      occupied := by simp
      bucketFor_eq := by simp
      distinct := by simp }
  exact hBy.chained

------------------------------------------------------------
-- Putting a Value
------------------------------------------------------------

/- A value that is new is stored behind the chain of its bucket. -/
structure Stored
    (t t' : Table α)
    (v : α)
    (i : Nat) : Prop where
  chained : t'.Chained
  ne_zero : i ≠ 0
  free : t.isOccupied i = false
  value_eq :
    ∀ j, t'.value j = if j = i then v else t.value j
  isOccupied_eq :
    ∀ j, t'.isOccupied j =
      (decide (j = i) || t.isOccupied j)
  buckets_size : t'.buckets.size = t.buckets.size
  chain_eq :
    ∀ b, b < t.buckets.size →
      t'.chain b =
        if b = t.bucketFor v then t.chain b ++ [i]
        else t.chain b

namespace Chained

variable {t : Table α}

/- The cells of a chain are occupied and are not the sentinel. -/
theorem mem_chain
    (hChained : t.Chained)
    {b i : Nat}
    (hb : b < t.buckets.size)
    (hi : i ∈ t.chain b) :
    i ≠ 0 ∧ t.isOccupied i = true :=
  ⟨(hChained.linked b hb).ne_zero hi,
    hChained.occupied b hb i hi⟩

/- A cell is in one chain at most. -/
theorem eq_of_mem_chain
    (hChained : t.Chained)
    {b b' i : Nat}
    (hb : b < t.buckets.size)
    (hb' : b' < t.buckets.size)
    (hi : i ∈ t.chain b)
    (hi' : i ∈ t.chain b') :
    b = b' :=
  (hChained.bucketFor_eq b hb i hi).symm.trans
    (hChained.bucketFor_eq b' hb' i hi')

/- The cell that a new value takes is in no chain. -/
theorem ne_firstFree
    (hChained : t.Chained)
    {b i : Nat}
    (hb : b < t.buckets.size)
    (hi : i ∈ t.chain b) :
    i ≠ t.firstFree t.minFree := by
  rintro rfl
  have hOccupied := hChained.occupied b hb _ hi
  simp [hChained.accounted.free_firstFree.2] at hOccupied

/- A cell that is stored outside the chains leaves them linked. -/
theorem linked_add
    (hChained : t.Chained)
    (v : α)
    {b : Nat}
    (hb : b < t.buckets.size) :
    Linked (t.add v).2.next (t.bucket b) (t.chain b) := by
  apply (hChained.linked b hb).congr
  intro i hi
  rw [hChained.accounted.next_add,
    if_neg (hChained.ne_firstFree hb hi)]

/- The values in chains stay when a value is stored. -/
theorem value_add
    (hChained : t.Chained)
    (v : α)
    {b i : Nat}
    (hb : b < t.buckets.size)
    (hi : i ∈ t.chain b) :
    (t.add v).2.value i = t.value i := by
  rw [hChained.accounted.value_add,
    if_neg (hChained.ne_firstFree hb hi)]

/- Storing a value outside all chains keeps them. -/
theorem add
    (hChained : t.Chained)
    (v : α) :
    (t.add v).2.ChainedBy t.chain := by
  refine
    ⟨hChained.accounted.add v, by
        simpa using hChained.buckets_pos,
      ?_, ?_, ?_, ?_, ?_⟩ <;>
    intro b hb <;> rw [buckets_add] at hb
  · rw [bucket_add]
    exact hChained.linked_add v hb
  · exact hChained.nodup b hb
  · intro i hi
    rw [hChained.accounted.isOccupied_add,
      hChained.occupied b hb i hi, Bool.or_true]
  · intro i hi
    rw [bucketFor, buckets_add, hChained.value_add v hb hi]
    exact hChained.bucketFor_eq b hb i hi
  · intro i hi j hj hEq
    rw [hChained.value_add v hb hi,
      hChained.value_add v hb hj] at hEq
    exact hChained.distinct b hb i hi j hj hEq

section Stored

variable (hChained : t.Chained)
variable {v : α}
variable {t' : Table α}
variable
  (hNew : ∀ i ∈ t.chain (t.bucketFor v), t.value i ≠ v)
variable (hAccounted : t'.Accounted)
variable (hValue : ∀ j, t'.value j = (t.add v).2.value j)
variable
  (hOccupied :
    ∀ j, t'.isOccupied j = (t.add v).2.isOccupied j)
variable (hSize : t'.buckets.size = t.buckets.size)
variable
  (hLinked :
    ∀ b, b < t.buckets.size →
      Linked t'.next (t'.bucket b)
        (if b = t.bucketFor v then
          t.chain b ++ [t.firstFree t.minFree]
        else t.chain b))
include hChained hNew hAccounted hValue hOccupied hSize hLinked

/-
  The new cell ends the chain of its bucket. It is the only one
  with its value, and all others are as before.
-/
theorem chainedBy_stored :
    t'.ChainedBy fun b =>
      if b = t.bucketFor v then
        t.chain b ++ [t.firstFree t.minFree]
      else t.chain b := by
  have hValueOld :
      ∀ b, b < t.buckets.size → ∀ i ∈ t.chain b,
        t'.value i = t.value i := by
    intro b hb i hi
    rw [hValue, hChained.value_add v hb hi]
  have hValueNew :
      t'.value (t.firstFree t.minFree) = v := by
    rw [hValue, hChained.accounted.value_add, if_pos rfl]
  have hMem :
      ∀ b i,
        i ∈ (if b = t.bucketFor v then
            t.chain b ++ [t.firstFree t.minFree]
          else t.chain b) →
        i ∈ t.chain b ∨
          i = t.firstFree t.minFree ∧
            b = t.bucketFor v := by
    intro b i hi
    by_cases hBucket : b = t.bucketFor v
    · simpa [hBucket] using hi
    · simp only [hBucket, if_false] at hi
      exact Or.inl hi
  refine
    ⟨hAccounted, hSize ▸ hChained.buckets_pos,
      fun b hb => hLinked b (hSize ▸ hb), ?_, ?_, ?_, ?_⟩ <;>
    intro b hb <;> rw [hSize] at hb
  · by_cases hBucket : b = t.bucketFor v
    · simp only [hBucket, if_true]
      rw [← hBucket]
      exact List.Nodup.append (hChained.nodup b hb)
        (List.nodup_singleton _)
        (by simpa using fun hi =>
          hChained.ne_firstFree hb hi rfl)
    · simpa [hBucket] using hChained.nodup b hb
  · intro i hi
    rw [hOccupied, hChained.accounted.isOccupied_add]
    rcases hMem b i hi with hOld | ⟨rfl, _⟩
    · simp [hChained.occupied b hb i hOld]
    · simp
  · intro i hi
    rw [bucketFor, hSize]
    rcases hMem b i hi with hOld | ⟨rfl, hBucket⟩
    · rw [hValueOld b hb i hOld]
      exact hChained.bucketFor_eq b hb i hOld
    · rw [hValueNew]
      exact hBucket.symm
  · intro i hi j hj hEq
    rcases hMem b i hi with hi | ⟨rfl, hBucket⟩ <;>
      rcases hMem b j hj with hj | ⟨rfl, hBucket'⟩
    · rw [hValueOld b hb i hi, hValueOld b hb j hj] at hEq
      exact hChained.distinct b hb i hi j hj hEq
    · rw [hValueOld b hb i hi, hValueNew] at hEq
      exact absurd hEq (hNew i (hBucket' ▸ hi))
    · rw [hValueOld b hb j hj, hValueNew] at hEq
      exact absurd hEq.symm (hNew j (hBucket ▸ hj))
    · rfl

/-
  A stored cell keeps the chains in order if it is linked behind
  the chain of its bucket and nothing else is.
-/
theorem stored : t.Stored t' v (t.firstFree t.minFree) := by
  have hFree := hChained.accounted.free_firstFree
  have hBy :=
    hChained.chainedBy_stored hNew hAccounted hValue hOccupied
      hSize hLinked
  exact
    { chained := hBy.chained
      ne_zero := hFree.1
      free := hFree.2
      value_eq := fun j => by
        rw [hValue, hChained.accounted.value_add]
      isOccupied_eq := fun j => by
        rw [hOccupied, hChained.accounted.isOccupied_add]
      buckets_size := hSize
      chain_eq := fun b hb => hBy.chain_eq (hSize ▸ hb) }

end Stored

/- A bucket without cells has no first cell. -/
theorem chain_eq_nil
    (hChained : t.Chained)
    {b : Nat}
    (hb : b < t.buckets.size)
    (hEmpty : t.bucket b = 0) :
    t.chain b = [] := by
  have hLinked := hChained.linked b hb
  cases hCells : t.chain b with
  | nil => rfl
  | cons i rest =>
      rw [hCells] at hLinked
      exact absurd (hLinked.1.symm.trans hEmpty) hLinked.2.1

/- A value is stored as the first one of its bucket. -/
theorem stored_first
    (hChained : t.Chained)
    {v : α}
    (hEmpty : t.bucket (t.bucketFor v) = 0) :
    t.Stored
      ((t.add v).2.setBucket (t.bucketFor v)
        (t.firstFree t.minFree))
      v (t.firstFree t.minFree) := by
  have hb := hChained.bucketFor_lt v
  have hAccounted := hChained.accounted
  have hNil := hChained.chain_eq_nil hb hEmpty
  apply hChained.stored
  · simp [hNil]
  · exact (hAccounted.add v).setBucket _ _
  · simp
  · simp
  · simp
  · intro b hBound
    rw [bucket_setBucket _ _ _ _ (by simpa using hb)]
    by_cases hBucket : b = t.bucketFor v
    · simp only [hBucket, if_true, hNil]
      refine ⟨rfl, hAccounted.free_firstFree.1, ?_⟩
      change (t.add v).2.next _ = 0
      rw [hAccounted.next_add, if_pos rfl]
    · simp only [hBucket, if_false, bucket_add]
      exact hChained.linked_add v hBound

/- A new value is stored behind the last one of its bucket. -/
theorem stored_behind
    (hChained : t.Chained)
    {v : α}
    {before : List Nat}
    {last : Nat}
    (hCells : t.chain (t.bucketFor v) = before ++ [last])
    (hNew :
      ∀ i ∈ t.chain (t.bucketFor v), t.value i ≠ v) :
    t.Stored
      ((t.add v).2.setNext last (t.firstFree t.minFree))
      v (t.firstFree t.minFree) := by
  have hb := hChained.bucketFor_lt v
  have hAccounted := hChained.accounted
  have hLast : last ∈ t.chain (t.bucketFor v) := by
    simp [hCells]
  have hExists : last < (t.add v).2.cells.size := by
    have hTaken := hChained.occupied _ hb last hLast
    apply lt_size_of_isOccupied
    rw [hAccounted.isOccupied_add]
    simp [hTaken]
  have hNext (j : Nat) :=
    (t.add v).2.next_setNext last
      (t.firstFree t.minFree) j hExists
  apply hChained.stored hNew
  · exact (hAccounted.add v).setNext _ _
  · simp
  · simp
  · simp
  · intro b hBound
    rw [bucket_setNext, bucket_add]
    by_cases hBucket : b = t.bucketFor v
    · subst hBucket
      have hNodup := hChained.nodup _ hb
      have hBehind := hChained.linked_add v hb
      rw [hCells] at hNodup hBehind
      rw [if_pos rfl, hCells]
      apply hBehind.append
      · intro j hj
        rw [hNext, if_neg]
        rintro rfl
        exact (List.nodup_append.mp hNodup).2.2
          j hj j (by simp) rfl
      · rw [hNext, if_pos rfl]
      · exact hAccounted.free_firstFree.1
      · rw [hNext,
          if_neg (hChained.ne_firstFree hb hLast).symm,
          hAccounted.next_add, if_pos rfl]
    · rw [if_neg hBucket]
      apply (hChained.linked_add v hBound).congr
      intro i hi
      rw [hNext, if_neg]
      rintro rfl
      exact hBucket
        ((hChained.bucketFor_eq b hBound i hi).symm.trans
          (hChained.bucketFor_eq _ hb i hLast))

/-
  Putting a value either finds its cell and changes nothing, or
  stores it in a free cell.
-/
theorem put_cases
    [DecidableEq α]
    (hChained : t.Chained)
    (v : α) :
    (∃ i, t.IsChained i ∧ t.value i = v ∧
      t.put v = (i, t)) ∨
    ((∀ i, t.IsChained i → t.value i ≠ v) ∧
      t.Stored (t.put v).2 v (t.put v).1) := by
  have hb := hChained.bucketFor_lt v
  have hElsewhere :
      (∀ i ∈ t.chain (t.bucketFor v), t.value i ≠ v) →
        ∀ i, t.IsChained i → t.value i ≠ v := by
    intro hNew i hi hValue
    exact hNew i (hValue ▸ hi) hValue
  by_cases hEmpty : t.bucket (t.bucketFor v) = 0
  · right
    have hPut :
        t.put v =
          (t.firstFree t.minFree,
            (t.add v).2.setBucket (t.bucketFor v)
              (t.firstFree t.minFree)) := by
      simp [put, hEmpty]
    rw [hPut]
    refine ⟨hElsewhere ?_, hChained.stored_first hEmpty⟩
    simp [hChained.chain_eq_nil hb hEmpty]
  · rcases walk_cases v (hChained.linked _ hb) hEmpty
        (hChained.length_le hb) with
      ⟨i, hi, hValue, hWalk⟩ |
        ⟨before, last, hCells, hNew, hWalk⟩
    · left
      refine ⟨i, ?_, hValue, ?_⟩
      · rw [IsChained, hValue]
        exact hi
      · simp [put, hEmpty, hWalk]
    · right
      have hPut :
          t.put v =
            (t.firstFree t.minFree,
              (t.add v).2.setNext last
                (t.firstFree t.minFree)) := by
        simp [put, hEmpty, hWalk]
      rw [hPut]
      exact
        ⟨hElsewhere hNew, hChained.stored_behind hCells hNew⟩

end Chained

end Table

end Diagram

end Variability
