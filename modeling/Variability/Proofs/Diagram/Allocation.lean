import Mathlib.Data.Finset.Card
import Mathlib.Data.Finset.Range
import Variability.Diagram.Table

/-
  Which cells of a table are occupied.

  A table keeps account of its cells: nothing is occupied
  behind the last cell that was handed out, everything is
  occupied below the mark for free cells, and the count is the
  number of occupied cells. Storing and dropping keep these
  accounts, so a new value always takes the least free cell.

  Main declarations:
    * `Table.Accounted`
    * `Table.Accounted.free_firstFree`
    * `Table.Accounted.add`
    * `Table.Accounted.drop`
-/

namespace Variability

namespace Diagram

namespace Table

variable {α : Type}

------------------------------------------------------------
-- Links and Buckets after a Change
------------------------------------------------------------

/- Only the given cell gets another successor. -/
theorem next_setNext
    (t : Table α)
    (i n j : Nat)
    (hi : i < t.cells.size) :
    (t.setNext i n).next j =
      if j = i then n else t.next j := by
  simp only [next, setNext, Array.getElem?_modify]
  by_cases hij : i = j
  · subst hij
    simp [Array.getElem?_eq_getElem hi]
  · simp [hij, Ne.symm hij]

@[simp] theorem isOccupied_setNext
    (t : Table α)
    (i n j : Nat) :
    (t.setNext i n).isOccupied j = t.isOccupied j := by
  simp only [isOccupied, setNext, Array.getElem?_modify]
  by_cases hij : i = j
  · cases t.cells[j]? <;> simp [hij]
  · simp [hij]

@[simp] theorem bucket_setNext
    (t : Table α)
    (i n b : Nat) :
    (t.setNext i n).bucket b = t.bucket b := rfl

@[simp] theorem buckets_setNext
    (t : Table α)
    (i n : Nat) :
    (t.setNext i n).buckets = t.buckets := rfl

@[simp] theorem last_setNext
    (t : Table α)
    (i n : Nat) :
    (t.setNext i n).last = t.last := rfl

@[simp] theorem minFree_setNext
    (t : Table α)
    (i n : Nat) :
    (t.setNext i n).minFree = t.minFree := rfl

@[simp] theorem size_setNext
    (t : Table α)
    (i n : Nat) :
    (t.setNext i n).cells.size = t.cells.size := by
  simp [setNext]

/- Only the given bucket gets another first cell. -/
theorem bucket_setBucket
    (t : Table α)
    (b i b' : Nat)
    (hb : b < t.buckets.size) :
    (t.setBucket b i).bucket b' =
      if b' = b then i else t.bucket b' := by
  simp only [bucket, setBucket, Array.getD_eq_getD_getElem?,
    Array.getElem?_setIfInBounds]
  by_cases hbb : b = b'
  · subst hbb
    simp [hb]
  · simp [hbb, Ne.symm hbb]

@[simp] theorem next_setBucket
    (t : Table α)
    (b i j : Nat) :
    (t.setBucket b i).next j = t.next j := rfl

@[simp] theorem isOccupied_setBucket
    (t : Table α)
    (b i j : Nat) :
    (t.setBucket b i).isOccupied j = t.isOccupied j := rfl

@[simp] theorem cells_setBucket
    (t : Table α)
    (b i : Nat) :
    (t.setBucket b i).cells = t.cells := rfl

@[simp] theorem size_buckets_setBucket
    (t : Table α)
    (b i : Nat) :
    (t.setBucket b i).buckets.size = t.buckets.size := by
  simp [setBucket]

/- Dropping a cell frees no other one. -/
theorem isOccupied_drop
    (t : Table α)
    (i j : Nat) :
    (t.drop i).isOccupied j =
      (t.isOccupied j && decide (j ≠ i)) := by
  simp only [isOccupied, drop, Array.getElem?_modify]
  by_cases hij : i = j
  · cases t.cells[j]? <;> simp [hij]
  · simp [hij, Ne.symm hij]

@[simp] theorem next_drop
    (t : Table α)
    (i j : Nat) :
    (t.drop i).next j = t.next j := by
  simp only [next, drop, Array.getElem?_modify]
  by_cases hij : i = j
  · cases t.cells[j]? <;> simp [hij]
  · simp [hij]

@[simp] theorem bucket_drop
    (t : Table α)
    (i b : Nat) :
    (t.drop i).bucket b = t.bucket b := rfl

@[simp] theorem buckets_drop
    (t : Table α)
    (i : Nat) :
    (t.drop i).buckets = t.buckets := rfl

@[simp] theorem last_drop
    (t : Table α)
    (i : Nat) :
    (t.drop i).last = t.last := rfl

@[simp] theorem size_drop
    (t : Table α)
    (i : Nat) :
    (t.drop i).cells.size = t.cells.size := by
  simp [drop]

------------------------------------------------------------
-- The Least Free Cell
------------------------------------------------------------

/-
  The search for a free cell passes over occupied cells only,
  and ends at a free one or right behind the last cell.
-/
theorem firstFree_passes
    (t : Table α)
    {i : Nat}
    (hi : i ≤ t.last + 1) :
    i ≤ t.firstFree i ∧
      t.firstFree i ≤ t.last + 1 ∧
      (∀ j, i ≤ j → j < t.firstFree i →
        t.isOccupied j = true) ∧
      (t.firstFree i ≤ t.last →
        t.isOccupied (t.firstFree i) = false) := by
  induction i using firstFree.induct t with
  | case1 i hLast hOccupied ih =>
      rcases ih (by omega) with
        ⟨hLower, hUpper, hPassed, hFree⟩
      rw [firstFree, if_pos hLast, if_pos hOccupied]
      refine ⟨by omega, hUpper, ?_, hFree⟩
      intro j hij hj
      by_cases hEq : j = i
      · exact hEq ▸ hOccupied
      · exact hPassed j (by omega) hj
  | case2 i hLast hFree =>
      rw [firstFree, if_pos hLast, if_neg hFree]
      refine ⟨le_refl i, by omega, ?_, ?_⟩
      · intro j hij hj
        omega
      · intro _
        simpa using hFree
  | case3 i hLast =>
      rw [firstFree, if_neg hLast]
      refine ⟨hi, le_refl _, ?_, ?_⟩
      · intro j hij hj
        omega
      · intro hBound
        omega

/- An occupied cell exists. -/
theorem lt_size_of_isOccupied
    {t : Table α}
    {i : Nat}
    (hi : t.isOccupied i = true) :
    i < t.cells.size := by
  by_contra hBound
  have hNone : t.cells[i]? = none := by
    simpa using hBound
  simp [isOccupied, hNone] at hi

/- The occupied cells, the sentinel apart. -/
def occupiedCells (t : Table α) : Finset Nat :=
  (Finset.range t.cells.size).filter
    (fun i => i ≠ 0 ∧ t.isOccupied i = true)

@[simp] theorem mem_occupiedCells_iff
    (t : Table α)
    (i : Nat) :
    i ∈ t.occupiedCells ↔
      i ≠ 0 ∧ t.isOccupied i = true := by
  simp only [occupiedCells, Finset.mem_filter,
    Finset.mem_range, and_iff_right_iff_imp]
  exact fun h => lt_size_of_isOccupied h.2

/- A table that keeps account of its occupied cells. -/
structure Accounted (t : Table α) : Prop where
  last_lt : t.last < t.cells.size
  le_last : ∀ i, t.isOccupied i = true → i ≤ t.last
  minFree_pos : 0 < t.minFree
  below_minFree :
    ∀ i, i < t.minFree → t.isOccupied i = true
  count_eq : t.count = t.occupiedCells.card

namespace Accounted

variable {t : Table α}

/- The mark for free cells is at most right behind the last cell. -/
theorem minFree_le
    (hAccounted : t.Accounted) :
    t.minFree ≤ t.last + 1 := by
  by_contra hMark
  have hOccupied :=
    hAccounted.below_minFree (t.last + 1) (by omega)
  have hLast := hAccounted.le_last _ hOccupied
  omega

/- The cell that a new value takes is free and is not the sentinel. -/
theorem free_firstFree
    (hAccounted : t.Accounted) :
    t.firstFree t.minFree ≠ 0 ∧
      t.isOccupied (t.firstFree t.minFree) = false := by
  rcases t.firstFree_passes hAccounted.minFree_le with
    ⟨hLower, _, _, hFree⟩
  have hPos := hAccounted.minFree_pos
  refine ⟨by omega, ?_⟩
  by_cases hLast : t.firstFree t.minFree ≤ t.last
  · exact hFree hLast
  · by_contra hOccupied
    exact hLast
      (hAccounted.le_last _ (by simpa using hOccupied))

/- No free cell is less than the one that a new value takes. -/
theorem isOccupied_of_lt_firstFree
    (hAccounted : t.Accounted)
    {i : Nat}
    (hi : i < t.firstFree t.minFree) :
    t.isOccupied i = true := by
  rcases t.firstFree_passes hAccounted.minFree_le with
    ⟨_, _, hPassed, _⟩
  by_cases hMark : i < t.minFree
  · exact hAccounted.below_minFree i hMark
  · exact hPassed i (by omega) hi

theorem firstFree_le
    (hAccounted : t.Accounted) :
    t.firstFree t.minFree ≤ t.last + 1 :=
  (t.firstFree_passes hAccounted.minFree_le).2.1

/- Dropping an occupied cell keeps account. -/
theorem drop
    (hAccounted : t.Accounted)
    {i : Nat}
    (hi : i ≠ 0)
    (hOccupied : t.isOccupied i = true) :
    (t.drop i).Accounted := by
  have hCells :
      (t.drop i).occupiedCells = t.occupiedCells.erase i := by
    ext j
    simp only [mem_occupiedCells_iff, isOccupied_drop,
      Finset.mem_erase, Bool.and_eq_true,
      decide_eq_true_eq]
    tauto
  constructor
  · simpa using hAccounted.last_lt
  · intro j hj
    rw [isOccupied_drop] at hj
    exact hAccounted.le_last j (by simp_all)
  · exact Nat.lt_min.mpr
      ⟨hAccounted.minFree_pos, Nat.pos_of_ne_zero hi⟩
  · intro j hj
    have hBounds : j < t.minFree ∧ j < i :=
      Nat.lt_min.mp hj
    rw [isOccupied_drop]
    simp only [Bool.and_eq_true, decide_eq_true_eq]
    exact
      ⟨hAccounted.below_minFree j hBounds.1, by omega⟩
  · rw [hCells, Finset.card_erase_of_mem (by simp_all),
      ← hAccounted.count_eq]
    rfl

/- Only links and buckets change: the accounts stay. -/
theorem setNext
    (hAccounted : t.Accounted)
    (i n : Nat) :
    (t.setNext i n).Accounted := by
  constructor
  · simpa using hAccounted.last_lt
  · simpa using hAccounted.le_last
  · exact hAccounted.minFree_pos
  · simpa using hAccounted.below_minFree
  · rw [show (t.setNext i n).occupiedCells =
      t.occupiedCells by ext j; simp]
    exact hAccounted.count_eq

theorem setBucket
    (hAccounted : t.Accounted)
    (b i : Nat) :
    (t.setBucket b i).Accounted :=
  ⟨hAccounted.last_lt, hAccounted.le_last,
    hAccounted.minFree_pos, hAccounted.below_minFree,
    hAccounted.count_eq⟩

end Accounted

------------------------------------------------------------
-- Values after a Change
------------------------------------------------------------

variable [Inhabited α]

@[simp] theorem value_setNext
    (t : Table α)
    (i n j : Nat) :
    (t.setNext i n).value j = t.value j := by
  simp only [value, setNext, Array.getElem?_modify]
  by_cases hij : i = j
  · cases t.cells[j]? <;> simp [hij]
  · simp [hij]

@[simp] theorem value_setBucket
    (t : Table α)
    (b i j : Nat) :
    (t.setBucket b i).value j = t.value j := rfl

@[simp] theorem value_drop
    (t : Table α)
    (i j : Nat) :
    (t.drop i).value j = t.value j := by
  simp only [value, drop, Array.getElem?_modify]
  by_cases hij : i = j
  · cases t.cells[j]? <;> simp [hij]
  · simp [hij]

------------------------------------------------------------
-- Storing
------------------------------------------------------------

/- Growing adds cells that were never used and nothing else. -/
theorem getElem?_grow
    (t : Table α)
    (i j : Nat) :
    (t.grow i).cells[j]? = t.cells[j]? ∨
      t.cells[j]? = none ∧
        (t.grow i).cells[j]? =
          some { value := default } := by
  unfold grow
  split
  · exact Or.inl rfl
  · by_cases hj : j < t.cells.size
    · exact Or.inl (Array.getElem?_append_left hj)
    · by_cases hBound : j - t.cells.size < t.cells.size
      · refine Or.inr ⟨by simpa using hj, ?_⟩
        rw [Array.getElem?_append_right (by omega)]
        simp [hBound]
      · left
        rw [Array.getElem?_append_right (by omega)]
        simp [hBound, hj]

/- After growing there is a cell right behind the last one. -/
theorem lt_size_grow
    (t : Table α)
    {i : Nat}
    (hPos : 0 < t.cells.size)
    (hi : i ≤ t.cells.size) :
    i < (t.grow i).cells.size := by
  unfold grow
  split
  · assumption
  · simp
    omega

theorem size_le_size_grow
    (t : Table α)
    (i : Nat) :
    t.cells.size ≤ (t.grow i).cells.size := by
  unfold grow
  split <;> simp

/- The cell that a new value takes. -/
@[simp] theorem fst_add
    (t : Table α)
    (v : α) :
    (t.add v).1 = t.firstFree t.minFree := rfl

@[simp] theorem buckets_add
    (t : Table α)
    (v : α) :
    (t.add v).2.buckets = t.buckets := by
  simp only [add, grow]
  split <;> rfl

@[simp] theorem bucket_add
    (t : Table α)
    (v : α)
    (b : Nat) :
    (t.add v).2.bucket b = t.bucket b := by
  simp [bucket]

/- Storing writes one cell of the grown table. -/
theorem getElem?_add
    (t : Table α)
    (v : α)
    (j : Nat)
    (hRoom :
      t.firstFree t.minFree <
        (t.grow (t.firstFree t.minFree)).cells.size) :
    (t.add v).2.cells[j]? =
      if j = t.firstFree t.minFree then
        some { value := v, occupied := true }
      else
        (t.grow (t.firstFree t.minFree)).cells[j]? := by
  simp only [add, Array.getElem?_setIfInBounds]
  by_cases hj : t.firstFree t.minFree = j
  · subst hj
    simp [hRoom]
  · simp [hj, Ne.symm hj]

namespace Accounted

variable {t : Table α}

/- There is room for the cell that a new value takes. -/
theorem room
    (hAccounted : t.Accounted) :
    t.firstFree t.minFree <
      (t.grow (t.firstFree t.minFree)).cells.size := by
  have hLast := hAccounted.last_lt
  have hFree := hAccounted.firstFree_le
  exact t.lt_size_grow (by omega) (by omega)

theorem value_add
    (hAccounted : t.Accounted)
    (v : α)
    (j : Nat) :
    (t.add v).2.value j =
      if j = t.firstFree t.minFree then v
      else t.value j := by
  simp only [value, t.getElem?_add v j hAccounted.room]
  by_cases hj : j = t.firstFree t.minFree
  · simp [hj]
  · rcases t.getElem?_grow (t.firstFree t.minFree) j with
      hCell | ⟨hNone, hCell⟩
    · simp [hj, hCell]
    · simp [hj, hCell, hNone]

theorem next_add
    (hAccounted : t.Accounted)
    (v : α)
    (j : Nat) :
    (t.add v).2.next j =
      if j = t.firstFree t.minFree then 0
      else t.next j := by
  simp only [next, t.getElem?_add v j hAccounted.room]
  by_cases hj : j = t.firstFree t.minFree
  · simp [hj]
  · rcases t.getElem?_grow (t.firstFree t.minFree) j with
      hCell | ⟨hNone, hCell⟩
    · simp [hj, hCell]
    · simp [hj, hCell, hNone]

theorem isOccupied_add
    (hAccounted : t.Accounted)
    (v : α)
    (j : Nat) :
    (t.add v).2.isOccupied j =
      (decide (j = t.firstFree t.minFree) ||
        t.isOccupied j) := by
  simp only [isOccupied,
    t.getElem?_add v j hAccounted.room]
  by_cases hj : j = t.firstFree t.minFree
  · simp [hj]
  · rcases t.getElem?_grow (t.firstFree t.minFree) j with
      hCell | ⟨hNone, hCell⟩
    · simp [hj, hCell]
    · simp [hj, hCell, hNone]

theorem size_add
    (t : Table α)
    (v : α) :
    (t.add v).2.cells.size =
      (t.grow (t.firstFree t.minFree)).cells.size := by
  simp [Table.add]

/- Storing a value keeps account. -/
theorem add
    (hAccounted : t.Accounted)
    (v : α) :
    (t.add v).2.Accounted := by
  have hRoom := hAccounted.room
  have hGrow :=
    t.size_le_size_grow (t.firstFree t.minFree)
  have hFree := hAccounted.free_firstFree
  have hSize := size_add t v
  have hLast :
      (t.add v).2.last =
        max t.last (t.firstFree t.minFree) := by
    simp only [Table.add, grow]
    split <;> rfl
  have hCount : (t.add v).2.count = t.count + 1 := by
    simp only [Table.add, grow]
    split <;> rfl
  have hCells :
      (t.add v).2.occupiedCells =
        insert (t.firstFree t.minFree)
          t.occupiedCells := by
    ext j
    simp only [mem_occupiedCells_iff,
      hAccounted.isOccupied_add, Finset.mem_insert,
      Bool.or_eq_true, decide_eq_true_eq]
    by_cases hj : j = t.firstFree t.minFree
    · simp [hj, hFree.1]
    · simp [hj]
  refine ⟨?_, ?_, Nat.succ_pos _, ?_, ?_⟩
  · have hOld := hAccounted.last_lt
    omega
  · intro j hj
    rw [hAccounted.isOccupied_add] at hj
    simp only [Bool.or_eq_true, decide_eq_true_eq] at hj
    rcases hj with hNew | hOld
    · omega
    · have hBound := hAccounted.le_last j hOld
      omega
  · intro j hj
    have hj : j ≤ t.firstFree t.minFree :=
      Nat.lt_succ_iff.mp hj
    rw [hAccounted.isOccupied_add]
    simp only [Bool.or_eq_true, decide_eq_true_eq]
    by_cases hEq : j = t.firstFree t.minFree
    · exact Or.inl hEq
    · exact Or.inr
        (hAccounted.isOccupied_of_lt_firstFree (by omega))
  · rw [hCells, hCount, hAccounted.count_eq,
      Finset.card_insert_of_notMem (by simp [hFree.2])]

/- A table without values keeps account. -/
theorem empty
    (bits : Nat) :
    (Table.empty bits : Table α).Accounted := by
  have hOccupied (i : Nat) :
      (Table.empty bits : Table α).isOccupied i =
        decide (i = 0) := by
    simp only [Table.empty, isOccupied,
      Array.getElem?_setIfInBounds,
      Array.getElem?_replicate]
    have hPos : 0 < 2 ^ bits := Nat.two_pow_pos bits
    by_cases hi : i = 0
    · simp [hi, hPos]
    · by_cases hBound : i < 2 ^ bits <;>
        simp [hi, Ne.symm hi, hBound]
  refine ⟨?_, ?_, Nat.one_pos, ?_, ?_⟩
  · rw [Table.empty, Array.size_setIfInBounds,
      Array.size_replicate]
    exact Nat.two_pow_pos bits
  · intro i hi
    rw [hOccupied] at hi
    simp_all
  · intro i hi
    rw [hOccupied]
    simpa using Nat.lt_one_iff.mp hi
  · have hCells :
        (Table.empty bits : Table α).occupiedCells = ∅ := by
      ext i
      simp [hOccupied]
    rw [hCells]
    rfl

end Accounted

end Table

end Diagram

end Variability
