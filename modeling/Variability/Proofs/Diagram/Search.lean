import Variability.Proofs.Diagram.Chain

/-
  Searching a chain without a bound.

  Putting a value searches the chain of its bucket cell by cell.
  In a table whose chains are in order the search ends, at the
  cell with the value or at the last one, and comes to cells that
  exist only. So it makes no difference that walks are bounded.

  Main declarations:
    * `Table.Ends`
    * `Table.Puts`
    * `Table.ChainedBy.puts_iff`
-/

namespace Variability

namespace Diagram

namespace Table

variable {α : Type}

------------------------------------------------------------
-- Cells That Exist
------------------------------------------------------------

/- An occupied cell exists and may be dropped. -/
theorem Accounted.canDrop
    {t : Table α}
    (hAccounted : t.Accounted)
    {i : Nat}
    (hi : i ≠ 0)
    (hOccupied : t.isOccupied i = true) :
    (t.cell? i).isSome = true ∧ t.canDrop i = true := by
  have hCell : (t.cell? i).isSome = true := by
    simpa [cell?, hi] using lt_size_of_isOccupied hOccupied
  have hCount : 0 < t.count := by
    rw [hAccounted.count_eq]
    exact Finset.card_pos.mpr
      ⟨i, (t.mem_occupiedCells_iff i).mpr ⟨hi, hOccupied⟩⟩
  exact ⟨hCell, by simp [Table.canDrop, hCell, hCount]⟩

variable [Inhabited α]

------------------------------------------------------------
-- Searching without a Bound
------------------------------------------------------------

variable {t : Table α}
variable {v : α}
variable {i : Nat}

/-
  Where the search for a value from a cell on ends, however many
  cells it goes over. Every one of them exists.
-/
inductive Ends (t : Table α) (v : α) : Nat → Found → Prop where
  | here {i : Nat}
      (hCell : (t.cell? i).isSome = true)
      (hValue : t.value i = v) :
      Ends t v i (.at i)
  | last {i : Nat}
      (hCell : (t.cell? i).isSome = true)
      (hValue : t.value i ≠ v)
      (hNext : t.next i = 0) :
      Ends t v i (.after i)
  | onward {i : Nat} {found : Found}
      (hCell : (t.cell? i).isSome = true)
      (hValue : t.value i ≠ v)
      (hNext : t.next i ≠ 0)
      (hRest : Ends t v (t.next i) found) :
      Ends t v i found

/- A search ends in one way. -/
theorem Ends.unique
    {found found' : Found}
    (hEnds : Ends t v i found)
    (hEnds' : Ends t v i found') :
    found = found' := by
  induction hEnds with
  | here _ hValue =>
      cases hEnds' with
      | here => rfl
      | last _ hOther => exact absurd hValue hOther
      | onward _ hOther => exact absurd hValue hOther
  | last _ hValue hNext =>
      cases hEnds' with
      | here _ hOther => exact absurd hOther hValue
      | last => rfl
      | onward _ _ hOther => exact absurd hNext hOther
  | onward _ hValue hNext _ ih =>
      cases hEnds' with
      | here _ hOther => exact absurd hOther hValue
      | last _ _ hOther => exact absurd hOther hNext
      | onward _ _ _ hRest => exact ih hRest

/- The search along linked cells ends where the bounded walk does. -/
theorem ends_walk
    [DecidableEq α]
    {first steps : Nat}
    {cells : List Nat}
    (v : α)
    (hLinked : Linked t.next first cells)
    (hFirst : first ≠ 0)
    (hExist : ∀ i ∈ cells, (t.cell? i).isSome = true)
    (hSteps : cells.length ≤ steps) :
    Ends t v first (t.walk v steps first) := by
  induction cells generalizing first steps with
  | nil => exact absurd hLinked hFirst
  | cons i rest ih =>
      rcases hLinked with ⟨rfl, _, hRest⟩
      have hCell := hExist first List.mem_cons_self
      cases steps with
      | zero => simp at hSteps
      | succ steps =>
          rw [walk]
          by_cases hValue : t.value first = v
          · rw [if_pos hValue]
            exact .here hCell hValue
          · rw [if_neg hValue]
            by_cases hNext : t.next first = 0
            · rw [if_pos hNext]
              exact .last hCell hValue hNext
            · rw [if_neg hNext]
              apply Ends.onward hCell hValue hNext
              apply ih hRest hNext
              · exact fun j hj =>
                  hExist j (List.mem_cons_of_mem first hj)
              · simpa using hSteps

variable [Spread α]

/- What putting a value makes if the search for it has no bound. -/
inductive Puts (t : Table α) (v : α) : Nat × Table α → Prop where
  | first
      (hEmpty : t.bucket (t.bucketFor v) = 0) :
      Puts t v
        ((t.add v).1,
          (t.add v).2.setBucket (t.bucketFor v) (t.add v).1)
  | found {i : Nat}
      (hSome : t.bucket (t.bucketFor v) ≠ 0)
      (hEnds : Ends t v (t.bucket (t.bucketFor v)) (.at i)) :
      Puts t v (i, t)
  | behind {j : Nat}
      (hSome : t.bucket (t.bucketFor v) ≠ 0)
      (hEnds : Ends t v (t.bucket (t.bucketFor v)) (.after j)) :
      Puts t v
        ((t.add v).1, (t.add v).2.setNext j (t.add v).1)

theorem Puts.unique
    {made made' : Nat × Table α}
    (hPuts : t.Puts v made)
    (hPuts' : t.Puts v made') :
    made = made' := by
  cases hPuts with
  | first hEmpty =>
      cases hPuts' with
      | first => rfl
      | found hSome => exact absurd hEmpty hSome
      | behind hSome => exact absurd hEmpty hSome
  | found hSome hEnds =>
      cases hPuts' with
      | first hEmpty => exact absurd hEmpty hSome
      | found _ hEnds' => cases hEnds.unique hEnds'; rfl
      | behind _ hEnds' => cases hEnds.unique hEnds'
  | behind hSome hEnds =>
      cases hPuts' with
      | first hEmpty => exact absurd hEmpty hSome
      | found _ hEnds' => cases hEnds.unique hEnds'
      | behind _ hEnds' => cases hEnds.unique hEnds'; rfl

variable {chains : Nat → List Nat}

namespace ChainedBy

/- The cells of a chain exist. -/
theorem isSome_cell?
    (hChained : t.ChainedBy chains)
    {b i : Nat}
    (hb : b < t.buckets.size)
    (hi : i ∈ chains b) :
    (t.cell? i).isSome = true :=
  (hChained.accounted.canDrop
    ((hChained.linked b hb).ne_zero hi)
    (hChained.occupied b hb i hi)).1

/- Putting a value ends, with no other result than the bounded one. -/
theorem puts_iff
    [DecidableEq α]
    (hChained : t.ChainedBy chains)
    (v : α)
    (made : Nat × Table α) :
    t.Puts v made ↔ made = t.put v := by
  have hb : t.bucketFor v < t.buckets.size :=
    Nat.mod_lt _ hChained.buckets_pos
  have hPuts : t.Puts v (t.put v) := by
    by_cases hEmpty : t.bucket (t.bucketFor v) = 0
    · have hFirst := Puts.first hEmpty
      simpa [put, hEmpty] using hFirst
    · have hEnds :=
        ends_walk v (hChained.linked _ hb) hEmpty
          (fun i hi => hChained.isSome_cell? hb hi)
          (hChained.length_le hb)
      cases hWalk :
          t.walk v t.cells.size
            (t.bucket (t.bucketFor v)) with
      | «at» i =>
          rw [hWalk] at hEnds
          simpa [put, hEmpty, hWalk] using
            Puts.found hEmpty hEnds
      | after j =>
          rw [hWalk] at hEnds
          simpa [put, hEmpty, hWalk] using
            Puts.behind hEmpty hEnds
  refine ⟨fun hMade => hMade.unique hPuts, ?_⟩
  rintro rfl
  exact hPuts

end ChainedBy

end Table

end Diagram

end Variability
