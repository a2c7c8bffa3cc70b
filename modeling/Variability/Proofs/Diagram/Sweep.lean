import Variability.Proofs.Diagram.Chain

/-
  Sweeping the chains of a table.

  Sweeping a bucket drops the cells of its chain that are not
  alive and links the others in their order. The other chains,
  the values, and the cells outside all chains stay.

  Main declarations:
    * `Table.Swept`
    * `Table.Chained.sweep`
    * `Table.Chained.sweepAll`
-/

namespace Variability

namespace Diagram

namespace Table

variable {α : Type}

------------------------------------------------------------
-- Dropping and Relinking
------------------------------------------------------------

/- Dropping some cells changes who is occupied and nothing else. -/
theorem drops_eq
    [Inhabited α]
    (t : Table α)
    (dead : List Nat) :
    (∀ j, (dead.foldl drop t).value j = t.value j) ∧
      (∀ j, (dead.foldl drop t).next j = t.next j) ∧
      (dead.foldl drop t).buckets = t.buckets ∧
      (dead.foldl drop t).cells.size = t.cells.size ∧
      ∀ j, (dead.foldl drop t).isOccupied j =
        (t.isOccupied j && decide (j ∉ dead)) := by
  induction dead generalizing t with
  | nil => simp
  | cons i dead ih =>
      rcases ih (t.drop i) with
        ⟨hValue, hNext, hBuckets, hSize, hOccupied⟩
      refine ⟨?_, ?_, ?_, ?_, ?_⟩
      · simpa using hValue
      · simpa using hNext
      · simpa using hBuckets
      · simpa using hSize
      · intro j
        rw [List.foldl_cons, hOccupied, isOccupied_drop]
        by_cases hj : j = i <;> simp [hj]

/- Dropping occupied cells one after the other keeps account. -/
theorem Accounted.drops
    {t : Table α}
    (hAccounted : t.Accounted)
    (dead : List Nat)
    (hNodup : dead.Nodup)
    (hDead :
      ∀ i ∈ dead, i ≠ 0 ∧ t.isOccupied i = true) :
    (dead.foldl Table.drop t).Accounted := by
  induction dead generalizing t with
  | nil => exact hAccounted
  | cons i dead ih =>
      rcases List.nodup_cons.mp hNodup with ⟨hi, hRest⟩
      rcases hDead i (by simp) with ⟨hZero, hOccupied⟩
      apply ih (hAccounted.drop hZero hOccupied) hRest
      intro j hj
      rcases hDead j (by simp [hj]) with ⟨hj0, hjOcc⟩
      refine ⟨hj0, ?_⟩
      rw [isOccupied_drop, hjOcc]
      have hji : j ≠ i := by
        rintro rfl
        exact hi hj
      simp [hji]

/- Relinking writes successors and nothing else. -/
theorem relink_eq
    [Inhabited α]
    (t : Table α)
    (kept : List Nat) :
    (∀ j, (t.relink kept).value j = t.value j) ∧
      (∀ j, (t.relink kept).isOccupied j =
        t.isOccupied j) ∧
      (t.relink kept).buckets = t.buckets ∧
      (t.Accounted → (t.relink kept).Accounted) := by
  induction t, kept using relink.induct with
  | case1 t => simp [relink]
  | case2 t i =>
      simp only [relink]
      exact
        ⟨by simp, by simp, rfl, fun h => h.setNext i 0⟩
  | case3 t i j rest ih =>
      rcases ih with
        ⟨hValue, hOccupied, hBuckets, hAccounted⟩
      simp only [relink]
      exact
        ⟨by simpa using hValue, by simpa using hOccupied,
          hBuckets, fun h => hAccounted (h.setNext i j)⟩

/- Only relinked cells get other successors. -/
theorem next_relink_of_not_mem
    (t : Table α)
    {kept : List Nat}
    {j : Nat}
    (hBound : ∀ i ∈ kept, i < t.cells.size)
    (hj : j ∉ kept) :
    (t.relink kept).next j = t.next j := by
  induction t, kept using relink.induct with
  | case1 t => rfl
  | case2 t i =>
      simp only [relink]
      rw [next_setNext _ _ _ _ (hBound i (by simp)),
        if_neg (by simpa using hj)]
  | case3 t i k rest ih =>
      simp only [relink]
      rw [ih (by
          intro l hl
          simpa using hBound l (by simp [hl]))
          (fun hMem => hj (by simp [hMem])),
        next_setNext _ _ _ _ (hBound i (by simp)),
        if_neg (fun hEq => hj (by simp [hEq]))]

/- Relinked cells follow each other in the given order. -/
theorem linked_relink
    (t : Table α)
    {kept : List Nat}
    (hNodup : kept.Nodup)
    (hKept : ∀ i ∈ kept, i ≠ 0 ∧ i < t.cells.size) :
    Linked (t.relink kept).next (kept.headD 0) kept := by
  induction t, kept using relink.induct with
  | case1 t => rfl
  | case2 t i =>
      rcases hKept i (by simp) with ⟨hi, hBound⟩
      refine ⟨rfl, hi, ?_⟩
      change (t.setNext i 0).next i = 0
      rw [next_setNext _ _ _ _ hBound, if_pos rfl]
  | case3 t i j rest ih =>
      rcases hKept i (by simp) with ⟨hi, hBound⟩
      rcases List.nodup_cons.mp hNodup with ⟨hNew, hRest⟩
      have hTail :
          ∀ k ∈ j :: rest,
            k ≠ 0 ∧ k < (t.setNext i j).cells.size := by
        intro k hk
        simpa using hKept k (by simp_all)
      have hNext :
          ((t.setNext i j).relink (j :: rest)).next i =
            j := by
        rw [next_relink_of_not_mem _
            (fun k hk => (hTail k hk).2) hNew,
          next_setNext _ _ _ _ hBound, if_pos rfl]
      refine ⟨rfl, hi, ?_⟩
      rw [relink, hNext]
      exact ih hRest hTail

------------------------------------------------------------
-- One Bucket
------------------------------------------------------------

section OneBucket

variable (t : Table α)
variable (alive : Nat → Bool)
variable (b : Nat)

/- The cells of a bucket that are left. -/
def kept : List Nat :=
  (t.chain b).filter alive

/- The table after the other cells of a bucket are dropped. -/
def dropped : Table α :=
  ((t.chain b).filter (!alive ·)).foldl drop t

theorem sweep_eq :
    t.sweep alive b =
      ((t.dropped alive b).setBucket b
        ((t.kept alive b).headD 0)).relink
        (t.kept alive b) := by
  simp [Table.sweep, List.partition_eq_filter_filter,
    kept, dropped, Function.comp_def]

variable [Inhabited α]

theorem size_cells_dropped :
    (t.dropped alive b).cells.size = t.cells.size :=
  (t.drops_eq _).2.2.2.1

theorem buckets_dropped :
    (t.dropped alive b).buckets = t.buckets :=
  (t.drops_eq _).2.2.1

theorem value_sweep (i : Nat) :
    (t.sweep alive b).value i = t.value i := by
  rw [sweep_eq, (relink_eq _ _).1, value_setBucket, dropped,
    (t.drops_eq _).1]

theorem size_buckets_sweep :
    (t.sweep alive b).buckets.size = t.buckets.size := by
  rw [sweep_eq, (relink_eq _ _).2.2.1,
    size_buckets_setBucket, buckets_dropped]

/- A cell of the bucket stays occupied if it is alive. -/
theorem isOccupied_sweep_iff (i : Nat) :
    (t.sweep alive b).isOccupied i = true ↔
      t.isOccupied i = true ∧
        (i ∈ t.chain b → alive i = true) := by
  rw [sweep_eq, (relink_eq _ _).2.1, isOccupied_setBucket,
    dropped, (t.drops_eq _).2.2.2.2]
  simp only [Bool.and_eq_true, decide_eq_true_eq,
    List.mem_filter, Bool.not_eq_true']
  by_cases hAlive : alive i = true <;> simp [hAlive]

variable {b}

theorem bucket_sweep
    (hb : b < t.buckets.size)
    (b' : Nat) :
    (t.sweep alive b).bucket b' =
      if b' = b then (t.kept alive b).headD 0
      else t.bucket b' := by
  have hBound : b < (t.dropped alive b).buckets.size := by
    rwa [buckets_dropped]
  rw [sweep_eq, bucket, (relink_eq _ _).2.2.1]
  change ((t.dropped alive b).setBucket b _).bucket b' = _
  rw [bucket_setBucket _ _ _ _ hBound]
  simp [bucket, buckets_dropped]

end OneBucket

------------------------------------------------------------
-- Sweeping
------------------------------------------------------------

variable [Inhabited α] [Spread α]

/-
  A table after the buckets of a list were swept: of their
  chains only the cells that are alive are left.
-/
structure Swept
    (t t' : Table α)
    (alive : Nat → Bool)
    (swept : List Nat) : Prop where
  chained : t'.Chained
  buckets_size : t'.buckets.size = t.buckets.size
  value_eq : ∀ i, t'.value i = t.value i
  isOccupied_iff :
    ∀ i, t'.isOccupied i = true ↔
      t.isOccupied i = true ∧
        ∀ b ∈ swept, i ∈ t.chain b → alive i = true
  chain_eq :
    ∀ b, b < t.buckets.size →
      t'.chain b =
        if b ∈ swept then (t.chain b).filter alive
        else t.chain b

namespace Chained

variable {t : Table α}
variable {b : Nat}

section OneBucket

variable (hChained : t.Chained)
variable (alive : Nat → Bool)
variable (hb : b < t.buckets.size)
include hChained hb

/- Cells that are left can be relinked. -/
theorem mem_kept :
    ∀ i ∈ t.kept alive b,
      i ≠ 0 ∧ i < (t.dropped alive b).cells.size := by
  intro i hi
  rcases hChained.mem_chain hb (List.mem_of_mem_filter hi)
    with ⟨hZero, hOccupied⟩
  rw [size_cells_dropped]
  exact ⟨hZero, lt_size_of_isOccupied hOccupied⟩

theorem nodup_kept : (t.kept alive b).Nodup :=
  (hChained.nodup b hb).filter _

theorem accounted_sweep :
    (t.sweep alive b).Accounted := by
  rw [sweep_eq]
  apply (relink_eq _ _).2.2.2
  apply Accounted.setBucket
  apply hChained.accounted.drops
  · exact (hChained.nodup b hb).filter _
  · intro i hi
    exact hChained.mem_chain hb (List.mem_of_mem_filter hi)

/- The cells that are left follow each other. -/
theorem linked_kept :
    Linked (t.sweep alive b).next
      ((t.kept alive b).headD 0) (t.kept alive b) := by
  rw [sweep_eq]
  exact
    linked_relink _ (hChained.nodup_kept alive hb)
      (hChained.mem_kept alive hb)

/- Other cells keep their successors. -/
theorem next_sweep_of_not_mem
    {i : Nat}
    (hi : i ∉ t.kept alive b) :
    (t.sweep alive b).next i = t.next i := by
  rw [sweep_eq,
    next_relink_of_not_mem
      ((t.dropped alive b).setBucket b _)
      (fun j hj => (hChained.mem_kept alive hb j hj).2) hi,
    next_setBucket, dropped, (t.drops_eq _).2.1]

/- The other chains stay beside the swept one. -/
theorem chainedBy_sweep :
    (t.sweep alive b).ChainedBy fun b' =>
      if b' = b then t.kept alive b else t.chain b' := by
  have hSize := t.size_buckets_sweep alive b
  have hSub :
      ∀ b' i,
        i ∈ (if b' = b then t.kept alive b
          else t.chain b') →
          i ∈ t.chain b' := by
    intro b' i hi
    split at hi
    · rename_i hEq
      exact hEq ▸ List.mem_of_mem_filter hi
    · exact hi
  refine
    ⟨hChained.accounted_sweep alive hb,
      hSize ▸ hChained.buckets_pos, ?_, ?_, ?_, ?_, ?_⟩
  all_goals
    intro b' hb'
    rw [hSize] at hb'
  · rw [t.bucket_sweep alive hb]
    by_cases hEq : b' = b
    · rw [if_pos hEq, if_pos hEq]
      exact hChained.linked_kept alive hb
    · rw [if_neg hEq, if_neg hEq]
      apply (hChained.linked b' hb').congr
      intro i hi
      apply hChained.next_sweep_of_not_mem alive hb
      intro hKept
      exact hEq (hChained.eq_of_mem_chain hb' hb hi
        (List.mem_of_mem_filter hKept))
  · by_cases hEq : b' = b
    · rw [if_pos hEq]
      exact hChained.nodup_kept alive hb
    · rw [if_neg hEq]
      exact hChained.nodup b' hb'
  · intro i hi
    rw [isOccupied_sweep_iff]
    refine ⟨hChained.occupied b' hb' i (hSub b' i hi), ?_⟩
    intro hMem
    have hEq :=
      hChained.eq_of_mem_chain hb' hb (hSub b' i hi) hMem
    rw [if_pos hEq] at hi
    exact (List.mem_filter.mp hi).2
  · intro i hi
    rw [bucketFor, hSize, value_sweep]
    exact hChained.bucketFor_eq b' hb' i (hSub b' i hi)
  · intro i hi j hj hEq
    rw [value_sweep, value_sweep] at hEq
    exact hChained.distinct b' hb' i (hSub b' i hi)
      j (hSub b' j hj) hEq

/- Sweeping one bucket. -/
theorem sweep :
    t.Swept (t.sweep alive b) alive [b] where
  chained := (hChained.chainedBy_sweep alive hb).chained
  buckets_size := t.size_buckets_sweep alive b
  value_eq := t.value_sweep alive b
  isOccupied_iff := by
    simpa using t.isOccupied_sweep_iff alive b
  chain_eq := fun b' hb' => by
    have hBy := hChained.chainedBy_sweep alive hb
    rw [hBy.chain_eq (t.size_buckets_sweep alive b ▸ hb')]
    by_cases hEq : b' = b <;> simp [hEq, kept]

end OneBucket

/- Sweeping buckets one after the other. -/
theorem sweepAll
    (hChained : t.Chained)
    (alive : Nat → Bool)
    (buckets : List Nat)
    (hBuckets : ∀ b ∈ buckets, b < t.buckets.size) :
    t.Swept (buckets.foldl (Table.sweep alive) t)
      alive buckets := by
  induction buckets generalizing t with
  | nil =>
      exact
        { chained := hChained
          buckets_size := rfl
          value_eq := fun _ => rfl
          isOccupied_iff := by simp
          chain_eq := by simp }
  | cons b buckets ih =>
      have hb := hBuckets b (by simp)
      have hOne := hChained.sweep alive hb
      have hAll := ih hOne.chained (by
        intro b' hb'
        rw [hOne.buckets_size]
        exact hBuckets b' (by simp [hb']))
      refine
        ⟨hAll.chained,
          hAll.buckets_size.trans hOne.buckets_size,
          ?_, ?_, ?_⟩
      · intro i
        rw [List.foldl_cons, hAll.value_eq, hOne.value_eq]
      · intro i
        rw [List.foldl_cons, hAll.isOccupied_iff,
          hOne.isOccupied_iff]
        constructor
        · rintro ⟨⟨hOccupied, hFirst⟩, hRest⟩
          refine ⟨hOccupied, ?_⟩
          intro b' hb' hi
          by_cases hEq : b' = b
          · exact hFirst b (by simp) (hEq ▸ hi)
          · apply hRest b' (by simp_all)
            rw [hOne.chain_eq b' (hBuckets b' hb')]
            simpa [hEq] using hi
        · rintro ⟨hOccupied, hAlive⟩
          refine ⟨⟨hOccupied, ?_⟩, ?_⟩
          · intro b' hb' hi
            exact hAlive b' (by simp_all) hi
          · intro b' hb' hi
            apply hAlive b' (by simp [hb'])
            rw [hOne.chain_eq b'
              (hBuckets b' (by simp [hb']))] at hi
            split at hi
            · exact List.mem_of_mem_filter hi
            · exact hi
      · intro b' hb'
        rw [List.foldl_cons,
          hAll.chain_eq b' (hOne.buckets_size ▸ hb'),
          hOne.chain_eq b' hb']
        by_cases hEq : b' = b <;>
          by_cases hMem : b' ∈ buckets <;>
          simp [hEq, hMem]

end Chained

end Table

end Diagram

end Variability
