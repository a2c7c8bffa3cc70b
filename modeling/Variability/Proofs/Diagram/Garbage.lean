import Variability.Proofs.Diagram.Connectives
import Variability.Proofs.Diagram.Sweep

/-
  Collecting garbage keeps what the roots reach.

  Marking meets exactly the cells that paths from the roots
  meet. The cells that are left after a sweep are the terminal
  and the marked ones, and the children of a marked node are
  marked, so the manager stays sound.

  Main declarations:
    * `Manager.Meets`
    * `Manager.Intact.isMarked_reachable_iff`
    * `Manager.Collects`
    * `Manager.Sound.collectGarbage`
-/

namespace Variability

namespace Diagram

------------------------------------------------------------
-- Marked Cells
------------------------------------------------------------

/- A cell that a vector of marks marks. -/
def IsMarked {n : Nat} (marked : Vector Bool n) (i : Nat) : Prop :=
  marked.toArray.getD i false = true

theorem isMarked_iff
    {n i : Nat}
    (marked : Vector Bool n)
    (hi : i < n) :
    IsMarked marked i ↔ marked[i] = true := by
  simp [IsMarked, Array.getD_eq_getD_getElem?, hi]

theorem isMarked_set
    {n i j : Nat}
    (marked : Vector Bool n)
    (hi : i < n) :
    IsMarked (marked.set i true) j ↔
      j = i ∨ IsMarked marked j := by
  by_cases hj : j = i
  · simp [hj, isMarked_iff _ hi]
  · simp [IsMarked, Array.getD_eq_getD_getElem?, hj,
      Ne.symm hj]

namespace Manager

variable {m : Manager}
variable {i j : Nat}
variable {work work' : List Nat}

------------------------------------------------------------
-- Paths
------------------------------------------------------------

/- A cell that an edge of another one leads to. -/
def IsChild (m : Manager) (i j : Nat) : Prop :=
  j = (m.nodes.value i).low.index ∨
    j = (m.nodes.value i).high.index

/- A cell that a path from some cells meets; it ends at the terminal. -/
inductive Meets
    (m : Manager)
    (work : List Nat) :
    Nat → Prop where
  | start {i : Nat} (hi : i ∈ work) : Meets m work i
  | child {i j : Nat}
      (hMeets : Meets m work i)
      (hNode : i ≠ 1)
      (hChild : m.IsChild i j) :
      Meets m work j

/- Paths from cells that were met meet nothing else. -/
theorem Meets.of_work
    (hMeets : m.Meets work' i)
    (hWork : ∀ j ∈ work', m.Meets work j) :
    m.Meets work i := by
  induction hMeets with
  | start hi => exact hWork _ hi
  | child _ hNode hChild ih => exact .child ih hNode hChild

theorem Meets.cons
    (hMeets : m.Meets work i)
    (j : Nat) :
    m.Meets (j :: work) i :=
  hMeets.of_work fun _ hk =>
    .start (List.mem_cons_of_mem j hk)

/- A path from live cells meets live cells. -/
theorem Meets.isOccupied
    (hMeets : m.Meets work i)
    (hIntact : m.Intact)
    (hWork :
      ∀ i ∈ work, i ≠ 0 ∧ m.nodes.isOccupied i = true) :
    i ≠ 0 ∧ m.nodes.isOccupied i = true := by
  induction hMeets with
  | start hi => exact hWork _ hi
  | child _ hNode hChild ih =>
      have hEdges :=
        hIntact.edges_live _ ⟨by omega, ih.2⟩
      rcases hChild with rfl | rfl
      · exact hEdges.1
      · exact hEdges.2

------------------------------------------------------------
-- Marking
------------------------------------------------------------

section Marking

variable {n : Nat}
variable (marked : Vector Bool n)

/- A mark stays. -/
theorem isMarked_mark
    (work : List Nat)
    (hMarked : IsMarked marked i) :
    IsMarked (m.mark work marked) i := by
  induction work, marked using Manager.mark.induct m with
  | case1 marked =>
      rw [mark]
      exact hMarked
  | case2 marked j work hj hOld ih =>
      rw [mark, dif_pos hj, if_pos hOld]
      exact ih hMarked
  | case3 marked j work hj hNew node ih =>
      rw [mark, dif_pos hj, if_neg hNew]
      apply ih
      exact (isMarked_set marked hj).mpr (Or.inr hMarked)
  | case4 marked j work hj ih =>
      rw [mark, dif_neg hj]
      exact ih hMarked

/- Every cell to do is marked. -/
theorem isMarked_mark_of_mem
    (work : List Nat)
    (hi : i ∈ work)
    (hBound : i < n) :
    IsMarked (m.mark work marked) i := by
  induction work, marked using Manager.mark.induct m with
  | case1 marked => simp at hi
  | case2 marked j work hj hOld ih =>
      rw [mark, dif_pos hj, if_pos hOld]
      rcases List.mem_cons.mp hi with rfl | hi
      · apply isMarked_mark
        exact (isMarked_iff marked hj).mpr hOld
      · exact ih hi
  | case3 marked j work hj hNew node ih =>
      rw [mark, dif_pos hj, if_neg hNew]
      rcases List.mem_cons.mp hi with rfl | hi
      · apply isMarked_mark
        exact (isMarked_set marked hj).mpr (Or.inl rfl)
      · exact ih (by simp [hi])
  | case4 marked j work hj ih =>
      rw [mark, dif_neg hj]
      rcases List.mem_cons.mp hi with rfl | hi
      · exact absurd hBound hj
      · exact ih hi

/- What is marked was marked before or is met. -/
theorem meets_of_isMarked_mark
    (work : List Nat)
    (hTerminal : IsMarked marked 1)
    (hMarked : IsMarked (m.mark work marked) i) :
    IsMarked marked i ∨ m.Meets work i := by
  induction work, marked using Manager.mark.induct m with
  | case1 marked =>
      rw [mark] at hMarked
      exact Or.inl hMarked
  | case2 marked j work hj hOld ih =>
      rw [mark, dif_pos hj, if_pos hOld] at hMarked
      exact (ih hTerminal hMarked).imp_right (·.cons j)
  | case3 marked j work hj hNew node ih =>
      rw [mark, dif_pos hj, if_neg hNew] at hMarked
      have hNode : j ≠ 1 := by
        rintro rfl
        exact hNew ((isMarked_iff marked hj).mp hTerminal)
      have hStart : m.Meets (j :: work) j :=
        .start List.mem_cons_self
      rcases ih ((isMarked_set marked hj).mpr
          (Or.inr hTerminal)) hMarked with hSet | hMeets
      · rcases (isMarked_set marked hj).mp hSet with
          rfl | hOld
        · exact Or.inr hStart
        · exact Or.inl hOld
      · right
        apply hMeets.of_work
        intro k hk
        rcases List.mem_cons.mp hk with rfl | hk
        · exact .child hStart hNode (Or.inl rfl)
        rcases List.mem_cons.mp hk with rfl | hk
        · exact .child hStart hNode (Or.inr rfl)
        · exact .start (List.mem_cons_of_mem j hk)
  | case4 marked j work hj ih =>
      rw [mark, dif_neg hj] at hMarked
      exact (ih hTerminal hMarked).imp_right (·.cons j)

/-
  The children of a marked cell are marked or still to do. Only
  the terminal is marked without its children.
-/
def IsExplored
    (m : Manager)
    (work : List Nat)
    (marked : Vector Bool n) : Prop :=
  ∀ i, IsMarked marked i → i ≠ 1 →
    ∀ j, m.IsChild i j → j < n →
      IsMarked marked j ∨ j ∈ work

variable {marked}

theorem IsExplored.skip
    (hExplored : m.IsExplored (j :: work) marked)
    (hj : j < n → IsMarked marked j) :
    m.IsExplored work marked := by
  intro i hi hNode k hChild hk
  rcases hExplored i hi hNode k hChild hk with
    hMarked | hWork
  · exact Or.inl hMarked
  rcases List.mem_cons.mp hWork with rfl | hWork
  · exact Or.inl (hj hk)
  · exact Or.inr hWork

theorem IsExplored.step
    (hj : j < n)
    (hExplored : m.IsExplored (j :: work) marked) :
    m.IsExplored
      ((m.nodes.value j).low.index ::
        (m.nodes.value j).high.index :: work)
      (marked.set j true) := by
  intro i hi hNode k hChild hk
  rcases (isMarked_set marked hj).mp hi with rfl | hi
  · right
    rcases hChild with rfl | rfl <;> simp
  rcases hExplored i hi hNode k hChild hk with
    hMarked | hWork
  · left
    exact (isMarked_set marked hj).mpr (Or.inr hMarked)
  rcases List.mem_cons.mp hWork with rfl | hWork
  · left
    exact (isMarked_set marked hj).mpr (Or.inl rfl)
  · exact Or.inr (by simp [hWork])

/- Marking ends when all children of marked cells are marked. -/
theorem IsExplored.mark
    (work : List Nat)
    (hExplored : m.IsExplored work marked) :
    m.IsExplored [] (m.mark work marked) := by
  induction work, marked using Manager.mark.induct m with
  | case1 marked =>
      rw [Manager.mark]
      exact hExplored
  | case2 marked j work hj hOld ih =>
      rw [Manager.mark, dif_pos hj, if_pos hOld]
      apply ih
      apply hExplored.skip
      intro _
      exact (isMarked_iff marked hj).mpr hOld
  | case3 marked j work hj hNew node ih =>
      rw [Manager.mark, dif_pos hj, if_neg hNew]
      exact ih (IsExplored.step hj hExplored)
  | case4 marked j work hj ih =>
      rw [Manager.mark, dif_neg hj]
      apply ih
      apply hExplored.skip
      intro hBound
      exact absurd hBound hj

end Marking

------------------------------------------------------------
-- Reachable Cells
------------------------------------------------------------

/- A handle that is a constant or that a path from the roots meets. -/
def IsRooted
    (m : Manager)
    (roots : List Handle)
    (r : Handle) : Prop :=
  r.isTerminal = true ∨
    m.Meets (roots.map Handle.index) r.index

namespace Intact

variable (hIntact : m.Intact)
variable (roots : List Handle)
include hIntact

/- The terminal is marked, and it is where marking starts. -/
theorem isMarked_start :
    IsMarked
      ((Vector.replicate m.nodes.capacity false).setIfInBounds
        1 true) i ↔
      i = 1 := by
  have hBound : 1 < m.nodes.capacity :=
    Table.lt_size_of_isOccupied hIntact.terminal_occupied
  have hNone :
      ¬ IsMarked (Vector.replicate m.nodes.capacity false)
        i := by
    simp only [IsMarked, Vector.toArray_replicate,
      Array.getD_eq_getD_getElem?, Array.getElem?_replicate]
    split <;> simp
  have hSet :
      (Vector.replicate m.nodes.capacity false).setIfInBounds
          1 true =
        (Vector.replicate m.nodes.capacity false).set
          1 true hBound := by
    ext k hk
    simp [Vector.getElem_setIfInBounds, Vector.getElem_set]
  rw [hSet, isMarked_set _ hBound, or_iff_left hNone]

theorem isMarked_terminal :
    IsMarked (m.reachable roots) 1 := by
  unfold reachable
  apply isMarked_mark
  exact hIntact.isMarked_start.mpr rfl

/- The children of a reachable node are reachable. -/
theorem isMarked_child
    (hNode : m.IsNode i)
    (hMarked : IsMarked (m.reachable roots) i)
    (hChild : m.IsChild i j) :
    IsMarked (m.reachable roots) j := by
  have hExplored :
      m.IsExplored [] (m.reachable roots) := by
    unfold reachable
    apply IsExplored.mark
    intro k hk hNode
    exact absurd (hIntact.isMarked_start.mp hk) hNode
  have hEdges := hIntact.edges_live i hNode
  have hBound : j < m.nodes.capacity := by
    rcases hChild with rfl | rfl
    · exact Table.lt_size_of_isOccupied hEdges.1.2
    · exact Table.lt_size_of_isOccupied hEdges.2.2
  have hOne : i ≠ 1 := by
    have hLess := hNode.1
    omega
  simpa using hExplored i hMarked hOne j hChild hBound

/- The reachable cells are those that paths from the roots meet. -/
theorem isMarked_reachable_iff
    (hRoots : ∀ r ∈ roots, m.IsLive r)
    (r : Handle) :
    IsMarked (m.reachable roots) r.index ↔
      m.IsRooted roots r := by
  have hWork :
      ∀ i ∈ roots.map Handle.index,
        i ≠ 0 ∧ m.nodes.isOccupied i = true := by
    intro i hi
    rcases List.mem_map.mp hi with ⟨r, hr, rfl⟩
    exact hRoots r hr
  have hMet :
      ∀ i, m.Meets (roots.map Handle.index) i →
        IsMarked (m.reachable roots) i := by
    intro i hMeets
    induction hMeets with
    | start hi =>
        apply isMarked_mark_of_mem _ _ hi
        exact Table.lt_size_of_isOccupied (hWork _ hi).2
    | child hMeets hOne hChild ih =>
        have hLive := hMeets.isOccupied hIntact hWork
        exact
          hIntact.isMarked_child roots
            ⟨by omega, hLive.2⟩ ih hChild
  constructor
  · intro hMarked
    rcases meets_of_isMarked_mark _ _
        (hIntact.isMarked_start.mpr rfl) hMarked with
      hStart | hMeets
    · left
      simpa [Handle.isTerminal] using
        hIntact.isMarked_start.mp hStart
    · exact Or.inr hMeets
  · rintro (hTerminal | hMeets)
    · have hOne : r.index = 1 := by
        simpa [Handle.isTerminal] using hTerminal
      rw [hOne]
      exact hIntact.isMarked_terminal roots
    · exact hMet _ hMeets

------------------------------------------------------------
-- Collection
------------------------------------------------------------

/- All buckets are swept. -/
theorem swept_collectGarbage :
    m.nodes.Swept (m.collectGarbage roots).nodes
      ((m.reachable roots).toArray.getD · false)
      (List.range m.nodes.buckets.size) :=
  hIntact.chained.sweepAll _ _ fun _ hb =>
    List.mem_range.mp hb

theorem value_collectGarbage (i : Nat) :
    (m.collectGarbage roots).nodes.value i =
      m.nodes.value i :=
  (hIntact.swept_collectGarbage roots).value_eq i

/- The marked cells are left, in the chains they were in. -/
theorem isChained_collectGarbage_iff :
    (m.collectGarbage roots).nodes.IsChained i ↔
      m.nodes.IsChained i ∧
        IsMarked (m.reachable roots) i := by
  have hSwept := hIntact.swept_collectGarbage roots
  have hb :=
    hIntact.chained.bucketFor_lt (m.nodes.value i)
  unfold Table.IsChained
  rw [hSwept.value_eq, Table.bucketFor, hSwept.buckets_size]
  change i ∈ Table.chain _
    (m.nodes.bucketFor (m.nodes.value i)) ↔ _
  rw [hSwept.chain_eq _ hb, if_pos (List.mem_range.mpr hb),
    List.mem_filter]
  rfl

theorem isLive_collectGarbage_iff (r : Handle) :
    (m.collectGarbage roots).IsLive r ↔
      m.IsLive r ∧
        IsMarked (m.reachable roots) r.index := by
  have hSwept := hIntact.swept_collectGarbage roots
  unfold IsLive
  rw [hSwept.isOccupied_iff, and_assoc]
  apply and_congr_right
  intro hZero
  apply and_congr_right
  intro hOccupied
  constructor
  · intro hAlive
    by_cases hOne : r.index = 1
    · rw [hOne]
      exact hIntact.isMarked_terminal roots
    · have hb :=
        hIntact.chained.bucketFor_lt
          (m.nodes.value r.index)
      exact
        hAlive _ (List.mem_range.mpr hb)
          (hIntact.isChained_of_isNode _
            ⟨by omega, hOccupied⟩)
  · intro hMarked _ _ _
    exact hMarked

theorem isNode_of_collectGarbage
    (hNode : (m.collectGarbage roots).IsNode i) :
    m.IsNode i ∧ IsMarked (m.reachable roots) i := by
  have hLess := hNode.1
  have hLive :
      (m.collectGarbage roots).IsLive
        (Handle.ofIndex i) :=
    ⟨by simp; omega, by simpa using hNode.2⟩
  rcases (hIntact.isLive_collectGarbage_iff roots _).mp
      hLive with
    ⟨hLive, hMarked⟩
  exact ⟨⟨hLess, by simpa using hLive.2⟩, by simpa using hMarked⟩

/- The children of a node that is left are left. -/
theorem isLive_child
    (hNode : (m.collectGarbage roots).IsNode i)
    {r : Handle}
    (hChild : m.IsChild i r.index)
    (hLive : m.IsLive r) :
    (m.collectGarbage roots).IsLive r := by
  rcases hIntact.isNode_of_collectGarbage roots hNode with
    ⟨hOld, hMarked⟩
  exact
    (hIntact.isLive_collectGarbage_iff roots r).mpr
      ⟨hLive,
        hIntact.isMarked_child roots hOld hMarked hChild⟩

/- A collected manager is intact. -/
theorem collectGarbage :
    (m.collectGarbage roots).Intact where
  chained := (hIntact.swept_collectGarbage roots).chained
  terminal_occupied :=
    ((hIntact.isLive_collectGarbage_iff roots .one).mpr
      ⟨⟨by decide, hIntact.terminal_occupied⟩,
        hIntact.isMarked_terminal roots⟩).2
  terminal_apart := fun hChained =>
    hIntact.terminal_apart
      ((hIntact.isChained_collectGarbage_iff roots).mp
        hChained).1
  isChained_of_isNode := fun i hNode => by
    rcases hIntact.isNode_of_collectGarbage roots hNode with
      ⟨hOld, hMarked⟩
    exact
      (hIntact.isChained_collectGarbage_iff roots).mpr
        ⟨hIntact.isChained_of_isNode i hOld, hMarked⟩
  edges_live := fun i hNode => by
    have hOld :=
      (hIntact.isNode_of_collectGarbage roots hNode).1
    have hEdges := hIntact.edges_live i hOld
    rw [hIntact.value_collectGarbage roots]
    exact
      ⟨hIntact.isLive_child roots hNode (Or.inl rfl)
          hEdges.1,
        hIntact.isLive_child roots hNode (Or.inr rfl)
          hEdges.2⟩

end Intact

namespace Reduced

variable (hReduced : m.Reduced)
variable (roots : List Handle)
include hReduced

/- A node that is left is canonical, because its children are left. -/
theorem isCanonical_collectGarbage
    (hNode : (m.collectGarbage roots).IsNode i) :
    (m.collectGarbage roots).IsCanonical
      ((m.collectGarbage roots).nodes.value i) := by
  have hIntact := hReduced.intact
  have hOld :=
    (hIntact.isNode_of_collectGarbage roots hNode).1
  have hCanonical := hReduced.isCanonical i hOld
  have hTop (r : Handle) :
      (m.collectGarbage roots).topVar r = m.topVar r := by
    simp only [topVar, node,
      hIntact.value_collectGarbage roots]
  rw [hIntact.value_collectGarbage roots]
  exact
    { var_pos := hCanonical.var_pos
      low_live :=
        hIntact.isLive_child roots hNode (Or.inl rfl)
          hCanonical.low_live
      high_live :=
        hIntact.isLive_child roots hNode (Or.inr rfl)
          hCanonical.high_live
      low_ne_high := hCanonical.low_ne_high
      high_regular := hCanonical.high_regular
      above_low := by
        simpa [IsAbove, hTop] using hCanonical.above_low
      above_high := by
        simpa [IsAbove, hTop] using hCanonical.above_high }

/- A collected manager is reduced. -/
theorem collectGarbage :
    (m.collectGarbage roots).Reduced := by
  have hIntact := hReduced.intact.collectGarbage roots
  refine
    ⟨hIntact.chained, hIntact.terminal_occupied,
      hIntact.terminal_apart, ?_,
      hIntact.isChained_of_isNode, ?_⟩
  · rw [hReduced.intact.value_collectGarbage roots,
      hReduced.terminal_value]
  · exact fun _ hNode =>
      hReduced.isCanonical_collectGarbage roots hNode

end Reduced

/-
  What a collection leaves: a sound manager of the handles that
  the roots reach, whose nodes are the old ones.
-/
structure Collects
    (m : Manager)
    (roots : List Handle)
    (m' : Manager) : Prop where
  sound : m'.Sound
  keeps : m'.Extends m
  isLive_iff :
    ∀ r, m'.IsLive r ↔ m.IsLive r ∧ m.IsRooted roots r

theorem Sound.collectGarbage
    (hSound : m.Sound)
    {roots : List Handle}
    (hRoots : ∀ r ∈ roots, m.IsLive r) :
    m.Collects roots (m.collectGarbage roots) where
  sound :=
    { reduced := hSound.reduced.collectGarbage roots
      all_isLive := by simp [Manager.collectGarbage]
      solves := by simp [Manager.collectGarbage] }
  keeps := fun r hLive =>
    ⟨((hSound.reduced.intact.isLive_collectGarbage_iff
        roots r).mp hLive).1,
      (hSound.reduced.intact.value_collectGarbage
        roots r.index).symm⟩
  isLive_iff := fun r => by
    rw [hSound.reduced.intact.isLive_collectGarbage_iff,
      hSound.reduced.intact.isMarked_reachable_iff roots
        hRoots]

/- The functions of the handles that are left do not change. -/
theorem Collects.eval_eq
    {m' : Manager}
    {roots : List Handle}
    {r : Handle}
    {a : Nat → Bool}
    (hCollects : m.Collects roots m')
    (hReduced : m.Reduced)
    (hLive : m'.IsLive r) :
    m'.eval r a = m.eval r a :=
  (hCollects.keeps.eval_eq hCollects.sound.reduced hReduced
    hLive).symm

/- The roots are left. -/
theorem Collects.isLive_root
    {m' : Manager}
    {roots : List Handle}
    {r : Handle}
    (hCollects : m.Collects roots m')
    (hRoots : ∀ r ∈ roots, m.IsLive r)
    (hr : r ∈ roots) :
    m'.IsLive r := by
  rw [hCollects.isLive_iff]
  refine ⟨hRoots r hr, Or.inr ?_⟩
  exact .start (List.mem_map_of_mem hr)

end Manager

end Diagram

end Variability
