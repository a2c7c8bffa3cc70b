import Variability.Proofs.LineMap.Folding
import Variability.Proofs.LineMap.Markers

/-
  Where lines come from, by walking over the lines in front.

  A line map keeps only the lines behind markers, and counts on
  from the last of them that a line does not precede. This gives
  the file and the number which a walk from the first line has
  when it gets to the line.

  Main declarations:
    * `LineMap.Passes`, `LineMap.Walks`
    * `LineMap.countOn_eq_some_iff`
    * `LineMap.locate_by_walking`
-/

namespace Variability

namespace LineMap

------------------------------------------------------------
-- Walks
------------------------------------------------------------

/-
  Passing a line, at which a walk has a file and a number. Behind
  a marker it has those of the marker.
-/
inductive Passes
    (line : List Char)
    (place : Location) :
    Location → Prop
  | number
      {digits : List Char}
      {n : Nat}
      (hMarker : Marker.IsWritten line ⟨digits, none⟩)
      (hValue : Marker.IsValue digits n) :
      Passes line place ⟨place.file, n⟩
  | numberAndFile
      {digits file : List Char}
      {n : Nat}
      (hMarker : Marker.IsWritten line ⟨digits, some file⟩)
      (hValue : Marker.IsValue digits n) :
      Passes line place ⟨⟨String.ofList file⟩, n⟩
  | other
      (hOther : ∀ m n,
        Marker.IsWritten line m → ¬ Marker.IsValue m.number n) :
      Passes line place ⟨place.file, place.line + 1⟩

/- Passing some lines one after another. -/
inductive Walks : List (List Char) → Location → Location → Prop
  | stop (place : Location) : Walks [] place place
  | pass
      {line : List Char}
      {rest : List (List Char)}
      {place place' place'' : Location}
      (hLine : Passes line place place')
      (hRest : Walks rest place' place'') :
      Walks (line :: rest) place place''

variable {line : List Char} {place place' place'' : Location}

theorem passes_iff_of_marker
    {m : Marker}
    {n : Nat}
    (hRead : Marker.read? line = some m)
    (hValue : m.value? = some n) :
    Passes line place place' ↔
      place' =
        ⟨(m.file.map fun f => ⟨String.ofList f⟩).getD place.file,
          n⟩ := by
  rw [Marker.read?_eq_some_iff] at hRead
  constructor
  · intro hPass
    have hSame {m' : Marker} {n' : Nat}
        (hMarker : Marker.IsWritten line m')
        (hValue' : Marker.IsValue m'.number n') :
        m' = m ∧ n' = n := by
      rw [← Marker.read?_eq_some_iff] at hRead hMarker
      rw [hRead, Option.some.injEq] at hMarker
      rw [← hMarker, ← Marker.value?_eq_some_iff, hValue,
        Option.some.injEq] at hValue'
      exact ⟨hMarker.symm, hValue'.symm⟩
    cases hPass with
    | number hMarker hValue' =>
        rcases hSame hMarker hValue' with ⟨rfl, rfl⟩
        rfl
    | numberAndFile hMarker hValue' =>
        rcases hSame hMarker hValue' with ⟨rfl, rfl⟩
        rfl
    | other hOther =>
        exact absurd (Marker.value?_eq_some_iff.mp hValue)
          (hOther m n hRead)
  · rintro rfl
    rw [Marker.value?_eq_some_iff] at hValue
    rcases m with ⟨digits, _ | file⟩
    · exact .number hRead hValue
    · exact .numberAndFile hRead hValue

theorem passes_iff_of_other
    (hOther : ∀ m, Marker.read? line = some m → m.value? = none) :
    Passes line place place' ↔
      place' = ⟨place.file, place.line + 1⟩ := by
  have hNone (m : Marker) (n : Nat)
      (hMarker : Marker.IsWritten line m) :
      ¬ Marker.IsValue m.number n := by
    rw [← Marker.value?_eq_some_iff,
      hOther m (Marker.read?_eq_some_iff.mpr hMarker)]
    exact Option.some_ne_none n ∘ Eq.symm
  constructor
  · rintro (⟨hMarker, hValue⟩ | ⟨hMarker, hValue⟩ | _)
    · exact absurd hValue (hNone _ _ hMarker)
    · exact absurd hValue (hNone _ _ hMarker)
    · rfl
  · rintro rfl
    exact .other hNone

/- A walk goes on from the only place behind its first line. -/
theorem walks_cons_iff
    {rest : List (List Char)}
    (hPass : ∀ next, Passes line place next ↔ next = place') :
    Walks (line :: rest) place place'' ↔
      Walks rest place' place'' := by
  constructor
  · rintro (_ | ⟨hLine, hRest⟩)
    rw [hPass] at hLine
    rwa [← hLine]
  · exact .pass ((hPass place').mpr rfl)

------------------------------------------------------------
-- Beginnings
------------------------------------------------------------

/- Where a line comes from if some beginnings are kept. -/
def countOn
    (beginnings : List (Nat × Location))
    (n : Nat) : Option Location :=
  (beginnings.filter (·.1 ≤ n)).getLast?.map
    fun (start, location) =>
      ⟨location.file, location.line + n - start⟩

theorem countOn_behind
    {start n : Nat}
    {location : Location}
    {beginnings : List (Nat × Location)}
    (hStart : start ≤ n)
    (hBehind : ∀ b ∈ beginnings, n < b.1) :
    countOn ((start, location) :: beginnings) n =
      some ⟨location.file, location.line + n - start⟩ := by
  have hNone : beginnings.filter (·.1 ≤ n) = [] := by
    rw [List.filter_eq_nil_iff]
    intro b hb
    simpa using hBehind b hb
  rw [countOn, List.filter_cons_of_pos (by simpa using hStart),
    hNone]
  rfl

/- A beginning does not matter if the next one is in front of a line. -/
theorem countOn_cons
    {next n : Nat}
    {b : Nat × Location}
    {location : Location}
    {beginnings : List (Nat × Location)}
    (hNext : next ≤ n)
    (hb : b.1 ≤ n) :
    countOn (b :: (next, location) :: beginnings) n =
      countOn ((next, location) :: beginnings) n := by
  rw [countOn, countOn,
    List.filter_cons_of_pos (by simpa using hb),
    List.filter_cons_of_pos (by simpa using hNext),
    List.getLast?_cons_cons]

theorem countOn_ne_none
    {n : Nat}
    {b : Nat × Location}
    (hb : b.1 ≤ n)
    (beginnings : List (Nat × Location)) :
    countOn (b :: beginnings) n ≠ none := by
  rw [countOn, List.filter_cons_of_pos (by simpa using hb), Ne,
    Option.map_eq_none_iff, List.getLast?_eq_none_iff]
  exact List.cons_ne_nil _ _

theorem le_of_mem_beginningsFrom
    {current : Path}
    {next : Nat}
    {lines : List (List Char)} :
    ∀ b ∈ beginningsFrom current next lines, next ≤ b.1 := by
  fun_induction beginningsFrom current next lines with
  | case1 => intro b hb; cases hb
  | case2 current next line rest hRead ih =>
      exact fun b hb => by have := ih b hb; omega
  | case3 current next line rest m hRead hValue ih =>
      exact fun b hb => by have := ih b hb; omega
  | case4 current next line rest m hRead n hValue file ih =>
      intro b hb
      rcases List.mem_cons.mp hb with rfl | hb
      · exact Nat.le_refl _
      · have := ih b hb
        omega

variable
  {current : Path}
  {next start first number n k : Nat}
  {lines : List (List Char)}
  {location : Location}

/- In front of the lines that are left, a walk has not moved. -/
theorem countOn_eq_some_iff_of_stop
    (hStart : start < next)
    (hNumber : first + next = number + start + 1)
    (hn : n + 1 = next) :
    countOn
        ((start, .make current first) ::
          beginningsFrom current next lines) n =
        some location ↔
      ∃ place,
        Walks [] ⟨current, number⟩ place ∧
          location = .make place.file place.line := by
  have hBehind :
      ∀ b ∈ beginningsFrom current next lines, n < b.1 := by
    intro b hb
    have hLe := le_of_mem_beginningsFrom b hb
    omega
  have hLine : first + n - start = number := by omega
  rw [countOn_behind (by omega) hBehind, Option.some.injEq]
  dsimp only [Location.make]
  rw [hLine]
  constructor
  · rintro rfl
    exact ⟨_, .stop _, rfl⟩
  · rintro ⟨_, ⟨⟩, rfl⟩
    rfl

/-
  Counting on is walking, by induction on the lines. The walk has
  come to the line in front of `next`, to which the beginning
  passed last gives its number.
-/
theorem countOn_eq_some_iff
    (hStart : start < next)
    (hNumber : first + next = number + start + 1)
    (hk : k ≤ lines.length)
    (hn : n + 1 = next + k) :
    countOn
        ((start, .make current first) ::
          beginningsFrom current next lines) n =
        some location ↔
      ∃ place,
        Walks (lines.take k) ⟨current, number⟩ place ∧
          location = .make place.file place.line := by
  induction lines generalizing current next start first number k
      with
  | nil =>
      rw [List.take_nil]
      rw [List.length_nil, Nat.le_zero] at hk
      exact countOn_eq_some_iff_of_stop hStart hNumber
        (by omega)
  | cons line rest ih =>
      cases k with
      | zero =>
          rw [List.take_zero]
          exact countOn_eq_some_iff_of_stop hStart hNumber hn
      | succ k =>
          rw [List.length_cons] at hk
          rw [List.take_succ_cons]
          -- No line counts as a marker whose number does not fit.
          have hOther
              (hLine : ∀ m, Marker.read? line = some m →
                m.value? = none) :
              countOn
                  ((start, .make current first) ::
                    beginningsFrom current (next + 1) rest) n =
                  some location ↔
                ∃ place,
                  Walks (line :: rest.take k) ⟨current, number⟩
                      place ∧
                    location = .make place.file place.line := by
            simp only [walks_cons_iff fun _ =>
              passes_iff_of_other hLine]
            exact ih (by omega) (by omega) (by omega) (by omega)
          rw [beginningsFrom]
          split
          · rename_i hRead
            apply hOther
            intro m hMarker
            rw [hRead] at hMarker
            cases hMarker
          · rename_i m hRead
            split
            · rename_i hValue
              apply hOther
              intro m' hMarker
              rw [hRead, Option.some.injEq] at hMarker
              rw [← hMarker, hValue]
            · rename_i value hValue
              dsimp only
              simp only [walks_cons_iff fun _ =>
                passes_iff_of_marker hRead hValue]
              rw [countOn_cons (by omega) (by dsimp only; omega)]
              exact ih (by omega) (by omega) (by omega) (by omega)

------------------------------------------------------------
-- Maps of Texts
------------------------------------------------------------

/-
  Only the lines of a text have a location, and the first line
  even of an empty text. It has the place of a walk over the lines
  in front of it, which starts at the first line of the file.
-/
theorem locate_by_walking
    (path : Path)
    (text : String)
    (n : Nat) :
    ((ofText path text).locate n = none ↔
      n = 0 ∨ max 1 (Text.lines text.toList).length < n) ∧
    ∀ location,
      (ofText path text).locate n = some location ↔
        0 < n ∧ n ≤ max 1 (Text.lines text.toList).length ∧
          ∃ place,
            Walks ((foldContinuations text).take (n - 1))
                ⟨path, 1⟩ place ∧
              location = .make place.file place.line := by
  have hLength :
      (foldContinuations text).length =
        (Text.lines text.toList).length :=
    length_foldFrom [] _
  have hLocate :
      (ofText path text).locate n =
        if n = 0 ∨ max 1 (Text.lines text.toList).length < n then
          none
        else
          countOn
            ((1, .make path 1) ::
              beginningsFrom path 2 (foldContinuations text))
            n := by
    rw [← hLength, Nat.max_comm]
    rfl
  rw [hLocate]
  split
  · rename_i hOut
    refine ⟨iff_of_true rfl hOut, fun location => ?_⟩
    apply iff_of_false nofun
    rintro ⟨hPos, hLe, -⟩
    omega
  · rename_i hIn
    refine
      ⟨iff_of_false (countOn_ne_none (by dsimp only; omega) _) hIn,
        fun location => ?_⟩
    have hWalk :
        countOn
            ((1, .make path 1) ::
              beginningsFrom path 2 (foldContinuations text)) n =
            some location ↔
          ∃ place,
            Walks ((foldContinuations text).take (n - 1))
                ⟨path, 1⟩ place ∧
              location = .make place.file place.line :=
      countOn_eq_some_iff (Nat.lt_succ_self 1) rfl (by omega)
        (by omega)
    rw [hWalk]
    constructor
    · exact fun hPlace => ⟨by omega, by omega, hPlace⟩
    · exact fun hPlace => hPlace.2.2

end LineMap

end Variability
