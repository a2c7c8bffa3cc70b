import Variability.LineMap
import Variability.Proofs.Text.Pieces
import Variability.Proofs.Token.Lexer
import Variability.Proofs.Token.Splicing

/-
  Continued lines of a line map, and those that tokens are read from.

  Tokens are read from a text in which a backslash right before a
  line end joins two lines. A line map joins lines by a rule of its
  own: blanks may stand behind the backslash, a joined line is
  looked at as a whole, and the last line stays as it is. Both have
  the same lines if and only if none of this matters.

  Main declarations:
    * `Lexer.linesOf`, `Lexer.placed`
    * `foldFrom_eq_placed_iff`
    * `foldsAsRead_iff`
-/

namespace Variability

------------------------------------------------------------
-- Lines of Letters
------------------------------------------------------------

namespace Lexer

/-
  The lines of some letters, each with the physical line on which
  it ends. `start` is in front of the first one, and a line that
  is still open ends on the line `last`.
-/
def linesFrom (last : Nat) (start : List Char) :
    List Letter → List (List Char × Nat)
  | [] => if start.isEmpty then [] else [(start, last)]
  | l :: rest =>
      if l.char = '\n' then
        (start, l.line) :: linesFrom last [] rest
      else
        linesFrom last (start ++ [l.char]) rest

/-
  The lines that the tokens of a text are read from. A line that
  is still open ends on the last physical line.
-/
def linesOf (text : String) : List (List Char × Nat) :=
  linesFrom (Text.lines text.toList).length []
    (splice 1 text.toList)

/- The line that ends on a physical line, empty if none does. -/
def lineAt (lines : List (List Char × Nat)) (n : Nat) : List Char :=
  ((lines.find? (·.2 == n)).map (·.1)).getD []

/- The lines that end on some physical lines. -/
def placed
    (first count : Nat)
    (lines : List (List Char × Nat)) : List (List Char) :=
  (List.range' first count).map (lineAt lines)

open Text

variable {line ending rest : List Char}

/- No line end is next. -/
def GoesOn (s : List Char) : Prop :=
  s.head? ≠ some '\n' ∧ s.head? ≠ some '\r'

theorem splice_cons
    {c : Char}
    (hc : c ≠ '\n' ∧ c ≠ '\r')
    (hNext : c = '\\' → GoesOn rest)
    (n : Nat) :
    splice n (c :: rest) = ⟨c, n⟩ :: splice n rest := by
  rw [splice]
  all_goals grind [GoesOn]

/- A line stays as it is, but for a backslash in front of a line end. -/
theorem splice_unbroken
    (hLine : IsUnbroken line)
    (hEnd : line.getLast? = some '\\' → GoesOn rest)
    (n : Nat) :
    splice n (line ++ rest) = lettersOn n line ++ splice n rest := by
  induction line with
  | nil => rfl
  | cons c line ih =>
      rw [IsUnbroken, List.forall_mem_cons] at hLine
      cases line with
      | nil =>
          rw [List.singleton_append, splice_cons hLine.1]
          · rfl
          · rintro rfl
            exact hEnd rfl
      | cons d line =>
          have hNext : GoesOn (d :: line ++ rest) := by
            have hd := hLine.2 d List.mem_cons_self
            simpa [GoesOn] using hd
          rw [List.getLast?_cons_cons] at hEnd
          rw [List.cons_append, splice_cons hLine.1 fun _ => hNext,
            ih hLine.2 hEnd]
          rfl

theorem linesFrom_letters
    (last n : Nat)
    (start : List Char)
    (hLine : IsUnbroken line)
    (ls : List Letter) :
    linesFrom last start (lettersOn n line ++ ls) =
      linesFrom last (start ++ line) ls := by
  induction line generalizing start with
  | nil => rw [List.append_nil]; rfl
  | cons c line ih =>
      rw [IsUnbroken, List.forall_mem_cons] at hLine
      have hStep :
          linesFrom last start
              (lettersOn n (c :: line) ++ ls) =
            linesFrom last (start ++ [c])
              (lettersOn n line ++ ls) :=
        if_neg hLine.1.1
      rw [hStep, ih _ hLine.2, List.append_assoc]
      rfl

/- The last line, without an end. -/
theorem linesFrom_last
    (last n : Nat)
    (start : List Char)
    (hLine : IsUnbroken line) :
    linesFrom last start (splice n line) =
      if (start ++ line).isEmpty then [] else
        [(start ++ line, last)] := by
  have hSplice : splice n (line ++ []) = lettersOn n line ++ [] :=
    splice_unbroken hLine (fun _ => by simp [GoesOn]) n
  rw [List.append_nil] at hSplice
  rw [hSplice, linesFrom_letters last n start hLine]
  rfl

/- A line whose end is behind no backslash. -/
theorem linesFrom_line
    (last n : Nat)
    (start : List Char)
    (hLine : IsUnbroken line)
    (hEnd : line.getLast? ≠ some '\\')
    (hEnding : ending ∈ lineEnds)
    (rest : List Char) :
    linesFrom last start (splice n (line ++ (ending ++ rest))) =
      (start ++ line, n) ::
        linesFrom last [] (splice (n + 1) rest) := by
  have hFeed :
      splice n (ending ++ rest) =
        ⟨'\n', n⟩ :: splice (n + 1) rest := by
    rcases mem_lineEnds_iff.mp hEnding with rfl | rfl <;>
      simp [splice]
  rw [splice_unbroken hLine (absurd · hEnd),
    linesFrom_letters last n start hLine, hFeed]
  rfl

/- A line whose end is behind a backslash. -/
theorem linesFrom_continued
    (last n : Nat)
    (start : List Char)
    (hLine : IsUnbroken line)
    (hEnding : ending ∈ lineEnds)
    (rest : List Char) :
    linesFrom last start
        (splice n (line ++ ['\\'] ++ (ending ++ rest))) =
      linesFrom last (start ++ line) (splice (n + 1) rest) := by
  have hJoin :
      splice n ('\\' :: (ending ++ rest)) =
        splice (n + 1) rest := by
    rcases mem_lineEnds_iff.mp hEnding with rfl | rfl <;>
      simp [splice]
  rw [List.append_assoc, List.singleton_append,
    splice_unbroken hLine (fun _ => by simp [GoesOn]),
    linesFrom_letters last n start hLine, hJoin]

theorem le_of_mem_linesFrom
    {n last : Nat}
    {start : List Char}
    {ls : List Letter}
    (hLast : n ≤ last)
    (hLetters : ∀ l ∈ ls, n ≤ l.line) :
    ∀ l ∈ linesFrom last start ls, n ≤ l.2 := by
  fun_induction linesFrom last start ls with
  | case1 => simp
  | case2 => simpa using hLast
  | case3 start l rest hFeed ih =>
      rw [List.forall_mem_cons] at hLetters ⊢
      exact ⟨hLetters.1, ih hLetters.2⟩
  | case4 start l rest hFeed ih =>
      rw [List.forall_mem_cons] at hLetters
      exact ih hLetters.2

/-
  Lines end one after another, and none behind the last physical
  line. By induction on the lines of the text.
-/
theorem linesFrom_inOrder
    {n last : Nat}
    {start text : List Char}
    (hText : IsLined text)
    (hLast : n + (Text.lines text).length = last + 1) :
    (linesFrom last start (splice n text)).Pairwise
        (·.2 < ·.2) ∧
      ∀ l ∈ linesFrom last start (splice n text), l.2 ≤ last := by
  induction hText generalizing n start with
  | @last line hLine =>
      rw [linesFrom_last last n start hLine]
      split <;> simp
  | @line line ending rest hLine hEnding hRest ih =>
      rw [lines_line hLine hEnding, List.length_cons] at hLast
      have hRestLast :
          (n + 1) + (Text.lines rest).length = last + 1 := by omega
      by_cases hEnd : line.getLast? = some '\\'
      · rcases List.getLast?_eq_some_iff.mp hEnd with ⟨front, rfl⟩
        rw [linesFrom_continued last n start hLine.left hEnding]
        exact ih hRestLast
      · rw [linesFrom_line last n start hLine hEnd hEnding,
          List.pairwise_cons, List.forall_mem_cons]
        have hBehind :
            ∀ l ∈ linesFrom last [] (splice (n + 1) rest),
              n < l.2 := by
          by_cases hNone : rest = []
          · subst hNone
            exact List.forall_mem_nil _
          · have hPos :=
              List.length_pos_iff.mpr (lines_ne_nil hRest hNone)
            exact le_of_mem_linesFrom (by omega)
              (le_line_of_mem_splice _ rest)
        exact ⟨⟨hBehind, (ih hRestLast).1⟩, by dsimp only; omega,
          (ih hRestLast).2⟩

------------------------------------------------------------
-- Lines in Their Places
------------------------------------------------------------

variable {n : Nat} {lines : List (List Char × Nat)}

theorem placed_succ
    (n count : Nat)
    (lines : List (List Char × Nat)) :
    placed n (count + 1) lines =
      lineAt lines n :: placed (n + 1) count lines := by
  rw [placed, List.range'_succ]
  rfl

theorem lineAt_self
    (line : List Char)
    (n : Nat)
    (lines : List (List Char × Nat)) :
    lineAt ((line, n) :: lines) n = line := by
  simp [lineAt]

theorem lineAt_behind
    (hBehind : ∀ l ∈ lines, n < l.2) :
    lineAt lines n = [] := by
  have hNone : lines.find? (·.2 == n) = none := by
    rw [List.find?_eq_none]
    intro l hl hEq
    have hLess := hBehind l hl
    rw [beq_iff_eq] at hEq
    omega
  rw [lineAt, hNone]
  rfl

/- A line is in none of the places behind it. -/
theorem placed_behind
    (line : List Char)
    (n count : Nat)
    (lines : List (List Char × Nat)) :
    placed (n + 1) count ((line, n) :: lines) =
      placed (n + 1) count lines := by
  apply List.map_congr_left
  intro m hm
  rw [List.mem_range'_1] at hm
  have hNe : (n == m) = false := by
    rw [beq_eq_false_iff_ne]
    omega
  rw [lineAt, List.find?_cons_of_neg (by simp [hNe])]
  rfl

end Lexer

------------------------------------------------------------
-- Folded Lines
------------------------------------------------------------

open Text Lexer

variable {start line ending rest text : List Char}

theorem length_foldFrom
    (start : List Char)
    (lines : List (List Char)) :
    (foldFrom start lines).length = lines.length := by
  fun_induction foldFrom start lines <;> simp_all

theorem isContinued_concat
    (s : List Char) :
    isContinued (s ++ ['\\']) = true := by
  have hBlank : isBlank '\\' = false := rfl
  simp [isContinued, trimEnd, hBlank]

theorem beforeBackslash_concat
    (s : List Char) :
    beforeBackslash (s ++ ['\\']) = s := by
  simp [beforeBackslash]

/- The end of a text is behind a backslash. -/
def EndsJoined (text : List Char) : Prop :=
  ∃ ending ∈ lineEnds, '\\' :: ending <:+ text

theorem not_endsJoined
    (hLine : IsUnbroken line) :
    ¬ EndsJoined line := by
  rintro ⟨ending, hEnding, hSuffix⟩
  have hFeed : '\n' ∈ '\\' :: ending := by
    rcases mem_lineEnds_iff.mp hEnding with rfl | rfl <;> decide
  exact hLine.not_mem.1 (hSuffix.subset hFeed)

theorem endsJoined_line_iff
    (hLine : IsUnbroken line)
    (hEnding : ending ∈ lineEnds) :
    EndsJoined (line ++ ending) ↔ line.getLast? = some '\\' := by
  constructor
  · rintro ⟨ending', hEnding', front, hText⟩
    have hReverse := congrArg List.reverse hText
    have hReturn : '\r' ∉ line.reverse := by
      rw [List.mem_reverse]
      exact hLine.not_mem.2
    rw [← List.head?_reverse]
    rcases mem_lineEnds_iff.mp hEnding with rfl | rfl <;>
      rcases mem_lineEnds_iff.mp hEnding' with rfl | rfl <;>
      simp at hReverse
    · rw [← hReverse]
      rfl
    · rw [← hReverse] at hReturn
      exact absurd List.mem_cons_self hReturn
    · rw [← hReverse]
      rfl
  · intro hLast
    rcases List.getLast?_eq_some_iff.mp hLast with ⟨front, rfl⟩
    exact ⟨ending, hEnding, front, by simp⟩

/- What ends in its only line feed is no more than the last line. -/
theorem suffix_behind
    {s front : List Char}
    (hFeed : '\n' ∉ s.dropLast)
    (hRest : rest ≠ [])
    (hSuffix : s <:+ front ++ '\n' :: rest) :
    s <:+ rest := by
  have hShort : ¬ '\n' :: rest <:+ s := by
    rintro ⟨before, rfl⟩
    apply hFeed
    rw [List.dropLast_append_cons,
      List.dropLast_cons_of_ne_nil hRest]
    simp
  rcases List.suffix_or_suffix_of_suffix hSuffix
    (List.suffix_append front _) with hInside | hOutside
  · rcases List.suffix_cons_iff.mp hInside with rfl | hInside
    · exact absurd List.suffix_rfl hShort
    · exact hInside
  · exact absurd hOutside hShort

theorem endsJoined_behind_iff
    (hLine : IsUnbroken line)
    (hEnding : ending ∈ lineEnds)
    (hRest : rest ≠ []) :
    EndsJoined (line ++ (ending ++ rest)) ↔ EndsJoined rest := by
  have hFeed {s : List Char} (hs : s ∈ lineEnds) :
      '\n' ∉ ('\\' :: s).dropLast := by
    rcases mem_lineEnds_iff.mp hs with rfl | rfl <;> decide
  constructor
  · rintro ⟨ending', hEnding', hSuffix⟩
    rcases exists_front hLine hEnding rest with ⟨front, hText, -⟩
    rw [hText] at hSuffix
    exact ⟨ending', hEnding',
      suffix_behind (hFeed hEnding') hRest hSuffix⟩
  · rintro ⟨ending', hEnding', hSuffix⟩
    refine ⟨ending', hEnding', hSuffix.trans ?_⟩
    rw [← List.append_assoc]
    exact List.suffix_append _ _

theorem foldFrom_line
    {more : List (List Char)}
    (hMore : more ≠ [])
    (hStop : isContinued (start ++ line) = false) :
    foldFrom start (line :: more) =
      (start ++ line) :: foldFrom [] more := by
  cases more with
  | nil => exact absurd rfl hMore
  | cons next more => rw [foldFrom, hStop]; rfl

theorem foldFrom_continued
    {more : List (List Char)}
    (hMore : more ≠ [])
    (hGoesOn : isContinued (start ++ line) = true) :
    foldFrom start (line :: more) =
      [] :: foldFrom (beforeBackslash (start ++ line)) more := by
  cases more with
  | nil => exact absurd rfl hMore
  | cons next more => rw [foldFrom, if_pos hGoesOn]

/- On the last line, without an end, nothing is folded. -/
theorem foldFrom_eq_placed_of_last
    {n last : Nat}
    (hLine : IsUnbroken line)
    (hLast : n + (lines line).length = last + 1) :
    foldFrom start (lines line) =
      placed n (lines line).length
        (linesFrom last start (splice n line)) := by
  rw [linesFrom_last last n start hLine]
  rw [lines_last hLine] at hLast ⊢
  cases line with
  | nil => rfl
  | cons c line =>
      have hn : n = last := by simpa using hLast
      simp [hn, placed, foldFrom, lineAt_self]

/- The last line, with an end, keeps a backslash that tokens do not see. -/
theorem eq_lineAt_iff_of_end
    {n : Nat}
    (hLine : IsUnbroken line)
    (hEnding : ending ∈ lineEnds) :
    start ++ line =
        lineAt (linesFrom n start (splice n (line ++ ending))) n ↔
      line.getLast? ≠ some '\\' := by
  rw [← List.append_nil ending]
  by_cases hEnd : line.getLast? = some '\\'
  · rcases List.getLast?_eq_some_iff.mp hEnd with ⟨front, rfl⟩
    have hPlace :
        lineAt (linesFrom n (start ++ front) []) n =
          start ++ front := by
      rw [linesFrom]
      split
      · rename_i hNone
        rw [List.isEmpty_iff] at hNone
        rw [hNone]
        rfl
      · exact lineAt_self _ _ _
    rw [linesFrom_continued n n start hLine.left hEnding, splice,
      hPlace]
    simp
  · rw [linesFrom_line n n start hLine hEnd hEnding, lineAt_self]
    exact iff_of_true rfl hEnd

theorem foldFrom_eq_placed_iff_of_end
    {n : Nat}
    (hLine : IsUnbroken line)
    (hEnding : ending ∈ lineEnds) :
    foldFrom start [line] =
        placed n 1 (linesFrom n start (splice n (line ++ ending))) ↔
      (∀ l ∈ linesFrom n start (splice n (line ++ ending)),
        l.2 < n → isContinued l.1 = false) ∧
      ¬ EndsJoined (line ++ ending) := by
  have hBehind :
      ∀ l ∈ linesFrom n start (splice n (line ++ ending)),
        n ≤ l.2 :=
    le_of_mem_linesFrom (Nat.le_refl n) (le_line_of_mem_splice n _)
  rw [foldFrom, placed_succ, List.cons.injEq,
    eq_lineAt_iff_of_end hLine hEnding,
    endsJoined_line_iff hLine hEnding]
  constructor
  · exact fun hFolded =>
      ⟨fun l hl hLess => absurd (hBehind l hl) (by omega),
        hFolded.1⟩
  · exact fun hAgree => ⟨hAgree.2, rfl⟩

/-
  Folded lines are the logical lines in their places if no logical
  line that is followed by another looks continued, and the text
  does not end behind a backslash. By induction on the lines of the
  text from the physical line `n` on, with the same beginning
  `start` of a logical line on either side.
-/
theorem foldFrom_eq_placed_iff
    {n last : Nat}
    (hText : IsLined text)
    (hLast : n + (lines text).length = last + 1) :
    foldFrom start (lines text) =
        placed n (lines text).length
          (linesFrom last start (splice n text)) ↔
      (∀ l ∈ linesFrom last start (splice n text),
        l.2 < last → isContinued l.1 = false) ∧
      ¬ EndsJoined text := by
  induction hText generalizing n start with
  | @last line hLine =>
      refine iff_of_true (foldFrom_eq_placed_of_last hLine hLast)
        ⟨?_, not_endsJoined hLine⟩
      rw [linesFrom_last last n start hLine]
      intro l hl hLess
      split at hl
      · cases hl
      · rw [List.mem_singleton] at hl
        rw [hl] at hLess
        exact absurd hLess (Nat.lt_irrefl last)
  | @line line ending rest hLine hEnding hRest ih =>
      rw [lines_line hLine hEnding, List.length_cons] at hLast
      rw [lines_line hLine hEnding, List.length_cons]
      by_cases hNone : rest = []
      · subst hNone
        rw [lines_nil, List.length_nil] at hLast
        have hn : n = last := by omega
        rw [lines_nil, List.length_nil, List.append_nil, hn]
        exact foldFrom_eq_placed_iff_of_end hLine hEnding
      · have hMore := lines_ne_nil hRest hNone
        have hRestLast :
            (n + 1) + (lines rest).length = last + 1 := by omega
        have hLess : n < last := by
          have hPos := List.length_pos_iff.mpr hMore
          omega
        have hBehind (start : List Char) :
            ∀ l ∈ linesFrom last start (splice (n + 1) rest),
              n < l.2 :=
          le_of_mem_linesFrom hLess (le_line_of_mem_splice _ rest)
        rw [placed_succ, endsJoined_behind_iff hLine hEnding hNone]
        by_cases hEnd : line.getLast? = some '\\'
        · rcases List.getLast?_eq_some_iff.mp hEnd with ⟨front, rfl⟩
          have hGoesOn :
              isContinued (start ++ (front ++ ['\\'])) = true := by
            rw [← List.append_assoc]
            exact isContinued_concat _
          rw [linesFrom_continued last n start hLine.left hEnding,
            lineAt_behind (hBehind _), ← ih hRestLast,
            foldFrom_continued hMore hGoesOn, ← List.append_assoc,
            beforeBackslash_concat, List.cons.injEq]
          exact and_iff_right rfl
        · rw [linesFrom_line last n start hLine hEnd hEnding,
            lineAt_self, placed_behind, List.forall_mem_cons]
          -- A line that only looks continued is folded, but ends here.
          cases hStop : isContinued (start ++ line) with
          | true =>
              rw [foldFrom_continued hMore hStop]
              refine iff_of_false ?_ ?_
              · intro hFold
                rw [List.cons.injEq] at hFold
                rw [← hFold.1] at hStop
                cases hStop
              · intro hAgree
                cases hAgree.1.1 hLess
          | false =>
              rw [foldFrom_line hMore hStop, List.cons.injEq,
                ih hRestLast]
              simp

/- The folded lines of a text are those that its tokens are read from. -/
def FoldsAsRead (text : String) : Prop :=
  foldContinuations text =
    placed 1 (lines text.toList).length (linesOf text)

/-
  A text whose carriage returns belong to line ends has as many
  folded lines as lines, and the lines that its tokens are read
  from end one after another on these. The folded lines are those
  lines, each in the place where it ends, if and only if none of
  them that is followed by another line looks continued and the
  text does not end behind a backslash.
-/
theorem foldsAsRead_iff
    (text : String)
    (hReturns : PairsReturns text.toList) :
    (foldContinuations text).length = (lines text.toList).length ∧
    (linesOf text).Pairwise (·.2 < ·.2) ∧
    (∀ l ∈ linesOf text,
      1 ≤ l.2 ∧ l.2 ≤ (lines text.toList).length) ∧
    (FoldsAsRead text ↔
      (∀ l ∈ linesOf text, l.2 < (lines text.toList).length →
        isContinued l.1 = false) ∧
      ¬ EndsJoined text.toList) := by
  have hText := isLined hReturns
  have hLast :
      1 + (lines text.toList).length =
        (lines text.toList).length + 1 := Nat.add_comm 1 _
  refine ⟨length_foldFrom [] _,
    (linesFrom_inOrder hText hLast).1,
    fun l hl => ⟨?_, (linesFrom_inOrder hText hLast).2 l hl⟩,
    foldFrom_eq_placed_iff hText hLast⟩
  by_cases hNone : text.toList = []
  · rw [linesOf, hNone] at hl
    cases hl
  · have hPos := List.length_pos_iff.mpr (lines_ne_nil hText hNone)
    exact le_of_mem_linesFrom hPos (le_line_of_mem_splice 1 _) l hl

theorem foldsAsRead_continuedMarker :
    PairsReturns "#line \\\n 20\nint a;\n".toList ∧
      FoldsAsRead "#line \\\n 20\nint a;\n" := by
  have hReturns :
      PairsReturns "#line \\\n 20\nint a;\n".toList :=
    pairsReturns_of_not_mem (by simp)
  refine ⟨hReturns, (foldsAsRead_iff _ hReturns).2.2.2.mpr ?_⟩
  simp only [linesOf, EndsJoined, String.reduceToList]
  decide

/-
  Blanks behind a backslash, a joined line that ends in a
  backslash, and a backslash on the last line.
-/
theorem not_foldsAsRead :
    (PairsReturns "a\\ \nb".toList ∧
      ¬ FoldsAsRead "a\\ \nb") ∧
    (PairsReturns "a\\\\\n\nb".toList ∧
      ¬ FoldsAsRead "a\\\\\n\nb") ∧
    (PairsReturns "a\\\n".toList ∧
      ¬ FoldsAsRead "a\\\n") := by
  refine
    ⟨⟨pairsReturns_of_not_mem (by simp), ?_⟩,
      ⟨pairsReturns_of_not_mem (by simp), ?_⟩,
      ⟨pairsReturns_of_not_mem (by simp), ?_⟩⟩ <;>
    simp only [FoldsAsRead, foldContinuations, linesOf,
      String.reduceToList] <;>
    decide

end Variability
