import Mathlib.Data.List.Basic
import Mathlib.Data.List.TakeWhile
import Mathlib.Data.Nat.Init
import Variability.Text.Blank
import Variability.Text.Line

/-
  Pieces of texts: spans of one kind, lines and words.

  A reader that takes as many characters of a kind as it can
  takes exactly a span of them that the text does not go on with.
  The lines of a text have no line feeds in them, and no carriage
  returns either if these stand right in front of line feeds only.
  Lines that are joined are read back, but for a carriage return
  at the end of each. The words of a text are its pieces between
  blanks, of which the empty ones do not count.

  Main declarations:
    * `Text.Stops`, `Text.takeWhile_dropWhile_iff`
    * `Text.dropPrefix?_eq_some_iff`
    * `Text.PairsReturns`, `Text.IsLined`
    * `Text.lines_line`
    * `Text.isUnbroken_of_mem_lines`
    * `Text.lines_intercalate`
    * `Text.words_eq`, `Text.words_append_blank`
    * `Text.words_eq_singleton_iff`
-/

namespace Variability

namespace Text

------------------------------------------------------------
-- Spans
------------------------------------------------------------

/- A text that does not go on with characters of a kind. -/
def Stops (kind : Char → Bool) (s : List Char) : Prop :=
  ∀ c ∈ s.head?, kind c = false

theorem stops_cons
    {kind : Char → Bool}
    {c : Char}
    (hc : kind c = false)
    (s : List Char) :
    Stops kind (c :: s) := by
  intro d hd
  cases hd
  exact hc

/- What is taken from a text, and where it stops. -/
theorem takeWhile_dropWhile_iff
    {kind : Char → Bool}
    {s taken rest : List Char} :
    s.takeWhile kind = taken ∧ s.dropWhile kind = rest ↔
      s = taken ++ rest ∧ (∀ c ∈ taken, kind c = true) ∧
        Stops kind rest := by
  constructor
  · rintro ⟨rfl, rfl⟩
    refine ⟨List.takeWhile_append_dropWhile.symm,
      fun c hc => List.mem_takeWhile_imp hc, fun c hc => ?_⟩
    have hHead := List.head?_dropWhile_not kind s
    rw [Option.mem_def.mp hc] at hHead
    simpa using hHead
  · rintro ⟨rfl, hTaken, hStops⟩
    have hRest : rest.takeWhile kind = [] ∧
        rest.dropWhile kind = rest := by
      cases rest with
      | nil => exact ⟨rfl, rfl⟩
      | cons c rest => simp [hStops c rfl]
    rw [List.takeWhile_append_of_pos hTaken,
      List.dropWhile_append_of_pos hTaken, hRest.1, hRest.2,
      List.append_nil]
    exact ⟨rfl, rfl⟩

theorem dropPrefix?_eq_some_iff
    {start s rest : List Char} :
    dropPrefix? start s = some rest ↔ s = start ++ rest := by
  rw [dropPrefix?]
  constructor
  · intro hDrop
    split at hDrop
    · rename_i hPrefix
      rcases List.isPrefixOf_iff_prefix.mp hPrefix with ⟨more, rfl⟩
      rw [List.drop_left, Option.some.injEq] at hDrop
      rw [hDrop]
    · cases hDrop
  · rintro rfl
    rw [if_pos (List.isPrefixOf_iff_prefix.mpr
      (List.prefix_append _ _)), List.drop_left]

------------------------------------------------------------
-- Texts Line by Line
------------------------------------------------------------

/- Carriage returns stand right in front of line feeds only. -/
def PairsReturns (text : List Char) : Prop :=
  ∀ rest, '\r' :: rest <:+ text → rest.head? = some '\n'

/- Characters that end no line. -/
def IsUnbroken (s : List Char) : Prop :=
  ∀ c ∈ s, c ≠ '\n' ∧ c ≠ '\r'

instance decidableIsUnbroken (s : List Char) :
    Decidable (IsUnbroken s) :=
  List.decidableBAll _ s

/- The ways to end a line. -/
def lineEnds : List (List Char) :=
  [['\n'], ['\r', '\n']]

theorem IsUnbroken.left
    {s t : List Char}
    (hLine : IsUnbroken (s ++ t)) :
    IsUnbroken s :=
  fun c hc => hLine c (List.mem_append_left t hc)

theorem mem_lineEnds_iff
    {ending : List Char} :
    ending ∈ lineEnds ↔
      ending = ['\n'] ∨ ending = ['\r', '\n'] := by
  simp [lineEnds]

/- A text as some lines with their ends, and a last one without. -/
inductive IsLined : List Char → Prop
  | last
      {line : List Char}
      (hLine : IsUnbroken line) :
      IsLined line
  | line
      {line ending rest : List Char}
      (hLine : IsUnbroken line)
      (hEnding : ending ∈ lineEnds)
      (hRest : IsLined rest) :
      IsLined (line ++ (ending ++ rest))

theorem PairsReturns.suffix
    {text text' : List Char}
    (hReturns : PairsReturns text)
    (hSuffix : text' <:+ text) :
    PairsReturns text' :=
  fun rest hRest => hReturns rest (hRest.trans hSuffix)

theorem pairsReturns_of_not_mem
    {text : List Char}
    (hReturn : '\r' ∉ text) :
    PairsReturns text :=
  fun _ hRest =>
    absurd (hRest.subset List.mem_cons_self) hReturn

theorem pairsReturns_cons_iff
    {c : Char}
    {text : List Char} :
    PairsReturns (c :: text) ↔
      (c = '\r' → text.head? = some '\n') ∧
        PairsReturns text := by
  constructor
  · intro hReturns
    refine ⟨?_, hReturns.suffix (List.suffix_cons _ _)⟩
    rintro rfl
    exact hReturns text List.suffix_rfl
  · rintro ⟨hFirst, hReturns⟩ rest hRest
    rcases List.suffix_cons_iff.mp hRest with hEq | hInner
    · cases hEq
      exact hFirst rfl
    · exact hReturns rest hInner

instance decidablePairsReturns :
    (text : List Char) → Decidable (PairsReturns text)
  | [] => isTrue (pairsReturns_of_not_mem List.not_mem_nil)
  | _ :: text =>
      have := decidablePairsReturns text
      decidable_of_iff _ pairsReturns_cons_iff.symm

theorem IsLined.cons
    {c : Char}
    {text : List Char}
    (hc : c ≠ '\n' ∧ c ≠ '\r')
    (hText : IsLined text) :
    IsLined (c :: text) := by
  cases hText with
  | last hLine =>
      exact .last (List.forall_mem_cons.mpr ⟨hc, hLine⟩)
  | line hLine hEnding hRest =>
      rw [← List.cons_append]
      exact .line (List.forall_mem_cons.mpr ⟨hc, hLine⟩) hEnding
        hRest

theorem IsLined.ending
    (ending : List Char)
    {text : List Char}
    (hEnding : ending ∈ lineEnds)
    (hText : IsLined text) :
    IsLined (ending ++ text) :=
  .line (List.forall_mem_nil _) hEnding hText

/- Such a text has lines, by induction on its length. -/
theorem isLined
    {text : List Char}
    (hReturns : PairsReturns text) :
    IsLined text := by
  induction hLength : text.length using Nat.strong_induction_on
    generalizing text with
  | _ length ih =>
      subst hLength
      cases text with
      | nil => exact .last (List.forall_mem_nil _)
      | cons c text =>
          by_cases hReturn : c = '\r'
          · subst hReturn
            have hFeed := hReturns text List.suffix_rfl
            rcases List.head?_eq_some_iff.mp hFeed with
              ⟨rest, rfl⟩
            have hRest : PairsReturns rest :=
              hReturns.suffix ⟨['\r', '\n'], rfl⟩
            have hLess :
                rest.length < ('\r' :: '\n' :: rest).length := by
              rw [List.length_cons, List.length_cons]
              omega
            exact .ending ['\r', '\n'] (by simp [lineEnds])
              (ih rest.length hLess hRest rfl)
          · have hText : IsLined text :=
              ih text.length (by simp)
                (hReturns.suffix (List.suffix_cons _ _)) rfl
            by_cases hFeed : c = '\n'
            · subst hFeed
              exact .ending ['\n'] (by simp [lineEnds]) hText
            · exact hText.cons ⟨hFeed, hReturn⟩

variable {line ending rest : List Char}

theorem splitOn_line
    {sep : Char}
    (hLine : sep ∉ line)
    (rest : List Char) :
    splitOn sep (line ++ sep :: rest) =
      line :: splitOn sep rest := by
  induction line with
  | nil => simp [splitOn]
  | cons c line ih =>
      rw [List.mem_cons, not_or] at hLine
      rw [List.cons_append, splitOn, if_neg (Ne.symm hLine.1),
        ih hLine.2]

theorem splitOn_of_not_mem
    {sep : Char}
    (hLine : sep ∉ line) :
    splitOn sep line = [line] := by
  induction line with
  | nil => rfl
  | cons c line ih =>
      rw [List.mem_cons, not_or] at hLine
      rw [splitOn, if_neg (Ne.symm hLine.1), ih hLine.2]

theorem splitOn_ne_nil
    (sep : Char)
    (s : List Char) :
    splitOn sep s ≠ [] := by
  cases s with
  | nil => exact List.cons_ne_nil _ _
  | cons c s =>
      rw [splitOn]
      split
      · exact List.cons_ne_nil _ _
      · split <;> exact List.cons_ne_nil _ _

theorem finishLines_cons
    {pieces : List (List Char)}
    (hPieces : pieces ≠ [])
    (line : List Char) :
    finishLines (line :: pieces) =
      dropReturn line :: finishLines pieces := by
  cases pieces with
  | nil => exact absurd rfl hPieces
  | cons piece pieces => rfl

theorem dropReturn_concat
    (line : List Char) :
    dropReturn (line ++ ['\r']) = line := by
  have hSuffix : ['\r'].isSuffixOf (line ++ ['\r']) = true :=
    List.isSuffixOf_iff_suffix.mpr (List.suffix_append _ _)
  rw [dropReturn, dropSuffix?, if_pos hSuffix, Option.getD_some,
    List.length_append, Nat.add_sub_cancel, List.take_left]

theorem dropReturn_of_not_mem
    (hLine : '\r' ∉ line) :
    dropReturn line = line := by
  rw [dropReturn, dropSuffix?, if_neg]
  · rfl
  · intro hSuffix
    have hSub := (List.isSuffixOf_iff_suffix.mp hSuffix).subset
    exact hLine (hSub List.mem_cons_self)

theorem IsUnbroken.not_mem
    (hLine : IsUnbroken line) :
    '\n' ∉ line ∧ '\r' ∉ line :=
  ⟨fun hFeed => (hLine _ hFeed).1 rfl,
    fun hReturn => (hLine _ hReturn).2 rfl⟩

theorem lines_nil : lines [] = [] := rfl

theorem lines_last
    (hLine : IsUnbroken line) :
    lines line = if line.isEmpty then [] else [line] := by
  rw [lines, splitOn_of_not_mem hLine.not_mem.1, finishLines]

/- A line is followed by a line feed, perhaps behind a return. -/
theorem exists_front
    (hLine : IsUnbroken line)
    (hEnding : ending ∈ lineEnds)
    (rest : List Char) :
    ∃ front,
      line ++ (ending ++ rest) = front ++ '\n' :: rest ∧
        '\n' ∉ front ∧ dropReturn front = line := by
  rcases mem_lineEnds_iff.mp hEnding with rfl | rfl
  · exact ⟨line, rfl, hLine.not_mem.1,
      dropReturn_of_not_mem hLine.not_mem.2⟩
  · exact ⟨line ++ ['\r'], by simp, by simp [hLine.not_mem.1],
      dropReturn_concat line⟩

/- A line feed separates a line from those behind it. -/
theorem lines_front
    (hLine : '\n' ∉ line)
    (rest : List Char) :
    lines (line ++ '\n' :: rest) =
      dropReturn line :: lines rest := by
  rw [lines, splitOn_line hLine,
    finishLines_cons (splitOn_ne_nil _ _)]
  rfl

theorem lines_line
    (hLine : IsUnbroken line)
    (hEnding : ending ∈ lineEnds)
    (rest : List Char) :
    lines (line ++ (ending ++ rest)) = line :: lines rest := by
  rcases exists_front hLine hEnding rest with
    ⟨front, hText, hFeed, hFront⟩
  rw [hText, lines_front hFeed, hFront]

theorem lines_ne_nil
    {text : List Char}
    (hText : IsLined text)
    (hSome : text ≠ []) :
    lines text ≠ [] := by
  cases hText with
  | last hLine =>
      rw [lines_last hLine, if_neg (by rwa [List.isEmpty_iff])]
      exact List.cons_ne_nil _ _
  | line hLine hEnding _ =>
      rw [lines_line hLine hEnding]
      exact List.cons_ne_nil _ _

------------------------------------------------------------
-- Characters of Lines
------------------------------------------------------------

theorem not_mem_of_mem_splitOn
    {sep : Char}
    {s piece : List Char}
    (hPiece : piece ∈ splitOn sep s) :
    sep ∉ piece := by
  induction s generalizing piece with
  | nil =>
      rw [splitOn, List.mem_singleton] at hPiece
      rw [hPiece]
      exact List.not_mem_nil
  | cons c s ih =>
      rw [splitOn] at hPiece
      split at hPiece
      · rcases List.mem_cons.mp hPiece with rfl | hRest
        · exact List.not_mem_nil
        · exact ih hRest
      · rename_i hOther
        split at hPiece
        · rw [List.mem_singleton] at hPiece
          rw [hPiece, List.mem_singleton]
          exact Ne.symm hOther
        · rename_i first pieces hPieces
          rw [hPieces] at ih
          rcases List.mem_cons.mp hPiece with rfl | hRest
          · rw [List.mem_cons, not_or]
            exact ⟨Ne.symm hOther, ih List.mem_cons_self⟩
          · exact ih (List.mem_cons_of_mem _ hRest)

/- At most a carriage return is taken off a line. -/
theorem dropReturn_eq_or
    (line : List Char) :
    dropReturn line = line ∨ line = dropReturn line ++ ['\r'] := by
  by_cases hSuffix : ['\r'].isSuffixOf line = true
  · rcases List.isSuffixOf_iff_suffix.mp hSuffix with
      ⟨front, rfl⟩
    rw [dropReturn_concat]
    exact Or.inr rfl
  · left
    rw [dropReturn, dropSuffix?, if_neg hSuffix]
    rfl

theorem dropReturn_subset
    (line : List Char) :
    dropReturn line ⊆ line := by
  rcases dropReturn_eq_or line with hSame | hReturn
  · rw [hSame]
    exact List.Subset.refl _
  · conv_rhs => rw [hReturn]
    exact List.subset_append_left _ _

theorem exists_piece_of_mem_finishLines
    {pieces : List (List Char)}
    (hLine : line ∈ finishLines pieces) :
    ∃ piece ∈ pieces, line ⊆ piece := by
  induction pieces with
  | nil => cases hLine
  | cons first pieces ih =>
      cases pieces with
      | nil =>
          rw [finishLines] at hLine
          split at hLine
          · cases hLine
          · rw [List.mem_singleton] at hLine
            exact ⟨first, List.mem_cons_self, hLine ▸ by simp⟩
      | cons second pieces =>
          rw [finishLines_cons (List.cons_ne_nil _ _)] at hLine
          rcases List.mem_cons.mp hLine with rfl | hRest
          · exact
              ⟨first, List.mem_cons_self, dropReturn_subset first⟩
          · rcases ih hRest with ⟨piece, hPiece, hSub⟩
            exact ⟨piece, List.mem_cons_of_mem _ hPiece, hSub⟩

/- No line feed is left in the lines of a text. -/
theorem not_mem_of_mem_lines
    {text : List Char}
    (hLine : line ∈ lines text) :
    '\n' ∉ line := by
  rcases exists_piece_of_mem_finishLines hLine with
    ⟨piece, hPiece, hSub⟩
  exact fun hFeed => not_mem_of_mem_splitOn hPiece (hSub hFeed)

/- Carriage returns in front of line feeds belong to no line. -/
theorem isUnbroken_of_mem_lines
    {text : List Char}
    (hReturns : PairsReturns text) :
    ∀ line ∈ lines text, IsUnbroken line := by
  induction isLined hReturns with
  | last hLine =>
      rw [lines_last hLine]
      split
      · exact List.forall_mem_nil _
      · exact List.forall_mem_singleton.mpr hLine
  | @line line ending rest hLine hEnding _ ih =>
      rw [lines_line hLine hEnding, List.forall_mem_cons]
      refine ⟨hLine, ih (hReturns.suffix ?_)⟩
      rw [← List.append_assoc]
      exact List.suffix_append _ _

------------------------------------------------------------
-- Joined Lines
------------------------------------------------------------

/- Lines that are joined are read back. -/
theorem lines_intercalate
    {ls : List (List Char)}
    (hSome : ls ≠ [])
    (hLines : ∀ line ∈ ls, '\n' ∉ line) :
    lines (['\n'].intercalate ls ++ ['\n']) =
      ls.map dropReturn := by
  induction ls with
  | nil => exact absurd rfl hSome
  | cons line ls ih =>
      rw [List.forall_mem_cons] at hLines
      cases ls with
      | nil =>
          rw [List.intercalate_singleton, lines_front hLines.1]
          rfl
      | cons next rest =>
          rw [List.intercalate_cons_cons, List.append_assoc,
            List.append_assoc, List.singleton_append,
            lines_front hLines.1,
            ih (List.cons_ne_nil _ _) hLines.2]
          rfl

------------------------------------------------------------
-- Words
------------------------------------------------------------

section Words

variable {s t word : List Char}
variable {c : Char}

/- A word under way belongs to the first piece that is left. -/
theorem wordsFrom_eq
    (word s : List Char) :
    wordsFrom word s =
      ((s.splitOnP isBlank).modifyHead (word.reverse ++ ·)).filter
        (!·.isEmpty) := by
  have hNone (pieces : List (List Char)) :
      pieces.modifyHead (([] : List Char).reverse ++ ·) = pieces := by
    cases pieces <;> rfl
  fun_induction wordsFrom word s with
  | case1 word hEmpty => simp_all
  | case2 word hWord => simp_all
  | case3 word c rest hBlank hEmpty ih =>
      rw [ih, hNone, List.splitOnP_cons_eq_if_modifyHead,
        if_pos hBlank]
      simp_all
  | case4 word c rest hBlank hWord ih =>
      rw [ih, hNone, List.splitOnP_cons_eq_if_modifyHead,
        if_pos hBlank]
      simp_all
  | case5 word c rest hBlank ih =>
      rw [ih, List.splitOnP_cons_eq_if_modifyHead, if_neg hBlank,
        List.modifyHead_modifyHead]
      simp [Function.comp_def]

/- The words of a text are the pieces between its blanks. -/
theorem words_eq
    (s : List Char) :
    words s = (s.splitOnP isBlank).filter (!·.isEmpty) := by
  rw [words, wordsFrom_eq]
  cases s.splitOnP isBlank <;> rfl

/- A blank keeps words apart. -/
theorem words_append_blank
    (hBlank : isBlank c = true)
    (s t : List Char) :
    words (s ++ c :: t) = words s ++ words t := by
  rw [words_eq, words_eq, words_eq,
    List.splitOnP_append_cons s t hBlank, List.filter_append]

theorem words_cons_blank
    (hBlank : isBlank c = true)
    (s : List Char) :
    words (c :: s) = words s :=
  words_append_blank hBlank [] s

/- Blanks have no words, and are not looked at before some. -/
theorem words_blanks_append
    (hBlanks : ∀ c ∈ s, isBlank c = true)
    (t : List Char) :
    words (s ++ t) = words t := by
  induction s with
  | nil => rfl
  | cons c s ih =>
      rw [List.forall_mem_cons] at hBlanks
      rw [List.cons_append, words_cons_blank hBlanks.1,
        ih hBlanks.2]

/- Words are not empty and have no blanks in them. -/
theorem mem_wordsFrom
    (hWord : ∀ c ∈ word, isBlank c = false)
    {w : List Char}
    (hMem : w ∈ wordsFrom word s) :
    w ≠ [] ∧ ∀ c ∈ w, isBlank c = false := by
  fun_induction wordsFrom word s with
  | case1 word hEmpty => cases hMem
  | case2 word hSome =>
      rw [List.mem_singleton] at hMem
      simp_all
  | case3 word c rest hBlank hEmpty ih => exact ih nofun hMem
  | case4 word c rest hBlank hSome ih =>
      rcases List.mem_cons.mp hMem with rfl | hMem
      · simp_all
      · exact ih nofun hMem
  | case5 word c rest hBlank ih =>
      apply ih _ hMem
      simp_all

theorem mem_words
    (hMem : word ∈ words s) :
    word ≠ [] ∧ ∀ c ∈ word, isBlank c = false :=
  mem_wordsFrom (by simp) hMem

/- A text is its only word if it is not empty and has no blanks. -/
theorem words_eq_singleton_iff :
    words s = [s] ↔ s ≠ [] ∧ ∀ c ∈ s, isBlank c = false := by
  constructor
  · intro hWords
    apply mem_words (s := s)
    rw [hWords]
    exact List.mem_singleton_self s
  · rintro ⟨hSome, hPlain⟩
    rw [words_eq, List.splitOnP_eq_singleton hPlain]
    simp [hSome]

end Words

end Text

end Variability
