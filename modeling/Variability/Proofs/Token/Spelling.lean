import Variability.Proofs.Token.Cursor

/-
  Spelling tokens and reading the spelling.

  A token is read off its characters again wherever a blank is
  behind them: a number, a name or a mark cannot go on with a
  blank, and a quoted text goes on to its quote. Only a quoted
  text that is left open takes a blank along, and that is the
  last token of its line. So the spelling of a line, one blank
  between two tokens, is read as its tokens.

  Main declarations:
    * `Token.contents`
    * `Lexer.scan_break`
    * `Lexer.Rereads`, `Lexer.Closed`
    * `Lexer.tokens_reread`
    * `Lexer.contents_tokens_spell`
    * `Token.StandsOnLine`
    * `Token.spelling_identifies`
-/

namespace Variability

namespace Token

------------------------------------------------------------
-- Spellings
------------------------------------------------------------

theorem toList_spell_cons
    (t u : Token)
    (ts : List Token) :
    (spell (t :: u :: ts)).toList =
      t.text.toList ++ ' ' :: (spell (u :: ts)).toList := by
  simp [spell, String.toList_intercalate, List.intercalate]

theorem spell_singleton (t : Token) :
    spell [t] = t.text :=
  String.intercalate_singleton

/- What a spelling consists of, besides its blanks. -/
theorem exists_of_mem_spell
    {c : Char}
    {ts : List Token}
    (hMem : c ∈ (spell ts).toList) :
    c = ' ' ∨ ∃ t ∈ ts, c ∈ t.text.toList := by
  induction ts with
  | nil => simp [spell] at hMem
  | cons t ts ih =>
      cases ts with
      | nil =>
          rw [spell_singleton] at hMem
          exact Or.inr ⟨t, List.mem_cons_self, hMem⟩
      | cons u ts =>
          rw [toList_spell_cons, List.mem_append,
            List.mem_cons] at hMem
          rcases hMem with hMem | hBlank | hMem
          · exact Or.inr ⟨t, List.mem_cons_self, hMem⟩
          · exact Or.inl hBlank
          · refine (ih hMem).imp_right ?_
            rintro ⟨t', ht', hMem⟩
            exact ⟨t', List.mem_cons_of_mem t ht', hMem⟩

/- The kinds and the texts of some tokens. -/
def contents (ts : List Token) : List (TokenKind × String) :=
  ts.map fun t => (t.kind, t.text)

theorem spell_eq_of_contents_eq
    {ts us : List Token}
    (hSame : contents ts = contents us) :
    spell ts = spell us := by
  have hTexts := congrArg (List.map Prod.snd) hSame
  unfold contents at hTexts
  rw [List.map_map, List.map_map] at hTexts
  exact congrArg (" ".intercalate ·) hTexts

theorem contents_bare (ts : List Token) :
    contents (ts.map bare) = contents ts := by
  unfold contents
  rw [List.map_map]
  rfl

end Token

namespace Lexer

variable {c : Char}
variable {l l' : Letter}
variable {s rest tail : List Letter}

------------------------------------------------------------
-- Breaks
------------------------------------------------------------

/- Nothing, or letters that start with a blank. -/
def IsBreak (rest : List Letter) : Prop :=
  ∀ l ∈ rest.head?, l.char = ' '

/- Nothing, or letters that start with a line feed. -/
def EndsLine (rest : List Letter) : Prop :=
  ∀ l ∈ rest.head?, l.char = '\n'

theorem isBreak_nil : IsBreak [] := by
  simp [IsBreak]

theorem IsBreak.take
    (hBreak : IsBreak rest)
    (n : Nat) :
    IsBreak (rest.take n) := by
  cases n with
  | zero => exact isBreak_nil
  | succ n =>
      cases rest with
      | nil => exact isBreak_nil
      | cons l rest => exact hBreak

/- What does not take a blank does not take the start of a break. -/
theorem IsBreak.any_head?
    (hBreak : IsBreak rest)
    {p : Char → Bool}
    (hBlank : p ' ' = false) :
    rest.head?.any (p ·.char) = false := by
  cases rest with
  | nil => rfl
  | cons l rest =>
      have hChar : l.char = ' ' := hBreak l rfl
      simp [hChar, hBlank]

/- Letters in front of a break start as they did before. -/
theorem any_head?_append
    (hBreak : IsBreak rest)
    (hTail : tail <+: s)
    {p : Char → Bool}
    (hBlank : p ' ' = false) :
    (tail ++ rest).head?.any (p ·.char) =
      (decide (tail ≠ []) && s.head?.any (p ·.char)) := by
  cases tail with
  | nil => simpa using hBreak.any_head? hBlank
  | cons l tail =>
      rcases hTail with ⟨more, rfl⟩
      simp

------------------------------------------------------------
-- Words and Numbers
------------------------------------------------------------

/- Letters of a class that has no blank end at a break. -/
theorem takeWhile_break
    (hBreak : IsBreak rest)
    {p : Char → Bool}
    (hBlank : p ' ' = false)
    (hAll : ∀ l ∈ tail, p l.char = true) :
    (tail ++ rest).takeWhile (p ·.char) = tail ∧
      (tail ++ rest).dropWhile (p ·.char) = rest := by
  rw [List.takeWhile_append_of_pos hAll,
    List.dropWhile_append_of_pos hAll]
  cases rest with
  | nil => simp
  | cons l rest =>
      have hChar : l.char = ' ' := hBreak l rfl
      simp [hChar, hBlank]

/- Whether a character is a sign. -/
def isSign (c : Char) : Bool :=
  c == '+' || c == '-'

theorem continuesNumber_of_isExponent
    (hExponent : isExponent c = true) :
    continuesNumber c = true := by
  simp only [isExponent, Bool.or_eq_true, beq_iff_eq]
    at hExponent
  rcases hExponent with ((rfl | rfl) | rfl) | rfl <;> rfl

/- A sign goes on a number behind the letter of an exponent. -/
theorem numberTail_sign
    (hExponent : isExponent l.char = true)
    (hSign : l'.char = '+' ∨ l'.char = '-')
    (rest : List Letter) :
    numberTail (l :: l' :: rest) =
      (l :: l' :: (numberTail rest).1, (numberTail rest).2) := by
  simp [numberTail, hExponent, hSign]

theorem numberTail_plain
    (hContinues : continuesNumber l.char = true)
    (hNext :
      isExponent l.char = true →
        rest.head?.any (isSign ·.char) = false) :
    numberTail (l :: rest) =
      (l :: (numberTail rest).1, (numberTail rest).2) := by
  cases rest with
  | nil => simp [numberTail, hContinues]
  | cons l' rest =>
      have hNone :
          ¬ (isExponent l.char = true ∧
            (l'.char = '+' ∨ l'.char = '-')) := by
        simpa [isSign] using hNext
      simp [numberTail, hContinues, hNone]

theorem numberTail_stop
    (hStops :
      rest.head?.any (continuesNumber ·.char) = false) :
    numberTail rest = ([], rest) := by
  cases rest with
  | nil => rfl
  | cons l rest =>
      have hStop : continuesNumber l.char = false := by
        simpa using hStops
      have hExponent : isExponent l.char = false := by
        by_contra hExponent
        rw [Bool.not_eq_false] at hExponent
        rw [continuesNumber_of_isExponent hExponent] at hStop
        cases hStop
      cases rest <;> simp [numberTail, hStop, hExponent]

theorem numberTail_isPrefix (s : List Letter) :
    (numberTail s).1 <+: s :=
  ⟨(numberTail s).2, numberTail_append s⟩

/- A number ends at a break, by induction on what it was read from. -/
theorem numberTail_break
    (hBreak : IsBreak rest)
    (s : List Letter) :
    numberTail ((numberTail s).1 ++ rest) =
      ((numberTail s).1, rest) := by
  have hStop :=
    numberTail_stop (hBreak.any_head? (p := continuesNumber) rfl)
  have hNoSign :=
    hBreak.any_head? (p := isSign) rfl
  fun_induction numberTail s with
  | case1 => exact hStop
  | case2 l hContinues =>
      rw [List.singleton_append,
        numberTail_plain hContinues fun _ => hNoSign, hStop]
  | case3 l hStops => exact hStop
  | case4 l l' more hSign taken left hTaken ih =>
      rw [hTaken] at ih
      dsimp only [List.cons_append] at ih ⊢
      rw [numberTail_sign hSign.1 hSign.2, ih]
  | case5 l l' more hNext hContinues taken left hTaken ih =>
      have hTail := numberTail_isPrefix (l' :: more)
      rw [hTaken] at ih hTail
      have hSign :
          isExponent l.char = true →
            (taken ++ rest).head?.any (isSign ·.char) =
              false := by
        intro hExponent
        have hOther : isSign l'.char = false := by
          simpa [isSign, hExponent] using hNext
        rw [any_head?_append hBreak hTail rfl]
        simp [hOther]
      dsimp only [List.cons_append] at ih ⊢
      rw [numberTail_plain hContinues hSign, ih]
  | case6 l l' more hNext hStops => exact hStop

/- The digit behind a point belongs to its number. -/
theorem numberTail_ne_nil
    (hDigit : s.head?.any (·.char.isDigit) = true) :
    (numberTail s).1 ≠ [] := by
  cases s with
  | nil => cases hDigit
  | cons l s =>
      have hContinues : continuesNumber l.char = true := by
        have hDigit : l.char.isDigit = true := by
          simpa using hDigit
        simp [continuesNumber, Char.isAlphanum, hDigit]
      have hLength := Cursor.numberTail_cons l s
      intro hNil
      rw [hNil, if_pos hContinues] at hLength
      split at hLength <;> cases hLength

------------------------------------------------------------
-- Quoted Texts
------------------------------------------------------------

variable {quote : Char}

theorem quotedTail_plain
    (hEscape : l.char ≠ '\\')
    (hFeed : l.char ≠ '\n')
    (hQuote : l.char ≠ quote)
    (rest : List Letter) :
    quotedTail quote (l :: rest) =
      (l :: (quotedTail quote rest).1,
        (quotedTail quote rest).2) := by
  cases rest <;> simp [quotedTail, hEscape, hFeed, hQuote]

/- A quoted text is read again where nothing else is behind it. -/
theorem quotedTail_again
    (quote : Char)
    (s : List Letter) :
    quotedTail quote (quotedTail quote s).1 =
      ((quotedTail quote s).1, []) := by
  fun_induction quotedTail quote s with
  | case1 | case2 | case5 => rfl
  | case3 l hNoFeed => simp [quotedTail, hNoFeed]
  | case4 l l' more hEscape taken left hTaken ih =>
      rw [hTaken] at ih
      simp [quotedTail, hEscape, ih]
  | case6 l l' more hEscape hNoFeed hQuote =>
      simp [quotedTail, hNoFeed]
  | case7 l l' more hEscape hNoFeed hQuote taken left hTaken ih =>
      rw [hTaken] at ih
      dsimp only at ih ⊢
      rw [quotedTail_plain hEscape hNoFeed hQuote, ih]

/-
  A quoted text that does not go to the end of its line ends at
  its quote, whatever is behind it.
-/
theorem quotedTail_closed
    (hClosed : ¬ EndsLine (quotedTail quote s).2)
    (rest : List Letter) :
    quotedTail quote ((quotedTail quote s).1 ++ rest) =
      ((quotedTail quote s).1, rest) := by
  fun_induction quotedTail quote s with
  | case1 => exact absurd (by simp [EndsLine]) hClosed
  | case2 l hFeed =>
      exact absurd (by simpa [EndsLine] using hFeed) hClosed
  | case3 l hNoFeed => exact absurd (by simp [EndsLine]) hClosed
  | case4 l l' more hEscape taken left hTaken ih =>
      rw [hTaken] at ih
      have hRest := ih hClosed
      dsimp only at hRest
      simp [quotedTail, hEscape, hRest]
  | case5 l l' more hEscape hFeed =>
      exact absurd (by simpa [EndsLine] using hFeed) hClosed
  | case6 l l' more hEscape hNoFeed hQuote =>
      subst hQuote
      cases rest <;> simp [quotedTail, hEscape, hNoFeed]
  | case7 l l' more hEscape hNoFeed hQuote taken left hTaken ih =>
      rw [hTaken] at ih
      have hRest := ih hClosed
      dsimp only [List.cons_append] at hRest ⊢
      rw [quotedTail_plain hEscape hNoFeed hQuote, hRest]

------------------------------------------------------------
-- Marks
------------------------------------------------------------

/- A mark without a blank ends before a break. -/
theorem isPrefixOf_break
    (hBreak : IsBreak rest)
    {mark : List Char}
    (hMark : ' ' ∉ mark)
    (window : List Char) :
    mark.isPrefixOf (window ++ chars rest) =
      mark.isPrefixOf window := by
  cases rest with
  | nil => rw [chars, List.map_nil, List.append_nil]
  | cons l rest =>
      have hChar : l.char = ' ' := hBreak l rfl
      rw [chars, List.map_cons, hChar]
      exact isPrefixOf_stop hMark window _

/- A single character in front of a break starts no long mark. -/
theorem markLength_single
    (hBreak : IsBreak rest)
    (c : Char) :
    markLength (c :: chars rest) = none := by
  rw [markLength, Option.map_eq_none_iff, List.find?_eq_none]
  intro mark hMark
  have hLong := (Cursor.length_longMarks mark hMark).1
  have hSame :
      mark.toList.isPrefixOf ([c] ++ chars rest) =
        mark.toList.isPrefixOf [c] :=
    isPrefixOf_break hBreak (not_mem_longMarks mark hMark).2 [c]
  rw [← List.singleton_append, hSame, List.isPrefixOf_iff_prefix]
  intro hPrefix
  have hLe := hPrefix.length_le
  rw [String.length_toList, List.length_singleton] at hLe
  omega

/- The first mark that fits is found again in its own characters. -/
theorem markLength_break
    (hBreak : IsBreak rest)
    {window : List Char}
    {n : Nat}
    (hFound : markLength window = some n) :
    markLength (window.take (n + 1) ++ chars rest) = some n := by
  rcases Option.map_eq_some_iff.mp hFound with
    ⟨mark, hFind, rfl⟩
  rcases List.find?_eq_some_iff_append.mp hFind with
    ⟨hFits, before, after, hMarks, hBefore⟩
  have hMem := List.mem_of_find?_eq_some hFind
  have hLong := (Cursor.length_longMarks mark hMem).1
  have hPrefix := List.isPrefixOf_iff_prefix.mp hFits
  have hTake :
      window.take (mark.length - 1 + 1) = mark.toList := by
    rw [Nat.sub_add_cancel (by omega), ← String.length_toList]
    exact (List.prefix_iff_eq_take.mp hPrefix).symm
  rw [hTake, markLength, Option.map_eq_some_iff]
  refine ⟨mark, ?_, rfl⟩
  apply List.find?_eq_some_iff_append.mpr
  refine ⟨?_, before, after, hMarks, fun earlier hEarlier => ?_⟩
  · rw [List.isPrefixOf_iff_prefix]
    exact List.prefix_append _ _
  · -- an earlier mark in front of the break is in the mark itself
    have hMem : earlier ∈ longMarks := by
      rw [hMarks]
      exact List.mem_append_left _ hEarlier
    have hNone := hBefore earlier hEarlier
    rw [isPrefixOf_break hBreak (not_mem_longMarks earlier hMem).2]
    rw [Bool.not_eq_true'] at hNone ⊢
    by_contra hEarlierFits
    rw [Bool.not_eq_false, List.isPrefixOf_iff_prefix]
      at hEarlierFits
    rw [List.isPrefixOf_iff_prefix.mpr
      (hEarlierFits.trans hPrefix)] at hNone
    cases hNone

/- What is looked at for a mark, with a break behind the mark. -/
theorem window_break
    {n : Nat}
    (hLe : n ≤ s.length)
    (c : Char)
    (rest : List Letter) :
    c :: chars ((s.take n ++ rest).take 2) =
      (c :: chars (s.take 2)).take (n + 1) ++
        chars (rest.take (2 - n)) := by
  rw [List.take_append, List.length_take_of_le hLe,
    List.take_take, Nat.min_comm, ← List.take_take, chars,
    List.map_append, List.map_take, List.take_succ_cons,
    List.cons_append]

------------------------------------------------------------
-- Tokens in Front of a Break
------------------------------------------------------------

/- Whether a character starts a number. -/
def opensNumber (c : Char) (s : List Letter) : Bool :=
  c.isDigit || (c == '.' && s.head?.any (·.char.isDigit))

/- A number starts with the same character in front of a break. -/
theorem opensNumber_break
    (hBreak : IsBreak rest)
    (hNumber : opensNumber c s = true) :
    opensNumber c ((numberTail s).1 ++ rest) = true := by
  unfold opensNumber at hNumber ⊢
  rw [any_head?_append hBreak (numberTail_isPrefix s) rfl]
  rw [Bool.or_eq_true, Bool.and_eq_true] at hNumber
  rcases hNumber with hDigit | ⟨hPoint, hDigit⟩
  · rw [hDigit, Bool.true_or]
  · simp [hPoint, hDigit, numberTail_ne_nil hDigit]

/- What starts no number does not start one in front of a break. -/
theorem not_opensNumber_break
    (hBreak : IsBreak rest)
    (hTail : tail <+: s)
    (hNumber : ¬ opensNumber c s = true) :
    ¬ opensNumber c (tail ++ rest) = true := by
  unfold opensNumber at hNumber ⊢
  rw [any_head?_append hBreak hTail rfl]
  simp only [Bool.or_eq_true, Bool.and_eq_true] at hNumber ⊢
  tauto

theorem scan_of_opensIdentifier
    (hWord : opensIdentifier c = true)
    (s : List Letter) :
    scan c s =
      { kind := .identifier
        tail := s.takeWhile (continuesIdentifier ·.char)
        rest := s.dropWhile (continuesIdentifier ·.char) } := by
  rw [scan, if_pos hWord]

theorem scan_of_opensNumber
    (hWord : ¬ opensIdentifier c = true)
    (hNumber : opensNumber c s = true) :
    scan c s =
      ⟨.number, (numberTail s).1, (numberTail s).2⟩ := by
  rw [scan, if_neg hWord]
  exact if_pos hNumber

/- What is neither a name nor a number is quoted or a mark. -/
theorem scan_of_not_opensNumber
    (hWord : ¬ opensIdentifier c = true)
    (hNumber : ¬ opensNumber c s = true) :
    scan c s =
      if c = '"' ∨ c = '\'' then
        { kind := if c = '"' then .string else .character
          tail := (quotedTail c s).1
          rest := (quotedTail c s).2 }
      else
        match markLength (c :: chars (s.take 2)) with
        | some n => ⟨.punctuation, s.take n, s.drop n⟩
        | none =>
            { kind :=
                if isPunctuation c then .punctuation else .other
              tail := []
              rest := s } := by
  rw [scan, if_neg hWord]
  exact if_neg hNumber

/-
  A token is read again in front of a break: always if nothing
  is behind it, else if it did not go to the end of its line.
-/
theorem scan_break
    (hBreak : IsBreak rest)
    (hClosed : rest = [] ∨ ¬ EndsLine (scan c s).rest) :
    scan c ((scan c s).tail ++ rest) =
      { scan c s with rest := rest } := by
  by_cases hWord : opensIdentifier c = true
  · have hEnd :=
      takeWhile_break hBreak (p := continuesIdentifier) rfl
        fun l => List.mem_takeWhile_imp (l := s)
    rw [scan_of_opensIdentifier hWord s,
      scan_of_opensIdentifier hWord, hEnd.1, hEnd.2]
  by_cases hNumber : opensNumber c s = true
  · rw [scan_of_opensNumber hWord hNumber,
      scan_of_opensNumber hWord
        (opensNumber_break hBreak hNumber),
      numberTail_break hBreak]
  have hTail : (scan c s).tail <+: s :=
    ⟨(scan c s).rest, scan_append c s⟩
  have hAgain := not_opensNumber_break hBreak hTail hNumber
  rw [scan_of_not_opensNumber hWord hAgain]
  have hScan := scan_of_not_opensNumber hWord hNumber
  by_cases hQuote : c = '"' ∨ c = '\''
  · rw [if_pos hQuote] at hScan ⊢
    rw [hScan] at hClosed ⊢
    dsimp only at hClosed ⊢
    rcases hClosed with rfl | hClosed
    · rw [List.append_nil, quotedTail_again]
    · rw [quotedTail_closed hClosed]
  · rw [if_neg hQuote] at hScan ⊢
    cases hMark : markLength (c :: chars (s.take 2)) with
    | none =>
        rw [hMark] at hScan
        rw [hScan]
        dsimp only
        rw [List.nil_append, markLength_single (hBreak.take 2)]
    | some n =>
        rw [hMark] at hScan
        rw [hScan]
        dsimp only
        have hLe := markLength_le hMark
        have hLength := List.length_take_of_le hLe
        rw [window_break hLe,
          markLength_break (hBreak.take (2 - n)) hMark]
        dsimp only
        rw [List.take_left' hLength, List.drop_left' hLength]

------------------------------------------------------------
-- Reading Tokens Again
------------------------------------------------------------

/- A token is not skipped. -/
theorem skipGap_of_opensToken
    (hOpens : OpensToken (chars s))
    (passed : Bool) :
    skipGap passed .blank s = (passed, s) := by
  cases s with
  | nil => cases hOpens
  | cons l s =>
      have hNoBlank : Text.isBlank l.char = false := hOpens.1
      have hNoComment := hOpens.2
      have hNoFeed : l.char ≠ '\n' := by
        intro hFeed
        rw [hFeed] at hNoBlank
        cases hNoBlank
      have hHead :
          s.head?.map (·.char) = (chars s).head? := by
        rw [List.head?_map]
      rw [Cursor.skipGap_cons, if_neg hNoFeed,
        if_neg (by simp [hNoBlank]), hHead,
        if_neg fun h => (hNoComment h.1).1 h.2,
        if_neg fun h => (hNoComment h.1).2 h.2]

/- No comment starts where a token is in front of a break. -/
theorem OpensToken.atBreak
    (hBreak : IsBreak rest)
    (hOpens : OpensToken (chars (l :: (tail ++ s)))) :
    OpensToken (chars (l :: (tail ++ rest))) := by
  refine ⟨hOpens.1, fun hSlash => ?_⟩
  have hNext := hOpens.2 hSlash
  cases tail with
  | cons l' tail => exact hNext
  | nil =>
      cases rest with
      | nil => simp
      | cons l' rest =>
          have hChar : l'.char = ' ' := hBreak l' rfl
          simp [hChar]

/-
  What is read where some characters stand behind the text of a
  token: the token, and then what is read of the characters.
-/
def Rereads (t : Token) (rest : List Char) : Prop :=
  ∀ fresh,
    tokens fresh (lettersOn 0 (t.text.toList ++ rest)) =
      { t.bare with startsLine := fresh } ::
        tokens false (lettersOn 0 rest)

/- A token that is read again in front of a blank. -/
def Closed (t : Token) : Prop :=
  ∀ rest, Rereads t (' ' :: rest)

/- A token and what is behind it are read apart at a break. -/
theorem tokens_break
    (hOpens : OpensToken (chars (l :: s)))
    (hBreak : IsBreak rest)
    (hClosed : rest = [] ∨ ¬ EndsLine (scan l.char s).rest)
    (fresh : Bool) :
    tokens fresh (l :: ((scan l.char s).tail ++ rest)) =
      toToken l fresh (scan l.char s) :: tokens false rest := by
  rw [← scan_append l.char s] at hOpens
  rw [tokens_eq, skipGap_of_opensToken (hOpens.atBreak hBreak)]
  dsimp only
  rw [scan_break hBreak hClosed]
  rfl

theorem rereads_toToken
    {rest : List Char}
    (hOpens : OpensToken (chars (l :: s)))
    (hBreak : IsBreak (lettersOn 0 rest))
    (hClosed : rest = [] ∨ ¬ EndsLine (scan l.char s).rest)
    (startsLine : Bool) :
    Rereads (toToken l startsLine (scan l.char s)) rest := by
  intro fresh
  have hRead :=
    tokens_break hOpens hBreak
      (hClosed.imp_left fun hNil => by rw [hNil]; rfl) fresh
  have hLetters :
      lettersOn 0
          ((toToken l startsLine (scan l.char s)).text.toList ++
            rest) =
        (l :: ((scan l.char s).tail ++ lettersOn 0 rest)).map
          Letter.bare := by
    simp [toToken, lettersOn, Letter.bare, Function.comp_def]
  rw [hLetters, tokens_bare, hRead, List.map_cons,
    ← tokens_bare, lettersOn_bare]
  rfl

/- A line feed is skipped, and the next token opens a line. -/
theorem tokens_feed
    (hFeed : l.char = '\n')
    (fresh : Bool)
    (rest : List Letter) :
    tokens fresh (l :: rest) = tokens true rest := by
  rw [tokens_eq, Cursor.skipGap_cons, if_pos hFeed, ← tokens_eq]

/- Behind the end of a line, the next token opens a line. -/
theorem EndsLine.startsLine
    {t : Token}
    (hEnds : EndsLine rest)
    (hNext : t ∈ (tokens false rest).head?) :
    t.startsLine = true := by
  cases rest with
  | nil =>
      rw [tokens_eq] at hNext
      cases hNext
  | cons l rest =>
      rw [tokens_feed (hEnds l rfl)] at hNext
      exact startsLine_of_mem_head? hNext

/-
  The tokens of some letters are read again, and in front of a
  blank too where the next token does not open a line; by
  induction on the letters.
-/
theorem tokens_reread
    (fresh : Bool)
    (s : List Letter) :
    (∀ t ∈ tokens fresh s, Rereads t []) ∧
      (tokens fresh s).IsChain fun t u =>
        u.startsLine = false → Closed t := by
  fun_induction tokens fresh s with
  | case1 => exact ⟨by simp, .nil⟩
  | case2 fresh s startsLine l rest hGap t ih =>
      have hOpens : OpensToken (chars (l :: rest)) := by
        have hStops :=
          stopsAt_skipGap fresh .blank s (by rw [hGap]; simp)
        rw [hGap] at hStops
        exact hStops.opens
      constructor
      · refine List.forall_mem_cons.mpr ⟨?_, ih.1⟩
        have hBreak : IsBreak (lettersOn 0 []) := isBreak_nil
        exact
          rereads_toToken hOpens hBreak (Or.inl rfl) startsLine
      · refine List.isChain_cons.mpr
          ⟨fun u hNext hSameLine more => ?_, ih.2⟩
        have hOpen : ¬ EndsLine t.rest := by
          intro hEnds
          rw [hEnds.startsLine hNext] at hSameLine
          cases hSameLine
        exact
          rereads_toToken hOpens (by simp [IsBreak, lettersOn])
            (Or.inr hOpen) startsLine

/- A spelling is read as what it spells, by induction on the tokens. -/
theorem contents_tokens_spell
    {ts : List Token}
    (hAlone : ∀ t ∈ ts, Rereads t [])
    (hClosed : ts.IsChain fun t _ => Closed t)
    (fresh : Bool) :
    Token.contents
        (tokens fresh (lettersOn 0 (Token.spell ts).toList)) =
      Token.contents ts := by
  induction ts generalizing fresh with
  | nil =>
      rw [tokens_eq]
      rfl
  | cons t ts ih =>
      cases ts with
      | nil =>
          have hRead := hAlone t List.mem_cons_self fresh
          rw [List.append_nil] at hRead
          rw [Token.spell_singleton, hRead, lettersOn,
            List.map_nil, tokens_eq]
          rfl
      | cons u ts =>
          have hChain := List.isChain_cons_cons.mp hClosed
          have hRest :=
            ih (fun t ht => hAlone t (List.mem_cons_of_mem _ ht))
              hChain.2 false
          have hBlank :
              tokens false
                  (lettersOn 0
                    (' ' :: (Token.spell (u :: ts)).toList)) =
                tokens false
                  (lettersOn 0 (Token.spell (u :: ts)).toList) :=
            tokens_blank rfl false _
          rw [Token.toList_spell_cons, hChain.1 _ fresh, hBlank]
          exact congrArg ((t.kind, t.text) :: ·) hRest

------------------------------------------------------------
-- Characters of Tokens
------------------------------------------------------------

/- Characters that end no line stay as they are. -/
theorem splice_eq_lettersOn
    {cs : List Char}
    (hChars : ∀ c ∈ cs, c ≠ '\n' ∧ c ≠ '\r')
    (line : Nat) :
    splice line cs = lettersOn line cs := by
  fun_induction splice line cs with
  | case1 => rfl
  | case7 line c rest _ _ _ _ _ ih =>
      rw [ih fun d hd => hChars d (List.mem_cons_of_mem c hd)]
      rfl
  | _ => simp at hChars

theorem ne_return_of_mem_splice
    (line : Nat)
    (text : List Char) :
    ∀ l ∈ splice line text, l.char ≠ '\r' := by
  fun_induction splice line text <;> grind

/- The characters of tokens are among those that they are read from. -/
theorem Renders.text_subset
    {fresh : Bool}
    {t : Token}
    {ts : List Token}
    (hRenders : Renders fresh s ts)
    (hMem : t ∈ ts) :
    t.text.toList ⊆ chars s := by
  induction hRenders with
  | done hGap => cases hMem
  | token hGap hOpens hPiece hMade hStarts hRest ih =>
      intro c hc
      rw [chars, List.map_append, List.map_append]
      rcases List.mem_cons.mp hMem with rfl | hMem
      · rw [hMade.text_eq, String.toList_ofList] at hc
        exact
          List.mem_append_left _ (List.mem_append_right _ hc)
      · exact List.mem_append_right _ (ih hMem hc)

end Lexer

namespace Token

open Lexer

------------------------------------------------------------
-- Tokens of a Line
------------------------------------------------------------

/- Two neighbours in a chain are related. -/
theorem rel_of_isInfix
    {R : Token → Token → Prop}
    {t u : Token}
    {ts : List Token}
    (hChain : ts.IsChain R)
    (hNext : [t, u] <:+: ts) :
    R t u := by
  rcases hNext with ⟨front, back, rfl⟩
  rw [List.append_assoc] at hChain
  exact (List.isChain_append_cons_cons.mp hChain).2.1

/-
  Tokens next to each other on a logical line of a text, as the
  whole line or the operands of a directive are; none of them
  has a line feed in it.
-/
structure StandsOnLine
    (text : String)
    (ts : List Token) : Prop where
  isPart : ∃ line ∈ logicalLines (tokenize text), ts <:+: line
  noFeed : ∀ t ∈ ts, '\n' ∉ t.text.toList

namespace StandsOnLine

variable {text text' : String}
variable {ts us : List Token}

/- The tokens of a text of one line stand on it. -/
theorem ofSingleLine
    (hLine : logicalLines (tokenize text) = [ts])
    (hFeeds : (ts.any (·.text.toList.contains '\n')) = false) :
    StandsOnLine text ts where
  isPart := by
    rw [hLine]
    exact ⟨ts, List.mem_singleton_self ts, List.infix_rfl⟩
  noFeed := by
    intro t ht hFeed
    rw [List.any_eq_false] at hFeeds
    exact hFeeds t ht (List.contains_iff_mem.mpr hFeed)

theorem infix_tokenize
    (hStands : StandsOnLine text ts) :
    ts <:+: tokenize text := by
  rcases hStands.isPart with ⟨line, hLine, hPart⟩
  have hAll :=
    List.flatten_splitBy
      (fun _ next : Token => !next.startsLine) (tokenize text)
  exact
    hPart.trans (hAll ▸ List.infix_of_mem_flatten hLine)

theorem rereads
    (hStands : StandsOnLine text ts) :
    ∀ t ∈ ts, Rereads t [] :=
  fun t ht =>
    (tokens_reread true _).1 t (hStands.infix_tokenize.mem ht)

/- Only the last token of a line can be one that is left open. -/
theorem closed
    (hStands : StandsOnLine text ts) :
    ts.IsChain fun t _ => Closed t := by
  rcases hStands.isPart with ⟨line, hLine, hPart⟩
  have hChain := (tokens_reread true (splice 1 text.toList)).2
  apply (List.isChain_isInfix ts).imp
  intro t u hNext
  have hSame : (!u.startsLine) = true :=
    rel_of_isInfix (List.isChain_of_mem_splitBy hLine)
      (hNext.trans hPart)
  rw [Bool.not_eq_true'] at hSame
  exact
    rel_of_isInfix hChain
      (hNext.trans hStands.infix_tokenize) hSame

/- A spelling has no character that ends a line. -/
theorem splice_spell
    (hStands : StandsOnLine text ts)
    (line : Nat) :
    splice line (spell ts).toList =
      lettersOn line (spell ts).toList := by
  apply splice_eq_lettersOn
  intro c hMem
  rcases exists_of_mem_spell hMem with rfl | ⟨t, ht, hc⟩
  · decide
  · constructor
    · rintro rfl
      exact hStands.noFeed t ht hc
    · rintro rfl
      have hText :=
        (renders_tokens true (splice 1 text.toList)).text_subset
          (hStands.infix_tokenize.mem ht) hc
      rcases List.mem_map.mp hText with ⟨l, hl, hReturn⟩
      exact ne_return_of_mem_splice 1 _ l hl hReturn

theorem contents_spell
    (hStands : StandsOnLine text ts) :
    contents (tokenize (spell ts)) = contents ts := by
  unfold tokenize
  rw [hStands.splice_spell, ← contents_bare, ← tokens_bare,
    lettersOn_bare]
  exact
    contents_tokens_spell hStands.rereads hStands.closed true

end StandsOnLine

/-
  The spelling of tokens on a line is read as tokens of the same
  kinds and texts, so tokens on lines, of one text or of two,
  that have the same spelling are the same ones.
-/
theorem spelling_identifies
    {text : String}
    {ts : List Token}
    (hStands : StandsOnLine text ts) :
    contents (tokenize (spell ts)) = contents ts ∧
      ∀ text' us, StandsOnLine text' us →
        (spell ts = spell us ↔ contents ts = contents us) := by
  refine ⟨hStands.contents_spell, fun text' us hOthers => ?_⟩
  constructor
  · intro hSpell
    rw [← hStands.contents_spell, ← hOthers.contents_spell,
      hSpell]
  · exact spell_eq_of_contents_eq

/-
  A directive with a number, signs and quotes, the last of which
  is left open; and the same one with other gaps.
-/
def quotedDirective : String :=
  "#if a+ ++.5e+1 \"b\\\"\"/**/\"c \\"

def gappedDirective : String :=
  "# if a\\\n + ++ .5e+1/* */\"b\\\"\" \"c \\"

theorem spelling_identifies_quotedDirective :
    StandsOnLine quotedDirective (tokenize quotedDirective) ∧
      StandsOnLine gappedDirective (tokenize gappedDirective) ∧
      spell (tokenize quotedDirective) =
        "# if a + ++ .5e+1 \"b\\\"\" \"c \\" ∧
      contents (tokenize (spell (tokenize quotedDirective))) =
        contents (tokenize quotedDirective) ∧
      contents (tokenize quotedDirective) =
        contents (tokenize gappedDirective) := by
  have hQuoted :
      StandsOnLine quotedDirective (tokenize quotedDirective) :=
    .ofSingleLine (by cbv) (by cbv)
  have hGapped :
      StandsOnLine gappedDirective (tokenize gappedDirective) :=
    .ofSingleLine (by cbv) (by cbv)
  have hIdentifies := spelling_identifies hQuoted
  have hSpell :
      spell (tokenize quotedDirective) =
        spell (tokenize gappedDirective) := by cbv
  exact
    ⟨hQuoted, hGapped, by cbv, hIdentifies.1,
      (hIdentifies.2 gappedDirective _ hGapped).mp hSpell⟩

end Token

end Variability
