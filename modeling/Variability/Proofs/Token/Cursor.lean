import Variability.Proofs.Token.Lossless

/-
  Reading tokens by a cursor.

  The letters of a text stand in an array, and a cursor goes over
  it: through gaps, then to the end of a token, whose text is cut
  out of the array. Reading ends, as every turn takes the cursor
  further, and no index is out of bounds, not even behind a
  backslash at the very end. What is read are the tokens of the
  letters that the cursor has still in front of it.

  Main declarations:
    * `Lexer.Cursor.readFrom`
    * `Lexer.Cursor.tokenEnd_spec`
    * `Lexer.Cursor.readFrom_eq`
    * `Lexer.tokenize_lossless`
-/

namespace Variability

namespace Lexer

namespace Cursor

------------------------------------------------------------
-- Going over Gaps
------------------------------------------------------------

/- The character at a place, if there is one. -/
def peek (s : Array Letter) (pos : Nat) : Option Char :=
  (s[pos]?).map (·.char)

/- The next line feed, or the end. -/
def lineEnd (s : Array Letter) (pos : Nat) : Nat :=
  if h : pos < s.size then
    if s[pos].char = '\n' then pos
    else lineEnd s (pos + 1)
  else
    pos
  termination_by s.size - pos

/- The place behind the next end of a block comment, or the end. -/
def commentEnd (s : Array Letter) (pos : Nat) : Nat :=
  if h : pos < s.size then
    if s[pos].char = '*' ∧ peek s (pos + 1) = some '/' then
      pos + 2
    else
      commentEnd s (pos + 1)
  else
    pos
  termination_by s.size - pos

theorem le_lineEnd (s : Array Letter) (pos : Nat) :
    pos ≤ lineEnd s pos := by
  fun_induction lineEnd s pos <;> omega

theorem le_commentEnd (s : Array Letter) (pos : Nat) :
    pos ≤ commentEnd s pos := by
  fun_induction commentEnd s pos <;> omega

/- A line comment is not over where it starts. -/
theorem lt_lineEnd
    {s : Array Letter}
    {pos : Nat}
    (h : pos < s.size)
    (hNoFeed : s[pos].char ≠ '\n') :
    pos < lineEnd s pos := by
  rw [lineEnd, dif_pos h, if_neg hNoFeed]
  exact le_lineEnd s (pos + 1)

/-
  The place of the next token, or the end, and whether a line
  feed outside block comments was passed.
-/
def skip (s : Array Letter) (passed : Bool) (pos : Nat) :
    Bool × Nat :=
  if h : pos < s.size then
    if s[pos].char = '\n' then
      skip s true (pos + 1)
    else if Text.isBlank s[pos].char then
      skip s passed (pos + 1)
    else if s[pos].char = '/' ∧ peek s (pos + 1) = some '/' then
      skip s passed (lineEnd s pos)
    else if s[pos].char = '/' ∧ peek s (pos + 1) = some '*' then
      skip s passed (commentEnd s (pos + 2))
    else
      (passed, pos)
  else
    (passed, pos)
  termination_by s.size - pos
  decreasing_by
    · omega
    · omega
    · have hLt := lt_lineEnd h ‹_›
      omega
    · have hLe := le_commentEnd s (pos + 2)
      omega

------------------------------------------------------------
-- Going over Tokens
------------------------------------------------------------

/- The end of the characters of some kind. -/
def wordEnd (p : Char → Bool) (s : Array Letter) (pos : Nat) :
    Nat :=
  if h : pos < s.size then
    if p s[pos].char then wordEnd p s (pos + 1) else pos
  else
    pos
  termination_by s.size - pos

/- The end of a number; a sign may follow the letter of an exponent. -/
def numberEnd (s : Array Letter) (pos : Nat) : Nat :=
  if h : pos < s.size then
    if isExponent s[pos].char ∧
        (peek s (pos + 1) = some '+' ∨
          peek s (pos + 1) = some '-') then
      numberEnd s (pos + 2)
    else if continuesNumber s[pos].char then
      numberEnd s (pos + 1)
    else
      pos
  else
    pos
  termination_by s.size - pos

/-
  Where the search for a quote ends. It goes two places on from
  a backslash, and so can end behind the end of the letters.
-/
def quoteEnd (quote : Char) (s : Array Letter) (pos : Nat) :
    Nat :=
  if h : pos < s.size then
    if s[pos].char = '\\' then quoteEnd quote s (pos + 2)
    else if s[pos].char = '\n' then pos
    else if s[pos].char = quote then pos + 1
    else quoteEnd quote s (pos + 1)
  else
    pos
  termination_by s.size - pos

/- Whether the characters from a place on start with a mark. -/
def isAt (s : Array Letter) (pos : Nat) (mark : String) : Bool :=
  mark.toList.zipIdx.all fun (c, i) =>
    peek s (pos + i) = some c

/- The kind of the token that opens with a character, and its end. -/
def tokenEnd (s : Array Letter) (pos : Nat) (c : Char) :
    TokenKind × Nat :=
  if opensIdentifier c then
    (.identifier, wordEnd continuesIdentifier s pos)
  else if c.isDigit ||
      (c == '.' && (peek s (pos + 1)).any Char.isDigit) then
    (.number, numberEnd s (pos + 1))
  else if c = '"' ∨ c = '\'' then
    (if c = '"' then .string else .character,
      min (quoteEnd c s (pos + 1)) s.size)
  else
    match longMarks.find? (isAt s pos) with
    | some mark => (.punctuation, pos + mark.length)
    | none =>
        (if isPunctuation c then .punctuation else .other, pos + 1)

/- The letters between two places, if these are in bounds. -/
def cut? (s : Array Letter) (start stop : Nat) :
    Option (List Letter) :=
  if start ≤ stop ∧ stop ≤ s.size then
    some (s.extract start stop).toList
  else
    none

/- The letter in front of a place, if it is in bounds. -/
def lastBefore? (s : Array Letter) (stop : Nat) :
    Option Letter :=
  match stop with
  | 0 => none
  | i + 1 => s[i]?

------------------------------------------------------------
-- What Is Ahead
------------------------------------------------------------

/- The letters from a place on. -/
def ahead (s : Array Letter) (pos : Nat) : List Letter :=
  s.toList.drop pos

variable {s : Array Letter}
variable {pos : Nat}

theorem ahead_of_lt (h : pos < s.size) :
    ahead s pos = s[pos] :: ahead s (pos + 1) := by
  unfold ahead
  rw [List.drop_eq_getElem_cons (by simpa using h)]
  rfl

theorem ahead_of_le (h : ¬ pos < s.size) :
    ahead s pos = [] := by
  unfold ahead
  rw [List.drop_eq_nil_iff, Array.length_toList]
  omega

theorem ahead_add (n : Nat) :
    ahead s (pos + n) = (ahead s pos).drop n := by
  unfold ahead
  rw [List.drop_drop]

theorem length_ahead :
    (ahead s pos).length = s.size - pos := by
  unfold ahead
  rw [List.length_drop, Array.length_toList]

theorem getElem?_eq_head? :
    s[pos]? = (ahead s pos).head? := by
  unfold ahead
  rw [List.head?_drop, Array.getElem?_toList]

theorem peek_eq :
    peek s pos = (ahead s pos).head?.map (·.char) := by
  unfold peek
  rw [getElem?_eq_head?]

/- One step through a gap, however much is behind it. -/
theorem skipGap_cons
    (passed : Bool)
    (l : Letter)
    (rest : List Letter) :
    skipGap passed .blank (l :: rest) =
      if l.char = '\n' then skipGap true .blank rest
      else if Text.isBlank l.char then
        skipGap passed .blank rest
      else if l.char = '/' ∧
          rest.head?.map (·.char) = some '/' then
        skipGap passed .lineComment rest.tail
      else if l.char = '/' ∧
          rest.head?.map (·.char) = some '*' then
        skipGap passed .blockComment rest.tail
      else (passed, l :: rest) := by
  cases rest <;> simp [skipGap]

/- One step through a block comment. -/
theorem skipGap_blockComment_cons
    (passed : Bool)
    (l : Letter)
    (rest : List Letter) :
    skipGap passed .blockComment (l :: rest) =
      if l.char = '*' ∧ rest.head?.map (·.char) = some '/' then
        skipGap passed .blank rest.tail
      else skipGap passed .blockComment rest := by
  cases rest <;> simp [skipGap]

theorem tail_ahead : (ahead s pos).tail = ahead s (pos + 1) := by
  rw [ahead_add, List.drop_one]

theorem tail_ahead_succ :
    (ahead s (pos + 1)).tail = ahead s (pos + 2) :=
  tail_ahead

theorem skipGap_lineComment (passed : Bool) :
    skipGap passed .lineComment (ahead s pos) =
      skipGap passed .blank (ahead s (lineEnd s pos)) := by
  fun_induction lineEnd s pos with
  | case1 pos h hFeed =>
      rw [ahead_of_lt h, skipGap_cons, skipGap]
      simp [hFeed]
  | case2 pos h hNoFeed ih =>
      rw [ahead_of_lt h, skipGap]
      simpa [hNoFeed] using ih
  | case3 pos h =>
      rw [ahead_of_le h]
      simp [skipGap]

theorem skipGap_blockComment (passed : Bool) :
    skipGap passed .blockComment (ahead s pos) =
      skipGap passed .blank (ahead s (commentEnd s pos)) := by
  fun_induction commentEnd s pos with
  | case1 pos h hEnd =>
      rw [peek_eq] at hEnd
      rw [ahead_of_lt h, skipGap_blockComment_cons, if_pos hEnd,
        tail_ahead]
  | case2 pos h hNoEnd ih =>
      rw [peek_eq] at hNoEnd
      rw [ahead_of_lt h, skipGap_blockComment_cons,
        if_neg hNoEnd, ih]
  | case3 pos h =>
      rw [ahead_of_le h]
      simp [skipGap]

theorem lineEnd_of_peek
    {c : Char}
    (hPeek : peek s pos = some c)
    (hNoFeed : c ≠ '\n') :
    lineEnd s pos = lineEnd s (pos + 1) := by
  rcases Option.map_eq_some_iff.mp hPeek with ⟨l, hl, rfl⟩
  rcases Array.getElem?_eq_some_iff.mp hl with ⟨h, rfl⟩
  rw [lineEnd, dif_pos h, if_neg hNoFeed]

/- Going over a gap is skipping it. -/
theorem skipGap_ahead (passed : Bool) :
    skipGap passed .blank (ahead s pos) =
      ((skip s passed pos).1, ahead s (skip s passed pos).2) := by
  fun_induction skip s passed pos with
  | case1 passed pos h hFeed ih =>
      rw [ahead_of_lt h, skipGap_cons, if_pos hFeed, ih]
  | case2 passed pos h hNoFeed hBlank ih =>
      rw [ahead_of_lt h, skipGap_cons, if_neg hNoFeed,
        if_pos hBlank, ih]
  | case3 passed pos h hNoFeed hNoBlank hSlashes ih =>
      have hNext := hSlashes
      rw [peek_eq] at hNext
      have hEnd : lineEnd s pos = lineEnd s (pos + 1 + 1) := by
        rw [lineEnd, dif_pos h, if_neg hNoFeed]
        exact lineEnd_of_peek hSlashes.2 (by decide)
      rw [ahead_of_lt h, skipGap_cons, if_neg hNoFeed,
        if_neg hNoBlank, if_pos hNext, tail_ahead,
        skipGap_lineComment, ← hEnd, ih]
  | case4 passed pos h hNoFeed hNoBlank hNoLine hOpening ih =>
      have hNext := hOpening
      rw [peek_eq] at hNoLine hNext
      rw [ahead_of_lt h, skipGap_cons, if_neg hNoFeed,
        if_neg hNoBlank, if_neg hNoLine, if_pos hNext,
        tail_ahead, skipGap_blockComment, ih]
  | case5 passed pos h hNoFeed hNoBlank hNoLine hNoBlock =>
      rw [peek_eq] at hNoLine hNoBlock
      rw [ahead_of_lt h, skipGap_cons, if_neg hNoFeed,
        if_neg hNoBlank, if_neg hNoLine, if_neg hNoBlock]
  | case6 passed pos h =>
      rw [ahead_of_le h]
      rfl

------------------------------------------------------------
-- Where Tokens End
------------------------------------------------------------

theorem wordEnd_eq (p : Char → Bool) :
    wordEnd p s pos =
      pos + ((ahead s pos).takeWhile (p ·.char)).length := by
  fun_induction wordEnd p s pos with
  | case1 pos h hMember ih =>
      rw [ahead_of_lt h, List.takeWhile_cons, if_pos hMember, ih,
        List.length_cons]
      omega
  | case2 pos h hStop =>
      rw [ahead_of_lt h, List.takeWhile_cons, if_neg hStop]
      rfl
  | case3 pos h =>
      rw [ahead_of_le h]
      rfl

/- One step through a number, however much is behind it. -/
theorem numberTail_cons
    (l : Letter)
    (rest : List Letter) :
    (numberTail (l :: rest)).1.length =
      if isExponent l.char ∧
          (rest.head?.map (·.char) = some '+' ∨
            rest.head?.map (·.char) = some '-') then
        (numberTail rest.tail).1.length + 2
      else if continuesNumber l.char then
        (numberTail rest).1.length + 1
      else 0 := by
  cases rest with
  | nil =>
      simp only [numberTail]
      split <;> simp
  | cons l' rest =>
      simp only [numberTail, List.head?_cons, Option.map_some,
        Option.some.injEq, List.tail_cons]
      split
      · rfl
      · split <;> rfl

theorem numberEnd_eq :
    numberEnd s pos =
      pos + (numberTail (ahead s pos)).1.length := by
  fun_induction numberEnd s pos with
  | case1 pos h hSign ih =>
      rw [peek_eq] at hSign
      rw [ahead_of_lt h, numberTail_cons, if_pos hSign,
        tail_ahead_succ, ih]
      omega
  | case2 pos h hNoSign hMember ih =>
      rw [peek_eq] at hNoSign
      rw [ahead_of_lt h, numberTail_cons, if_neg hNoSign,
        if_pos hMember, ih]
      omega
  | case3 pos h hNoSign hStop =>
      rw [peek_eq] at hNoSign
      rw [ahead_of_lt h, numberTail_cons, if_neg hNoSign,
        if_neg hStop]
      rfl
  | case4 pos h =>
      rw [ahead_of_le h]
      rfl

theorem length_quotedTail_le
    (quote : Char)
    (s : List Letter) :
    (quotedTail quote s).1.length ≤ s.length := by
  have hLength := congrArg List.length (quotedTail_append quote s)
  rw [List.length_append] at hLength
  omega

/- One step through a quoted text, however much is behind it. -/
theorem quotedTail_cons
    (quote : Char)
    (l : Letter)
    (rest : List Letter) :
    (quotedTail quote (l :: rest)).1.length =
      if l.char = '\\' then
        min ((quotedTail quote rest.tail).1.length + 2)
          (rest.length + 1)
      else if l.char = '\n' then 0
      else if l.char = quote then 1
      else (quotedTail quote rest).1.length + 1 := by
  cases rest with
  | nil =>
      simp only [quotedTail]
      by_cases hEscape : l.char = '\\'
      · simp [hEscape]
      · by_cases hFeed : l.char = '\n' <;>
          simp [hEscape, hFeed]
  | cons l' rest =>
      have hLe := length_quotedTail_le quote rest
      simp only [quotedTail, List.tail_cons, List.length_cons]
      split
      · simp only [List.length_cons]
        omega
      split
      · rfl
      split
      · rfl
      · rfl

/-
  The search for a quote ends where the quoted text does, once
  what is behind the end of the letters is taken back.
-/
theorem quoteEnd_eq (quote : Char) :
    min (quoteEnd quote s pos) s.size =
      min pos s.size +
        (quotedTail quote (ahead s pos)).1.length := by
  fun_induction quoteEnd quote s pos with
  | case1 pos h hEscape ih =>
      have hLe := length_quotedTail_le quote (ahead s (pos + 2))
      have hAhead :
          (ahead s (pos + 1)).length = s.size - (pos + 1) :=
        length_ahead
      rw [length_ahead] at hLe
      rw [ahead_of_lt h, quotedTail_cons, if_pos hEscape,
        tail_ahead_succ, ih]
      omega
  | case2 pos h hNoEscape hFeed =>
      rw [ahead_of_lt h, quotedTail_cons, if_neg hNoEscape,
        if_pos hFeed]
      rfl
  | case3 pos h hNoEscape hNoFeed hQuote =>
      rw [ahead_of_lt h, quotedTail_cons, if_neg hNoEscape,
        if_neg hNoFeed, if_pos hQuote]
      omega
  | case4 pos h hNoEscape hNoFeed hNoQuote ih =>
      rw [ahead_of_lt h, quotedTail_cons, if_neg hNoEscape,
        if_neg hNoFeed, if_neg hNoQuote, ih]
      omega
  | case5 pos h =>
      rw [ahead_of_le h]
      rfl

/- A list of characters is ahead if every one stands in its place. -/
theorem all_zipIdx_eq_isPrefixOf
    (cs : List Char)
    (k : Nat) :
    ((cs.zipIdx k).all fun (c, i) => peek s (pos + i) = some c) =
      cs.isPrefixOf (chars (ahead s (pos + k))) := by
  induction cs generalizing k with
  | nil => rfl
  | cons c cs ih =>
      rw [List.zipIdx_cons, List.all_cons, ih (k + 1)]
      dsimp only
      rw [peek_eq, ← Nat.add_assoc, ← tail_ahead]
      cases ahead s (pos + k) with
      | nil => simp
      | cons l rest =>
          simp [List.isPrefixOf_cons_cons, Bool.beq_eq_decide_eq,
            eq_comm]

theorem isAt_eq (mark : String) :
    isAt s pos mark =
      mark.toList.isPrefixOf (chars (ahead s pos)) :=
  all_zipIdx_eq_isPrefixOf mark.toList 0

theorem length_longMarks :
    ∀ mark ∈ longMarks, 2 ≤ mark.length ∧ mark.length ≤ 3 := by
  decide

/- The window of three characters is wide enough for all marks. -/
theorem isAt_eq_window
    (h : pos < s.size)
    {mark : String}
    (hMark : mark ∈ longMarks) :
    isAt s pos mark =
      mark.toList.isPrefixOf
        (s[pos].char :: chars ((ahead s (pos + 1)).take 2)) := by
  have hLength := (length_longMarks mark hMark).2
  have hWindow :
      s[pos].char :: chars ((ahead s (pos + 1)).take 2) =
        (chars (ahead s pos)).take 3 := by
    rw [ahead_of_lt h, chars, chars, List.map_take]
    rfl
  rw [isAt_eq, hWindow, Bool.eq_iff_iff, List.isPrefixOf_iff_prefix,
    List.isPrefixOf_iff_prefix, List.prefix_take_iff]
  exact ⟨fun hPrefix => ⟨hPrefix, hLength⟩, And.left⟩

/- The marks that are ahead have enough letters ahead. -/
theorem length_le_of_isAt
    {mark : String}
    (hAt : isAt s pos mark = true) :
    mark.length ≤ s.size - pos := by
  rw [isAt_eq, List.isPrefixOf_iff_prefix] at hAt
  have hLe := hAt.length_le
  rw [chars, List.length_map, length_ahead] at hLe
  exact hLe

/-
  The end of a token is where scanning stops; one case for each
  kind of token.
-/
theorem tokenEnd_spec (h : pos < s.size) :
    tokenEnd s pos s[pos].char =
      ((scan s[pos].char (ahead s (pos + 1))).kind,
        pos + 1 +
          (scan s[pos].char (ahead s (pos + 1))).tail.length) := by
  have hDigit :
      (peek s (pos + 1)).any Char.isDigit =
        (ahead s (pos + 1)).head?.any (·.char.isDigit) := by
    rw [peek_eq, Option.any_map]
  unfold tokenEnd scan
  rw [hDigit]
  split
  · rename_i hWord
    rw [wordEnd_eq, ahead_of_lt h, List.takeWhile_cons,
      if_pos (continues_of_opens hWord), List.length_cons,
      Nat.add_right_comm]
    rfl
  split
  · rw [numberEnd_eq]
  split
  · rw [quoteEnd_eq, Nat.min_eq_left h]
  · have hFind :
        longMarks.find? (isAt s pos) =
          longMarks.find? (·.toList.isPrefixOf
            (s[pos].char ::
              chars ((ahead s (pos + 1)).take 2))) :=
      List.find?_congr fun mark hMark => isAt_eq_window h hMark
    unfold markLength
    rw [← hFind]
    cases hMark : longMarks.find? (isAt s pos) with
    | none => rfl
    | some mark =>
        have hLong :=
          length_longMarks mark (List.mem_of_find?_eq_some hMark)
        have hLe :=
          length_le_of_isAt (List.find?_some hMark)
        simp only [Option.map_some, List.length_take,
          length_ahead, Prod.mk.injEq, true_and]
        omega

------------------------------------------------------------
-- Reading
------------------------------------------------------------

theorem le_skip (passed : Bool) :
    pos ≤ (skip s passed pos).2 := by
  fun_induction skip s passed pos with
  | case1 passed pos h hFeed ih => omega
  | case2 passed pos h hNoFeed hBlank ih => omega
  | case3 passed pos h hNoFeed hNoBlank hSlashes ih =>
      have hLe := le_lineEnd s pos
      omega
  | case4 passed pos h hNoFeed hNoBlank hNoLine hOpening ih =>
      have hLe := le_commentEnd s (pos + 2)
      omega
  | case5 | case6 => exact Nat.le_refl _

theorem lt_tokenEnd (h : pos < s.size) :
    pos < (tokenEnd s pos s[pos].char).2 := by
  rw [tokenEnd_spec h]
  omega

/-
  Read all tokens from a place on; `none` if an index is out of
  bounds. Every token takes the place further.
-/
def readFrom (s : Array Letter) (fresh : Bool) (pos : Nat) :
    Option (List Token) :=
  let startsLine := (skip s fresh pos).1
  let start := (skip s fresh pos).2
  if h : start < s.size then
    let kind := (tokenEnd s start s[start].char).1
    let stop := (tokenEnd s start s[start].char).2
    (cut? s start stop).bind fun piece =>
      (lastBefore? s stop).bind fun last =>
        (readFrom s false stop).map fun ts =>
          { kind := kind
            text := String.ofList (chars piece)
            line := s[start].line
            endLine := last.line
            startsLine := startsLine } :: ts
  else
    some []
  termination_by s.size - pos
  decreasing_by
    have hFrom : pos ≤ start := le_skip fresh
    exact
      Nat.sub_lt_sub_left (Nat.lt_of_le_of_lt hFrom h)
        (Nat.lt_of_le_of_lt hFrom (lt_tokenEnd h))

/- A first letter, its tail and what scanning leaves are ahead. -/
theorem ahead_eq_scan (h : pos < s.size) :
    ahead s pos =
      s[pos] ::
        ((scan s[pos].char (ahead s (pos + 1))).tail ++
          (scan s[pos].char (ahead s (pos + 1))).rest) := by
  rw [scan_append, ahead_of_lt h]

/- What a token consists of is in bounds. -/
theorem cut?_tokenEnd (h : pos < s.size) :
    cut? s pos (tokenEnd s pos s[pos].char).2 =
      some (s[pos] ::
        (scan s[pos].char (ahead s (pos + 1))).tail) := by
  have hAhead := ahead_eq_scan h
  have hLength := congrArg List.length hAhead
  rw [length_ahead, List.length_cons, List.length_append]
    at hLength
  rw [tokenEnd_spec h, cut?, if_pos ⟨by omega, by omega⟩,
    Array.toList_extract, List.extract_eq_take_drop]
  change some (List.take _ (ahead s pos)) = _
  rw [hAhead, Nat.add_assoc, Nat.add_sub_cancel_left,
    Nat.add_comm 1, List.take_succ_cons, List.take_left]

/- The last letter of a token is in bounds. -/
theorem lastBefore?_tokenEnd (h : pos < s.size) :
    lastBefore? s (tokenEnd s pos s[pos].char).2 =
      some (((scan s[pos].char
        (ahead s (pos + 1))).tail.getLast?).getD s[pos]) := by
  rw [tokenEnd_spec h, Nat.add_right_comm, lastBefore?,
    getElem?_eq_head?, ahead_add, List.head?_drop,
    ahead_eq_scan h, ← List.cons_append,
    List.getElem?_append_left (by simp)]
  rw [← List.getLast?_cons, List.getLast?_eq_getElem?]
  rfl

/- What is ahead of a token is what scanning leaves. -/
theorem ahead_tokenEnd (h : pos < s.size) :
    ahead s (tokenEnd s pos s[pos].char).2 =
      (scan s[pos].char (ahead s (pos + 1))).rest := by
  rw [tokenEnd_spec h, Nat.add_assoc, ahead_add,
    ahead_eq_scan h, Nat.add_comm 1, List.drop_succ_cons,
    List.drop_left]

/-
  Reading on from a place gives the tokens of what is ahead, by
  induction on the number of letters that are ahead.
-/
theorem readFrom_eq (fresh : Bool) :
    readFrom s fresh pos = some (tokens fresh (ahead s pos)) := by
  fun_induction readFrom s fresh pos with
  | case1 fresh pos startsLine start h kind stop ih =>
      rw [tokens_eq, skipGap_ahead, ahead_of_lt h]
      dsimp only
      rw [cut?_tokenEnd h, lastBefore?_tokenEnd h, ih,
        ahead_tokenEnd h]
      simp only [kind, tokenEnd_spec h]
      rfl
  | case2 fresh pos start hEnd =>
      rw [tokens_eq, skipGap_ahead, ahead_of_le hEnd]

/- The tokens of a text, unless an index is out of bounds. -/
def tokenize? (text : String) : Option (List Token) :=
  readFrom (splice 1 text.toList).toArray true 0

end Cursor

/-
  Reading the tokens of a text ends with no index out of bounds.
  The tokens are pieces of what is left of the text when lines
  are joined, between them are gaps only, they open lines where
  line feeds are in these, and stand on the lines that the line
  feeds of the text count.
-/
theorem tokenize_lossless
    (text : String)
    (hJoins : JoinsWholeLines text.toList) :
    Cursor.tokenize? text = some (Token.tokenize text) ∧
      Renders true (remaining [] text.toList)
        (Token.tokenize text) := by
  constructor
  · exact Cursor.readFrom_eq true
  · unfold Token.tokenize
    rw [splice_eq_remaining hJoins]
    exact renders_tokens true _

/-
  An identifier over two lines, a line comment over two lines
  and a string that ends in a backslash.
-/
def awkwardText : String :=
  "/* a */ x\\\r\ny // b \\\nc\n\"d\\"

theorem tokenize_lossless_awkwardText :
    JoinsWholeLines awkwardText.toList ∧
      Token.tokenize awkwardText =
        [⟨.identifier, "xy", 1, 2, true⟩,
          ⟨.string, "\"d\\", 4, 4, true⟩] ∧
      Cursor.tokenize? awkwardText =
        some (Token.tokenize awkwardText) ∧
      Renders true (remaining [] awkwardText.toList)
        (Token.tokenize awkwardText) := by
  have hJoins : JoinsWholeLines awkwardText.toList := by decide
  exact
    ⟨hJoins, by cbv, tokenize_lossless awkwardText hJoins⟩

end Lexer

end Variability
