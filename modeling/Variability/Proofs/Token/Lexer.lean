import Variability.Token.Lexer
import Variability.Proofs.Token.Position
import Mathlib

/-
  Reading tokens line by line.

  Which tokens a text has does not depend on the physical line
  that it starts on. A line without comments and backslashes ends
  no token behind its line feed, so its tokens and those of the
  text behind it can be read apart.

  Main declarations:
    * `Lexer.tokens_bare`
    * `Lexer.IsPlain`
    * `Lexer.tokens_line`
    * `Lexer.logicalLines_line`
    * `Lexer.tokens_directive`
-/

namespace Variability

namespace Lexer

------------------------------------------------------------
-- Names
------------------------------------------------------------

/- Whether a name has the characters of an identifier. -/
def isIdentifier (name : String) : Bool :=
  match name.toList with
  | [] => false
  | c :: cs => opensIdentifier c && cs.all continuesIdentifier

/- A name is a letter and what identifiers go on with. -/
theorem exists_of_isIdentifier
    {name : String}
    (hName : isIdentifier name = true) :
    ∃ c cs, name.toList = c :: cs ∧ opensIdentifier c = true ∧
      ∀ d ∈ cs, continuesIdentifier d = true := by
  unfold isIdentifier at hName
  split at hName
  · cases hName
  · rename_i c cs hChars
    rw [Bool.and_eq_true, List.all_eq_true] at hName
    exact ⟨c, cs, hChars, hName⟩

/- Names go on with what they may start with. -/
theorem continues_of_opens
    {c : Char}
    (hOpens : opensIdentifier c = true) :
    continuesIdentifier c = true := by
  simp only [opensIdentifier, continuesIdentifier,
    Char.isAlphanum, Bool.or_eq_true] at hOpens ⊢
  tauto

theorem continues_of_isIdentifier
    {name : String}
    (hName : isIdentifier name = true) :
    ∀ c ∈ name.toList, continuesIdentifier c = true := by
  rcases exists_of_isIdentifier hName with
    ⟨c, cs, hChars, hOpens, hWord⟩
  rw [hChars]
  intro d hMem
  rcases List.mem_cons.mp hMem with rfl | hMem
  · exact continues_of_opens hOpens
  · exact hWord d hMem

------------------------------------------------------------
-- Positions
------------------------------------------------------------

/- A letter that does not say where it stands. -/
def Letter.bare (l : Letter) : Letter :=
  { l with line := 0 }

@[simp] theorem Letter.bare_char (l : Letter) :
    l.bare.char = l.char := rfl

variable {s : List Letter}

theorem skipGap_bare
    (passed : Bool)
    (gap : Gap)
    (s : List Letter) :
    skipGap passed gap (s.map Letter.bare) =
      ((skipGap passed gap s).1,
        (skipGap passed gap s).2.map Letter.bare) := by
  fun_induction skipGap passed gap s <;>
    simp_all [skipGap]
  grind

theorem numberTail_bare (s : List Letter) :
    numberTail (s.map Letter.bare) =
      ((numberTail s).1.map Letter.bare,
        (numberTail s).2.map Letter.bare) := by
  fun_induction numberTail s <;> simp_all [numberTail]

theorem quotedTail_bare
    (quote : Char)
    (s : List Letter) :
    quotedTail quote (s.map Letter.bare) =
      ((quotedTail quote s).1.map Letter.bare,
        (quotedTail quote s).2.map Letter.bare) := by
  fun_induction quotedTail quote s <;> simp_all [quotedTail]

theorem scan_bare
    (c : Char)
    (s : List Letter) :
    scan c (s.map Letter.bare) =
      { kind := (scan c s).kind
        tail := (scan c s).tail.map Letter.bare
        rest := (scan c s).rest.map Letter.bare } := by
  have hDigit :
      (s.map Letter.bare).head?.any (·.char.isDigit) =
        s.head?.any (·.char.isDigit) := by
    cases s <;> rfl
  have hWindow :
      ((s.map Letter.bare).take 2).map (·.char) =
        (s.take 2).map (·.char) := by
    rw [← List.map_take, List.map_map]
    rfl
  unfold scan
  rw [hDigit, hWindow]
  split
  · simp only [List.takeWhile_map, List.dropWhile_map]
    rfl
  split
  · simp [numberTail_bare]
  split
  · simp [quotedTail_bare]
  split <;> simp

theorem toToken_bare
    (l : Letter)
    (startsLine : Bool)
    (t : Scanned) :
    toToken l.bare startsLine
        { t with
          tail := t.tail.map Letter.bare
          rest := t.rest.map Letter.bare } =
      (toToken l startsLine t).bare := by
  unfold toToken Token.bare
  congr 1
  · simp [Function.comp_def]
  · rcases t with ⟨kind, tail, rest⟩
    dsimp only
    rw [List.getLast?_map]
    cases tail.getLast? <;> rfl

/- The tokens behind a gap. -/
theorem tokens_eq
    (fresh : Bool)
    (s : List Letter) :
    tokens fresh s =
      match skipGap fresh .blank s with
      | (_, []) => []
      | (startsLine, l :: rest) =>
          toToken l startsLine (scan l.char rest) ::
            tokens false (scan l.char rest).rest := by
  rw [tokens]
  rcases skipGap fresh .blank s with ⟨startsLine, _ | _⟩ <;>
    rfl

/- Which tokens there are does not depend on where they stand. -/
theorem tokens_bare
    (fresh : Bool)
    (s : List Letter) :
    tokens fresh (s.map Letter.bare) =
      (tokens fresh s).map Token.bare := by
  fun_induction tokens fresh s with
  | case1 fresh s startsLine hGap =>
      rw [tokens_eq, skipGap_bare, hGap]
      rfl
  | case2 fresh s startsLine l rest hGap t ih =>
      rw [tokens_eq, skipGap_bare, hGap]
      simp only [List.map_cons, Letter.bare_char, scan_bare]
      rw [ih, toToken_bare]

/- Where a text starts does not show but in the lines. -/
theorem splice_bare
    (n m : Nat)
    (cs : List Char) :
    (splice n cs).map Letter.bare =
      (splice m cs).map Letter.bare := by
  fun_induction splice n cs generalizing m <;>
    simp_all [splice, Letter.bare] <;>
    solve_by_elim

------------------------------------------------------------
-- Lines
------------------------------------------------------------

/- A piece of a line in which no comment starts and nothing is escaped. -/
structure IsPlain (ls : List Letter) : Prop where
  chars : ∀ l ∈ ls, l.char ≠ '\n' ∧ l.char ≠ '\\'
  gaps :
    ls.IsChain fun l l' =>
      l.char = '/' → l'.char ≠ '/' ∧ l'.char ≠ '*'

namespace IsPlain

variable {l nl : Letter}
variable {ls ls' rest : List Letter}

theorem suffix
    (hPlain : IsPlain ls)
    (hSuffix : ls' <:+ ls) :
    IsPlain ls' :=
  ⟨fun l hMem => hPlain.chars l (hSuffix.subset hMem),
    hPlain.gaps.suffix hSuffix⟩

theorem tail
    (hPlain : IsPlain (l :: ls)) :
    IsPlain ls :=
  hPlain.suffix (List.suffix_cons l ls)

/- What follows a letter of a plain piece starts no comment. -/
theorem next
    (hPlain : IsPlain (l :: ls))
    (hEnd : nl.char = '\n')
    (rest : List Letter) :
    ∃ next more, ls ++ nl :: rest = next :: more ∧
      (l.char = '/' → next.char ≠ '/' ∧ next.char ≠ '*') := by
  cases ls with
  | nil =>
      refine ⟨nl, rest, rfl, fun _ => ?_⟩
      rw [hEnd]
      decide
  | cons l' ls =>
      exact
        ⟨l', ls ++ nl :: rest, rfl,
          (List.isChain_cons_cons.mp hPlain.gaps).1⟩

/- Only blanks are skipped in a plain piece. -/
theorem skipGap
    (hPlain : IsPlain ls)
    (fresh : Bool) :
    skipGap fresh .blank ls =
      (fresh, ls.dropWhile (Text.isBlank ·.char)) := by
  induction ls with
  | nil => rfl
  | cons l ls ih =>
      have hChar := (hPlain.chars l List.mem_cons_self).1
      cases ls with
      | nil =>
          by_cases hBlank : Text.isBlank l.char = true <;>
            simp [Lexer.skipGap, hChar, hBlank]
      | cons l' ls =>
          have hNext :=
            (List.isChain_cons_cons.mp hPlain.gaps).1
          have hRest := ih hPlain.tail
          rw [Lexer.skipGap, if_neg hChar, List.dropWhile_cons]
          by_cases hBlank : Text.isBlank l.char = true
          · rw [if_pos hBlank, if_pos hBlank, hRest]
          · rw [if_neg hBlank, if_neg hBlank,
              if_neg fun h => (hNext h.1).1 h.2,
              if_neg fun h => (hNext h.1).2 h.2]

/- A line feed is skipped if only blanks are left before it. -/
theorem skipGap_line
    (hPlain : IsPlain ls)
    (hEnd : nl.char = '\n')
    (fresh : Bool)
    (rest : List Letter) :
    Lexer.skipGap fresh .blank (ls ++ nl :: rest) =
      match ls.dropWhile (Text.isBlank ·.char) with
      | [] => Lexer.skipGap true .blank rest
      | l :: left => (fresh, l :: left ++ nl :: rest) := by
  induction ls with
  | nil =>
      cases rest <;> simp [Lexer.skipGap, hEnd]
  | cons l ls ih =>
      have hChar := (hPlain.chars l List.mem_cons_self).1
      have hRest := ih hPlain.tail
      rcases hPlain.next hEnd rest with
        ⟨next, more, hEq, hNext⟩
      rw [List.cons_append, hEq, Lexer.skipGap,
        if_neg hChar, ← hEq, List.dropWhile_cons]
      by_cases hBlank : Text.isBlank l.char = true
      · rw [if_pos hBlank, if_pos hBlank, hRest]
      · rw [if_neg hBlank, if_neg hBlank,
          if_neg fun h => (hNext h.1).1 h.2,
          if_neg fun h => (hNext h.1).2 h.2]
        rfl

end IsPlain

variable {l nl : Letter}
variable {ls rest : List Letter}

/- A number ends at a line feed. -/
theorem numberTail_line
    (hEnd : nl.char = '\n')
    (ls rest : List Letter) :
    numberTail (ls ++ nl :: rest) =
      ((numberTail ls).1,
        (numberTail ls).2 ++ nl :: rest) := by
  have hStop : continuesNumber nl.char = false := by
    rw [hEnd]
    decide
  have hSign : ¬ (nl.char = '+' ∨ nl.char = '-') := by
    rw [hEnd]
    decide
  have hExponent : isExponent nl.char = false := by
    rw [hEnd]
    decide
  have hNone : numberTail (nl :: rest) = ([], nl :: rest) := by
    cases rest <;> simp [numberTail, hStop, hExponent]
  fun_induction numberTail ls <;>
    simp_all [numberTail]

/- A quoted text ends at a line feed that is not escaped. -/
theorem quotedTail_line
    (quote : Char)
    (hChars : ∀ l ∈ ls, l.char ≠ '\n' ∧ l.char ≠ '\\')
    (hEnd : nl.char = '\n')
    (rest : List Letter) :
    quotedTail quote (ls ++ nl :: rest) =
      ((quotedTail quote ls).1,
        (quotedTail quote ls).2 ++ nl :: rest) := by
  have hNone :
      quotedTail quote (nl :: rest) = ([], nl :: rest) := by
    cases rest <;> simp [quotedTail, hEnd]
  fun_induction quotedTail quote ls <;>
    simp_all [quotedTail]

/- A mark without some character ends before it. -/
theorem isPrefixOf_stop
    {mark : List Char}
    {stop : Char}
    (hMark : stop ∉ mark)
    (window more : List Char) :
    mark.isPrefixOf (window ++ stop :: more) =
      mark.isPrefixOf window := by
  induction window generalizing mark with
  | nil =>
      cases mark with
      | nil => rfl
      | cons c mark =>
          have hNe : c ≠ stop := fun h =>
            hMark (h ▸ List.mem_cons_self)
          simp [List.isPrefixOf, hNe]
  | cons d window ih =>
      cases mark with
      | nil => rfl
      | cons c mark =>
          have hRest : stop ∉ mark := fun h =>
            hMark (List.mem_cons_of_mem c h)
          simp [List.isPrefixOf, ih hRest]

theorem not_mem_longMarks :
    ∀ mark ∈ longMarks,
      '\n' ∉ mark.toList ∧ ' ' ∉ mark.toList := by
  decide

theorem find?_congr
    {α : Type}
    {p q : α → Bool}
    {xs : List α}
    (hSame : ∀ x ∈ xs, p x = q x) :
    xs.find? p = xs.find? q := by
  induction xs with
  | nil => rfl
  | cons x xs ih =>
      have hRest :=
        ih fun y hy => hSame y (List.mem_cons_of_mem x hy)
      rw [List.find?_cons, List.find?_cons, hRest,
        hSame x List.mem_cons_self]

theorem markLength_line
    (hEnd : nl.char = '\n')
    (c : Char)
    (ls rest : List Letter) :
    markLength (c :: ((ls ++ nl :: rest).take 2).map (·.char)) =
      markLength (c :: (ls.take 2).map (·.char)) := by
  have hWindow (window more : List Char) :
      markLength (window ++ '\n' :: more) =
        markLength window := by
    unfold markLength
    congr 1
    apply find?_congr
    intro mark hMark
    exact isPrefixOf_stop (not_mem_longMarks mark hMark).1 _ _
  match ls with
  | [] =>
      simpa [hEnd] using hWindow [c] ((rest.take 1).map (·.char))
  | [l] => simpa [hEnd] using hWindow [c, l.char] []
  | l :: l' :: ls => rfl

/- A mark is not longer than what it was found in. -/
theorem markLength_le
    {c : Char}
    {n : Nat}
    (hMark : markLength (c :: (ls.take 2).map (·.char)) = some n) :
    n ≤ ls.length := by
  rcases Option.map_eq_some_iff.mp hMark with
    ⟨mark, hFound, rfl⟩
  have hPrefixOf := List.find?_some hFound
  have hPrefix :=
    (List.isPrefixOf_iff_prefix.mp hPrefixOf).length_le
  simp only [String.length_toList, List.length_cons,
    List.length_map, List.length_take] at hPrefix
  omega

theorem takeWhile_line
    {p : Letter → Bool}
    (hStop : p nl = false)
    (ls rest : List Letter) :
    (ls ++ nl :: rest).takeWhile p = ls.takeWhile p := by
  induction ls with
  | nil => simp [hStop]
  | cons l ls ih =>
      rw [List.cons_append, List.takeWhile_cons, ih,
        List.takeWhile_cons]

theorem dropWhile_line
    {p : Letter → Bool}
    (hStop : p nl = false)
    (ls rest : List Letter) :
    (ls ++ nl :: rest).dropWhile p =
      ls.dropWhile p ++ nl :: rest := by
  induction ls with
  | nil => simp [hStop]
  | cons l ls ih =>
      rw [List.cons_append, List.dropWhile_cons, ih,
        List.dropWhile_cons]
      split <;> rfl

/- A token of a line ends before the line feed. -/
theorem scan_line
    (hChars : ∀ l ∈ ls, l.char ≠ '\n' ∧ l.char ≠ '\\')
    (hEnd : nl.char = '\n')
    (c : Char)
    (rest : List Letter) :
    scan c (ls ++ nl :: rest) =
      { scan c ls with
        rest := (scan c ls).rest ++ nl :: rest } := by
  have hStop : continuesIdentifier nl.char = false := by
    rw [hEnd]
    decide
  have hDigit :
      (ls ++ nl :: rest).head?.any (·.char.isDigit) =
        ls.head?.any (·.char.isDigit) := by
    cases ls with
    | nil => simp [hEnd]
    | cons => rfl
  unfold scan
  rw [hDigit, markLength_line hEnd]
  split
  · rw [takeWhile_line hStop, dropWhile_line hStop]
  split
  · rw [numberTail_line hEnd]
  split
  · rw [quotedTail_line c hChars hEnd]
  split
  · rename_i n hMark
    have hLe := markLength_le hMark
    simp [List.take_append_of_le_length hLe,
      List.drop_append_of_le_length hLe]
  · rfl

/- What follows a token of a plain piece is plain. -/
theorem IsPlain.behind
    (hPlain : IsPlain ls)
    (c : Char) :
    IsPlain (scan c ls).rest :=
  hPlain.suffix ⟨(scan c ls).tail, scan_append c ls⟩

/-
  The tokens of a plain line and of what is behind its line feed
  are read apart, by induction on the length of the line.
-/
theorem tokens_line
    (hPlain : IsPlain ls)
    (hEnd : nl.char = '\n')
    (fresh : Bool)
    (rest : List Letter) :
    tokens fresh (ls ++ nl :: rest) =
      tokens fresh ls ++ tokens true rest := by
  induction hLength : ls.length using Nat.strong_induction_on
    generalizing ls fresh with
  | _ n ih =>
      rw [tokens_eq fresh (ls ++ nl :: rest), tokens_eq fresh ls,
        hPlain.skipGap, hPlain.skipGap_line hEnd]
      have hLeft :=
        hPlain.suffix
          (List.dropWhile_suffix (Text.isBlank ·.char))
      have hLe :=
        (List.dropWhile_suffix
          (Text.isBlank ·.char) (l := ls)).length_le
      cases hLetters : ls.dropWhile (Text.isBlank ·.char) with
      | nil =>
          dsimp only
          rw [tokens_eq true rest]
          rfl
      | cons l left =>
          rw [hLetters] at hLeft hLe
          have hRest := hLeft.tail.behind l.char
          have hShorter := length_rest_scan l.char left
          rw [List.length_cons] at hLe
          dsimp only
          rw [List.cons_append]
          dsimp only
          rw [scan_line hLeft.tail.chars hEnd]
          dsimp only
          rw [ih _ (by omega) hRest false rfl]
          rfl

/- No token behind the first one of a plain piece starts a line. -/
theorem startsLine_of_mem_tokens
    (hPlain : IsPlain ls)
    {t : Token}
    (hMem : t ∈ tokens false ls) :
    t.startsLine = false := by
  induction hLength : ls.length using Nat.strong_induction_on
    generalizing ls with
  | _ n ih =>
      rw [tokens_eq, hPlain.skipGap] at hMem
      have hLeft :=
        hPlain.suffix
          (List.dropWhile_suffix (Text.isBlank ·.char))
      have hLe :=
        (List.dropWhile_suffix
          (Text.isBlank ·.char) (l := ls)).length_le
      cases hLetters : ls.dropWhile (Text.isBlank ·.char) with
      | nil => simp [hLetters] at hMem
      | cons l left =>
          rw [hLetters] at hLeft hLe hMem
          rw [List.length_cons] at hLe
          have hRest := hLeft.tail.behind l.char
          have hShorter := length_rest_scan l.char left
          rcases List.mem_cons.mp hMem with rfl | hMem
          · rfl
          · exact ih _ (by omega) hRest hMem rfl

theorem skipGap_true
    (gap : Gap)
    (s : List Letter) :
    (skipGap true gap s).1 = true := by
  generalize hPassed : true = passed
  fun_induction skipGap passed gap s <;> grind

/- The first token behind a line feed starts a line. -/
theorem startsLine_of_mem_head?
    {t : Token}
    (hMem : t ∈ (tokens true rest).head?) :
    t.startsLine = true := by
  have hPassed := skipGap_true .blank rest
  rw [tokens_eq] at hMem
  generalize skipGap true .blank rest = skipped
    at hMem hPassed
  rcases skipped with ⟨passed, _ | ⟨l, left⟩⟩
  · cases hMem
  · cases hMem
    exact hPassed

/- The tokens of a plain piece are on one logical line. -/
theorem isChain_tokens
    (hPlain : IsPlain ls)
    (fresh : Bool) :
    (tokens fresh ls).IsChain fun _ next =>
      !next.startsLine := by
  have hLeft :=
    hPlain.suffix (List.dropWhile_suffix (Text.isBlank ·.char))
  rw [tokens_eq, hPlain.skipGap]
  cases hLetters : ls.dropWhile (Text.isBlank ·.char) with
  | nil => exact .nil
  | cons l left =>
      rw [hLetters] at hLeft
      exact
        Token.isChain_cons fun _ hMem =>
          startsLine_of_mem_tokens
            (hLeft.tail.behind l.char) hMem

/- A plain line with tokens is the first logical line. -/
theorem logicalLines_line
    (hPlain : IsPlain ls)
    (hEnd : nl.char = '\n')
    {fresh : Bool}
    (hSome : tokens fresh ls ≠ [])
    (rest : List Letter) :
    Token.logicalLines (tokens fresh (ls ++ nl :: rest)) =
      tokens fresh ls ::
        Token.logicalLines (tokens true rest) := by
  rw [tokens_line hPlain hEnd]
  unfold Token.logicalLines
  rw [List.splitBy_append, List.splitBy_of_isChain hSome,
    List.singleton_append]
  · exact isChain_tokens hPlain fresh
  · intro t _ u hMem
    simp [startsLine_of_mem_head? hMem]

------------------------------------------------------------
-- Letters of a Line
------------------------------------------------------------

/- Characters that stand on one line. -/
def lettersOn (line : Nat) (cs : List Char) : List Letter :=
  cs.map (⟨·, line⟩)

@[simp] theorem lettersOn_bare
    (line : Nat)
    (cs : List Char) :
    (lettersOn line cs).map Letter.bare = lettersOn 0 cs := by
  unfold lettersOn
  rw [List.map_map]
  rfl

/- Characters that end no line and escape none stay as they are. -/
theorem splice_append
    (cs : List Char)
    (hChars : ∀ c ∈ cs, c ≠ '\n' ∧ c ≠ '\r' ∧ c ≠ '\\')
    (line : Nat)
    (rest : List Char) :
    splice line (cs ++ rest) =
      lettersOn line cs ++ splice line rest := by
  induction cs with
  | nil => rfl
  | cons c cs ih =>
      have hRest :=
        ih fun d hd => hChars d (List.mem_cons_of_mem c hd)
      have hFirst := hChars c List.mem_cons_self
      rw [List.cons_append, splice]
      · rw [hRest]
        rfl
      all_goals grind

/- A line feed is a letter of the line that it ends. -/
theorem splice_newline
    (line : Nat)
    (rest : List Char) :
    splice line ('\n' :: rest) =
      ⟨'\n', line⟩ :: splice (line + 1) rest := by
  simp [splice]

/- Characters of one line among which no comment starts. -/
theorem isPlain_lettersOn
    {cs : List Char}
    (hChars : ∀ c ∈ cs, c ≠ '\n' ∧ c ≠ '\\')
    (hGaps :
      cs.IsChain fun c d => c = '/' → d ≠ '/' ∧ d ≠ '*')
    (line : Nat) :
    IsPlain (lettersOn line cs) where
  chars := by
    intro l hMem
    rcases List.mem_map.mp hMem with ⟨c, hc, rfl⟩
    exact hChars c hc
  gaps := by
    unfold lettersOn
    rw [List.isChain_map]
    exact hGaps

------------------------------------------------------------
-- Words
------------------------------------------------------------

/- A name starts with no white space and no comment. -/
theorem not_gap_of_opensIdentifier
    {c : Char}
    (hOpens : opensIdentifier c = true) :
    c ≠ '\n' ∧ c ≠ '/' ∧ Text.isBlank c = false := by
  have hRange : 36 ≤ c.toNat ∧ c.toNat ≤ 122 := by
    have hCases :
        (65 ≤ c.toNat ∧ c.toNat ≤ 90) ∨
          (97 ≤ c.toNat ∧ c.toNat ≤ 122) ∨
          c = '_' ∨ c = '$' := by
      simpa [opensIdentifier, Char.isAlpha, Char.isUpper,
        Char.isLower, UInt32.le_iff_toNat_le, or_assoc]
        using hOpens
    rcases hCases with hUpper | hLower | rfl | rfl
    · omega
    · omega
    · decide
    · decide
  refine ⟨?_, ?_, ?_⟩
  · rintro rfl
    cases hOpens
  · rintro rfl
    cases hOpens
  · simp only [Text.isBlank, Bool.or_eq_false_iff,
      Bool.and_eq_false_iff, decide_eq_false_iff_not,
      beq_eq_false_iff_ne]
    omega

variable {word : List Letter}

/- A name ends in front of a character that it does not go on with. -/
theorem scan_word
    {c : Char}
    (hOpens : opensIdentifier c = true)
    (hWord : ∀ w ∈ word, continuesIdentifier w.char = true)
    (hEnd : continuesIdentifier l.char = false)
    (rest : List Letter) :
    scan c (word ++ l :: rest) =
      ⟨.identifier, word, l :: rest⟩ := by
  unfold scan
  rw [if_pos hOpens, List.takeWhile_append_of_pos hWord,
    List.dropWhile_append_of_pos hWord]
  simp [hEnd]

/- A name is a token of its own. -/
theorem tokens_word
    (hOpens : opensIdentifier l.char = true)
    (hWord : ∀ w ∈ word, continuesIdentifier w.char = true)
    (hEnd : continuesIdentifier nl.char = false)
    (fresh : Bool)
    (rest : List Letter) :
    tokens fresh (l :: word ++ nl :: rest) =
      toToken l fresh ⟨.identifier, word, nl :: rest⟩ ::
        tokens false (nl :: rest) := by
  rcases not_gap_of_opensIdentifier hOpens with
    ⟨hLine, hSlash, hBlank⟩
  have hGap :
      skipGap fresh .blank (l :: word ++ nl :: rest) =
        (fresh, l :: word ++ nl :: rest) := by
    cases word <;>
      simp [skipGap, hLine, hSlash, hBlank]
  rw [tokens_eq, hGap, List.cons_append]
  dsimp only
  rw [scan_word hOpens hWord hEnd]

/- Blanks between tokens are skipped. -/
theorem tokens_blank
    (hBlank : l.char = ' ')
    (fresh : Bool)
    (rest : List Letter) :
    tokens fresh (l :: rest) = tokens fresh rest := by
  have hGap :
      skipGap fresh .blank (l :: rest) =
        skipGap fresh .blank rest := by
    cases rest <;> simp [skipGap, hBlank, Text.isBlank]
  rw [tokens_eq, hGap, ← tokens_eq]

/- The mark of a directive is a token of its own. -/
theorem tokens_mark
    (hMark : l.char = '#')
    (hNext : nl.char ≠ '#')
    (fresh : Bool)
    (rest : List Letter) :
    tokens fresh (l :: nl :: rest) =
      toToken l fresh ⟨.punctuation, [], nl :: rest⟩ ::
        tokens false (nl :: rest) := by
  have hGap :
      skipGap fresh .blank (l :: nl :: rest) =
        (fresh, l :: nl :: rest) := by
    simp [skipGap, hMark, Text.isBlank]
  have hScan :
      scan '#' (nl :: rest) =
        ⟨.punctuation, [], nl :: rest⟩ := by
    have hShort :
        markLength
            ('#' :: ((nl :: rest).take 2).map (·.char)) =
          none := by
      cases rest <;>
        simp [markLength, longMarks, hNext.symm]
    unfold scan
    rw [hShort]
    rfl
  rw [tokens_eq, hGap]
  dsimp only
  rw [hMark, hScan]

/- A directive's mark and word are tokens of one line. -/
theorem tokens_directive
    (w : Char)
    (ws : List Char)
    (hOpens : opensIdentifier w = true)
    (hWord : ∀ c ∈ ws, continuesIdentifier c = true)
    (line : Nat)
    (rest : List Letter) :
    ∃ t u : Token,
      tokens true
          (lettersOn line ('#' :: w :: ws) ++
            ⟨' ', line⟩ :: rest) =
        t :: u :: tokens false rest ∧
      t.is "#" = true ∧ u.text = String.ofList (w :: ws) ∧
        u.startsLine = false := by
  have hNext : w ≠ '#' := by
    rintro rfl
    cases hOpens
  have hLetters :
      ∀ l ∈ lettersOn line ws,
        continuesIdentifier l.char = true := by
    intro l hMem
    rcases List.mem_map.mp hMem with ⟨c, hc, rfl⟩
    exact hWord c hc
  have hMark :
      tokens true
          (⟨'#', line⟩ :: ⟨w, line⟩ ::
            (lettersOn line ws ++ ⟨' ', line⟩ :: rest)) = _ :=
    tokens_mark rfl hNext true _
  have hName :
      tokens false
          (⟨w, line⟩ :: lettersOn line ws ++
            ⟨' ', line⟩ :: rest) = _ :=
    tokens_word hOpens hLetters rfl false rest
  rw [tokens_blank rfl] at hName
  refine ⟨_, _, hMark.trans (congrArg _ hName), rfl, ?_, rfl⟩
  simp [toToken, lettersOn, Function.comp_def]

end Lexer

end Variability
