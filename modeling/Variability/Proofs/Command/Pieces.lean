import Mathlib.Data.List.Induction
import Variability.Proofs.Command.Reader

/-
  Traces in pieces.

  A reader that has read a whole trace and then a separator is as
  at its start, but for the commands it has. So a trace is read
  piece by piece, and a mistake in the last piece is reported at
  the offset that it has in the whole. A backslash and the line
  feed behind it leave the reader where it was, wherever they
  stand, unless another backslash takes the first one as it is.

  Main declarations:
    * `Command.Reader.behind`
    * `Command.parse_pieces`
    * `Command.parse_continued`
-/

namespace Variability

namespace Command

namespace Reader

------------------------------------------------------------
-- Behind Other Commands
------------------------------------------------------------

variable {r : Reader}
variable {before commands : List (List String)}
variable {c : Char}
variable {s t : List Char}

/- A reader that read other commands before. -/
def behind
    (before : List (List String))
    (r : Reader) : Reader :=
  { r with commands := before ++ r.commands }

theorem Reads.behind
    {r' : Reader}
    (hReads : Reads r c r') :
    Reads (r.behind before) c (r'.behind before) := by
  cases hReads with
  | escapedFeed hEscaping => exact .escapedFeed hEscaping
  | escaped hEscaping hFeed => exact .escaped hEscaping hFeed
  | backslash hEscaping => exact .backslash hEscaping
  | closing hEscaping hBackslash hOpened =>
      exact .closing hEscaping hBackslash hOpened
  | quoted hEscaping hBackslash hOpened hOther =>
      exact .quoted hEscaping hBackslash hOpened hOther
  | separator hEscaping hBackslash hOpened hSeparator =>
      have hSame :
          r.endCommand.behind before =
            (r.behind before).endCommand := by
        simp [Reader.behind, endCommand]
      rw [hSame]
      exact .separator hEscaping hBackslash hOpened hSeparator
  | blank hEscaping hBackslash hOpened hSeparator hBlank =>
      exact .blank hEscaping hBackslash hOpened hSeparator hBlank
  | opening hEscaping hBackslash hOpened hQuote =>
      exact .opening hEscaping hBackslash hOpened hQuote
  | plain hEscaping hBackslash hOpened hEnd hQuote =>
      exact .plain hEscaping hBackslash hOpened hEnd hQuote

theorem next_behind
    (r : Reader)
    (c : Char) :
    (r.behind before).next c = (r.next c).behind before :=
  (reads_next r c).behind.next_eq

/- By induction on the characters, which are read one by one. -/
theorem foldl_next_behind
    (r : Reader)
    (s : List Char) :
    s.foldl next (r.behind before) =
      (s.foldl next r).behind before := by
  induction s generalizing r with
  | nil => rfl
  | cons c s ih =>
      rw [List.foldl_cons, List.foldl_cons, next_behind, ih]

theorem outcome_behind
    (last : Nat) :
    (r.behind before).outcome last =
      (r.outcome last).map (before ++ ·) := by
  unfold outcome behind
  dsimp only
  split_ifs
  · rfl
  · rfl
  · simp [Except.map, endCommand]

/- A command is over, and all is as at the start but for the commands. -/
theorem next_separator
    (hPending : r.isPending = false)
    (hSeparator : isSeparator c = true) :
    r.next c = behind r.endCommand.commands {} := by
  rw [isPending_eq_false_iff] at hPending
  have hBackslash : c ≠ '\\' := by
    rintro rfl
    cases hSeparator
  rw [(Reads.separator hPending.1 hBackslash hPending.2
    hSeparator).next_eq]
  simp [behind, endCommand, hPending]

theorem read_separator
    (hPending : (read s).isPending = false)
    (hSeparator : isSeparator c = true) :
    read (s ++ c :: t) =
      (read t).behind (read s).endCommand.commands := by
  rw [read, List.foldl_append, List.foldl_cons, ← read,
    next_separator hPending hSeparator, foldl_next_behind]
  rfl

------------------------------------------------------------
-- Offsets
------------------------------------------------------------

/- An offset that is counted from farther in front. -/
theorem lastOffset_add
    (n last offset : Nat)
    (s : List Char) :
    lastOffset (last + n) (offset + n) s =
      lastOffset last offset s + n := by
  induction s generalizing last offset with
  | nil => rfl
  | cons c s ih =>
      rw [lastOffset, lastOffset, ← ih, Nat.add_right_comm]

/- The character before a text does not matter for what is read of it. -/
theorem outcome_lastOffset
    (last last' offset : Nat)
    (s : List Char) :
    (read s).outcome (lastOffset last offset s) =
      (read s).outcome (lastOffset last' offset s) := by
  cases s <;> rfl

end Reader

/- The error at an offset that is counted from farther in front. -/
def ReadError.moved (n : Nat) : ReadError → ReadError
  | .endsInBackslash offset => .endsInBackslash (offset + n)
  | .unterminatedQuote offset => .unterminatedQuote (offset + n)

theorem Reader.outcome_add
    (r : Reader)
    (n last : Nat) :
    r.outcome (last + n) =
      (r.outcome last).mapError (.moved n) := by
  unfold outcome
  split_ifs <;> rfl

------------------------------------------------------------
-- Pieces
------------------------------------------------------------

theorem parse_eq_ok_iff
    {text : String}
    {commands : List (List String)} :
    parse text = .ok commands ↔
      (Reader.read text.toList).isPending = false ∧
        (Reader.read text.toList).endCommand.commands =
          commands := by
  rw [parse_eq, Reader.outcome_eq_ok_iff]

theorem utf8Size_of_isSeparator
    {c : Char}
    (hSeparator : isSeparator c = true) :
    c.utf8Size = 1 := by
  have hKinds : c = '\n' ∨ c = ';' ∨ c = '|' := by
    simpa [isSeparator, or_assoc] using hSeparator
  rcases hKinds with rfl | rfl | rfl <;> rfl

/-
  The commands of a trace that is read, a separator and another
  trace are those of both. If the other one is not read, neither
  is the whole, for the same reason and at the same place of it.
-/
theorem parse_pieces
    {s : String}
    {commands : List (List String)}
    (hRead : parse s = .ok commands)
    {c : Char}
    (hSeparator : c ∈ ['\n', ';', '|'])
    (t : String) :
    parse (s ++ String.singleton c ++ t) =
      match parse t with
      | .ok more => .ok (commands ++ more)
      | .error e => .error (e.moved (s.utf8ByteSize + 1)) := by
  have hEnds : isSeparator c = true := by
    simpa [isSeparator, or_assoc] using hSeparator
  have hText :
      (s ++ String.singleton c ++ t).toList =
        s.toList ++ c :: t.toList := by
    simp
  rcases parse_eq_ok_iff.mp hRead with ⟨hPending, rfl⟩
  have hLast :
      Reader.lastOffset 0 0 (s.toList ++ c :: t.toList) =
        Reader.lastOffset s.utf8ByteSize (s.utf8ByteSize + 1)
          t.toList := by
    rw [Reader.lastOffset_append, Reader.lastOffset,
      String.ofList_toList, Nat.zero_add,
      utf8Size_of_isSeparator hEnds]
  have hMoved :
      Reader.lastOffset (s.utf8ByteSize + 1)
          (s.utf8ByteSize + 1) t.toList =
        Reader.lastOffset 0 0 t.toList + (s.utf8ByteSize + 1) := by
    simpa using
      Reader.lastOffset_add (s.utf8ByteSize + 1) 0 0 t.toList
  have hWhole :
      parse (s ++ String.singleton c ++ t) =
        ((parse t).mapError (.moved (s.utf8ByteSize + 1))).map
          ((Reader.read s.toList).endCommand.commands ++ ·) := by
    rw [parse_eq, parse_eq, hText,
      Reader.read_separator hPending hEnds,
      Reader.outcome_behind, hLast,
      Reader.outcome_lastOffset _ (s.utf8ByteSize + 1), hMoved,
      Reader.outcome_add]
  rw [hWhole]
  cases parse t <;> rfl

/- A quoted separator, a continued line, and a mistake behind them. -/
theorem parse_pieces_openQuote :
    parse "cc 'é;b' \\\n" = .ok [["cc", "é;b"]] ∧
      '|' ∈ ['\n', ';', '|'] ∧
      parse
          ("cc 'é;b' \\\n" ++ String.singleton '|' ++ "x 'y") =
        match parse "x 'y" with
        | .ok more => .ok ([["cc", "é;b"]] ++ more)
        | .error e =>
            .error
              (e.moved ("cc 'é;b' \\\n".utf8ByteSize + 1)) := by
  have hRead :
      parse "cc 'é;b' \\\n" = .ok [["cc", "é;b"]] := by
    rw [parse_eq]
    rfl
  have hSeparator : '|' ∈ ['\n', ';', '|'] := by decide
  exact ⟨hRead, hSeparator, parse_pieces hRead hSeparator "x 'y"⟩

------------------------------------------------------------
-- Continued Lines
------------------------------------------------------------

/- How many backslashes a text ends in. -/
def backslashesAtEnd (s : List Char) : Nat :=
  (s.reverse.takeWhile (· == '\\')).length

theorem backslashesAtEnd_concat
    (s : List Char)
    (c : Char) :
    backslashesAtEnd (s ++ [c]) =
      if c = '\\' then backslashesAtEnd s + 1 else 0 := by
  unfold backslashesAtEnd
  rw [List.reverse_append]
  by_cases hBackslash : c = '\\' <;>
    simp [hBackslash]

/- A backslash waits if the last one is not taken by one before it. -/
theorem Reader.escaping_read
    (s : List Char) :
    (read s).escaping = decide (backslashesAtEnd s % 2 = 1) := by
  induction s using List.reverseRecOn with
  | nil => rfl
  | append_singleton s c ih =>
      rw [read, List.foldl_append, ← read, List.foldl_cons,
        List.foldl_nil, escaping_next, ih,
        backslashesAtEnd_concat]
      by_cases hBackslash : c = '\\'
      · rcases Nat.mod_two_eq_zero_or_one (backslashesAtEnd s)
          with hParity | hParity <;>
          simp [hBackslash, hParity, Nat.add_mod]
      · simp [hBackslash]

/- A backslash and a line feed leave a reader where it was. -/
theorem Reader.next_continuation
    {r : Reader}
    (hEscaping : r.escaping = false) :
    (r.next '\\').next '\n' = r := by
  rw [(Reads.backslash hEscaping).next_eq,
    (Reads.escapedFeed rfl).next_eq, ← hEscaping]

theorem Reader.read_continuation
    {s : List Char}
    (hEven : backslashesAtEnd s % 2 = 0)
    (t : List Char) :
    read (s ++ '\\' :: '\n' :: t) = read (s ++ t) := by
  have hEscaping : (read s).escaping = false := by
    rw [escaping_read]
    simp [hEven]
  rw [read, read, List.foldl_append, List.foldl_append,
    List.foldl_cons, List.foldl_cons, ← read,
    next_continuation hEscaping]

/-
  Where no backslash waits for it, a backslash with a line feed
  behind it is invisible: with and without them a text is not
  read, or it is read as the same commands.
-/
theorem parse_continued
    {s : String}
    (hEven : backslashesAtEnd s.toList % 2 = 0)
    (t : String) :
    (∃ e e', parse (s ++ "\\\n" ++ t) = .error e ∧
        parse (s ++ t) = .error e') ∨
      ∃ commands, parse (s ++ "\\\n" ++ t) = .ok commands ∧
        parse (s ++ t) = .ok commands := by
  have hText :
      (s ++ "\\\n" ++ t).toList =
        s.toList ++ '\\' :: '\n' :: t.toList := by
    simp
  have hSame :
      Reader.read (s ++ "\\\n" ++ t).toList =
        Reader.read (s ++ t).toList := by
    rw [hText, Reader.read_continuation hEven,
      String.toList_append]
  cases hLong : parse (s ++ "\\\n" ++ t) with
  | ok commands =>
      rw [parse_eq_ok_iff, hSame, ← parse_eq_ok_iff] at hLong
      exact Or.inr ⟨commands, rfl, hLong⟩
  | error e =>
      cases hShort : parse (s ++ t) with
      | error e' => exact Or.inl ⟨e, e', rfl, rfl⟩
      | ok commands =>
          rw [parse_eq_ok_iff, ← hSame, ← parse_eq_ok_iff,
            hLong] at hShort
          cases hShort

/- The line goes on inside quotes, behind a backslash that stands for itself. -/
theorem parse_continued_quoted :
    backslashesAtEnd "cc 'a\\\\".toList % 2 = 0 ∧
      parse ("cc 'a\\\\" ++ "\\\n" ++ " b'") =
        .ok [["cc", "a\\ b"]] ∧
      parse ("cc 'a\\\\" ++ " b'") = .ok [["cc", "a\\ b"]] := by
  have hEven : backslashesAtEnd "cc 'a\\\\".toList % 2 = 0 := by
    decide
  have hShort :
      parse ("cc 'a\\\\" ++ " b'") = .ok [["cc", "a\\ b"]] := by
    rw [parse_eq]
    rfl
  refine ⟨hEven, ?_, hShort⟩
  rcases parse_continued hEven " b'" with
    ⟨e, e', -, hError⟩ | ⟨commands, hLong, hSame⟩
  · rw [hShort] at hError
    cases hError
  · rw [hShort] at hSame
    cases hSame
    exact hLong

end Command

end Variability
