import Variability.Proofs.Command.Reader
import Variability.Trace

/-
  Reading a trace by a cursor.

  Loops move one cursor over the characters of a trace, one
  inside the other: over the commands, over the arguments of a
  command, and over the blanks and the characters of an argument.
  No loop has a bound of its own; here each of them may take some
  number of turns. As every turn takes the cursor further, none
  needs more turns than there are characters, and one more.

  Main declarations:
    * `Command.Cursor.loop_spec`
    * `Command.Cursor.parse?`
    * `Command.Cursor.parse?_eq`
    * `Command.parse_by_states`
-/

namespace Variability

namespace Command

namespace Cursor

------------------------------------------------------------
-- Loops
------------------------------------------------------------

variable {σ α : Type}

/- One turn after the other until there is an answer, or no turn is left. -/
def loop (turn : σ → Option (σ ⊕ α)) :
    (turns : Nat) → σ → Option α
  | 0, _ => none
  | turns + 1, st =>
      (turn st).bind fun
        | .inl next => loop turn turns next
        | .inr answer => some answer

/- A turn ends the loop with a good answer, or leaves less to do for one. -/
inductive Advances
    (left : σ → Nat)
    (good : σ → α → Prop)
    (st : σ) : Option (σ ⊕ α) → Prop where
  | goesOn {next : σ}
      (hLess : left next < left st)
      (hGood : ∀ answer, good next answer → good st answer) :
      Advances left good st (some (.inl next))
  | ends {answer : α}
      (hGood : good st answer) :
      Advances left good st (some (.inr answer))

/- A loop of which each turn leaves less to do ends, and well. -/
theorem loop_spec
    {turn : σ → Option (σ ⊕ α)}
    {left : σ → Nat}
    {good : σ → α → Prop}
    (hTurn : ∀ st, Advances left good st (turn st))
    {turns : Nat}
    (st : σ)
    (hTurns : left st < turns) :
    ∃ answer, loop turn turns st = some answer ∧
      good st answer := by
  induction turns generalizing st with
  | zero => cases hTurns
  | succ turns ih =>
      have hFirst := hTurn st
      rw [loop]
      generalize turn st = out at hFirst ⊢
      cases hFirst with
      | @goesOn next hLess hGood =>
          rcases ih next (by omega) with
            ⟨answer, hLoop, hAnswer⟩
          exact ⟨answer, hLoop, hGood answer hAnswer⟩
      | @ends answer hGood => exact ⟨answer, rfl, hGood⟩

------------------------------------------------------------
-- The Cursor
------------------------------------------------------------

/- The characters of a text, and its length in bytes. -/
structure Text where
  chars : Array Located
  size : Nat

namespace Text

/- The character at a place, if there is one. -/
def peek (s : Text) (pos : Nat) : Option Char :=
  s.chars[pos]?.map (·.2)

/- The offset of a place, which may be the end. -/
def offset (s : Text) (pos : Nat) : Nat :=
  (s.chars[pos]?.map (·.1)).getD s.size

end Text

/- Go over a blank. -/
def blankTurn (s : Text) (pos : Nat) : Option (Nat ⊕ Nat) :=
  some
    (if (s.peek pos).any isBlank then .inl (pos + 1)
    else .inr pos)

/- A character that opens and closes quotes. -/
abbrev Quote := { c : Char // isQuote c = true }

/- How far an argument is read. -/
structure Argument where
  opened : Option Quote := none
  taken : List Char := []
  pos : Nat

/- The argument ends here, if no quote is open. -/
def Argument.close
    (s : Text)
    (st : Argument) :
    Except ReadError (List Char × Nat) :=
  if st.opened.isSome then
    .error (.unterminatedQuote (s.offset (st.pos - 1)))
  else
    .ok (st.taken, st.pos)

/- Put a character into an argument, and go on behind it. -/
def Argument.push (st : Argument) (c : Char) : Argument :=
  { st with taken := st.taken ++ [c], pos := st.pos + 1 }

/- Go over a character of an argument that is no backslash. -/
def Argument.take
    (s : Text)
    (st : Argument)
    (c : Char) :
    Argument ⊕ Except ReadError (List Char × Nat) :=
  if st.opened.isNone && (isSeparator c || isBlank c) then
    .inr (st.close s)
  else if hQuote : isQuote c then
    match st.opened with
    | none =>
        .inl
          { st with
            opened := some ⟨c, hQuote⟩, pos := st.pos + 1 }
    | some q =>
        if q.val = c then
          .inl { st with opened := none, pos := st.pos + 1 }
        else
          .inl (st.push c)
  else
    .inl (st.push c)

/- Go over a character of an argument, or over two. -/
def argumentTurn
    (s : Text)
    (st : Argument) :
    Option (Argument ⊕ Except ReadError (List Char × Nat)) :=
  some <|
    match s.peek st.pos with
    | none => .inr (st.close s)
    | some c =>
        if c = '\\' then
          match s.peek (st.pos + 1) with
          | none =>
              .inr (.error (.endsInBackslash (s.offset st.pos)))
          | some c' =>
              .inl
                { st with
                  taken :=
                    if c' = '\n' then st.taken
                    else st.taken ++ [c']
                  pos := st.pos + 2 }
        else
          st.take s c

/- Go over blanks and an argument, or over what ends a command. -/
def commandTurn
    (s : Text)
    (turns : Nat)
    (st : List String × Nat) :
    Option
      ((List String × Nat) ⊕
        Except ReadError (List String × Nat)) :=
  if (s.peek st.2).all isSeparator then
    some (.inr (.ok (st.1, st.2 + 1)))
  else
    (loop (blankTurn s) turns st.2).bind fun start =>
      (loop (argumentTurn s) turns { pos := start }).map fun
        | .error e => .inr (.error e)
        | .ok (argument, stop) =>
            .inl (st.1 ++ argumentsOf argument, stop)

/- Go over a command, unless the text is over. -/
def textTurn
    (s : Text)
    (turns : Nat)
    (st : List (List String) × Nat) :
    Option
      ((List (List String) × Nat) ⊕
        Except ReadError (List (List String))) :=
  if st.2 < s.chars.size then
    (loop (commandTurn s turns) turns ([], st.2)).map fun
      | .error e => .inr (.error e)
      | .ok (arguments, stop) =>
          .inl (st.1 ++ commandsOf arguments, stop)
  else
    some (.inr (.ok st.1))

/- The commands of a text, unless a loop takes more turns than it may. -/
def parse? (turns : Nat) (text : String) :
    Option (Except ReadError (List (List String))) :=
  let s : Text :=
    ⟨(locate 0 text.toList).toArray, text.utf8ByteSize⟩
  loop (textTurn s turns) turns ([], 0)

------------------------------------------------------------
-- What Is Ahead
------------------------------------------------------------

namespace Text

/- The characters from a place on. -/
def ahead (s : Text) (pos : Nat) : List Located :=
  s.chars.toList.drop pos

/- An answer with what is ahead of the cursor in the place of the cursor. -/
def located
    (s : Text)
    (answer : Except ReadError (α × Nat)) :
    Except ReadError (α × List Located) :=
  answer.map fun (a, pos) => (a, s.ahead pos)

variable {s : Text}
variable {pos : Nat}
variable {l : Located}
variable {rest : List Located}

theorem getElem?_eq_head? :
    s.chars[pos]? = (s.ahead pos).head? := by
  rw [ahead, List.head?_drop, Array.getElem?_toList]

theorem peek_of_nil
    (hAhead : s.ahead pos = []) :
    s.peek pos = none := by
  rw [peek, getElem?_eq_head?, hAhead]
  rfl

theorem peek_of_cons
    (hAhead : s.ahead pos = l :: rest) :
    s.peek pos = some l.2 := by
  rw [peek, getElem?_eq_head?, hAhead]
  rfl

theorem offset_of_cons
    (hAhead : s.ahead pos = l :: rest) :
    s.offset pos = l.1 := by
  rw [offset, getElem?_eq_head?, hAhead]
  rfl

theorem ahead_succ
    (hAhead : s.ahead pos = l :: rest) :
    s.ahead (pos + 1) = rest := by
  rw [ahead, ← List.drop_drop, ← ahead, hAhead]
  rfl

theorem ahead_succ_of_nil
    (hAhead : s.ahead pos = []) :
    s.ahead (pos + 1) = [] := by
  rw [ahead, ← List.drop_drop, ← ahead, hAhead]
  rfl

theorem length_ahead :
    (s.ahead pos).length = s.chars.size - pos := by
  rw [ahead, List.length_drop, Array.length_toList]

end Text

------------------------------------------------------------
-- Single Turns
------------------------------------------------------------

variable {s : Text}

theorem advances_blankTurn (pos : Nat) :
    Advances (fun pos => (s.ahead pos).length)
      (fun pos start =>
        s.ahead start =
          (s.ahead pos).dropWhile (isBlank ·.2))
      pos (blankTurn s pos) := by
  unfold blankTurn
  cases hAhead : s.ahead pos with
  | nil =>
      rw [Text.peek_of_nil hAhead]
      refine .ends ?_
      rw [hAhead]
      rfl
  | cons l rest =>
      rw [Text.peek_of_cons hAhead, Option.any_some]
      have hNext := Text.ahead_succ hAhead
      split
      · rename_i hBlank
        refine .goesOn ?_ fun start hStart => ?_
        · rw [hAhead, hNext, List.length_cons]
          omega
        · rw [hStart, hAhead, hNext, List.dropWhile_cons,
            if_pos hBlank]
      · rename_i hNoBlank
        refine .ends ?_
        rw [hAhead, List.dropWhile_cons, if_neg hNoBlank]

/- What is read of the argument and the text from here on. -/
def Argument.reading
    (s : Text)
    (st : Argument) :
    Except ReadError (List Char × List Located) :=
  readArgument (st.opened.map (·.val)) (s.offset (st.pos - 1))
    st.taken.reverse (s.ahead st.pos)

/- Where an argument is read on, as much is read of it in the end. -/
theorem Argument.advances
    {st next : Argument}
    {pos : Nat}
    {l : Located}
    {rest : List Located}
    (hAhead : s.ahead pos = l :: rest)
    (hPos : next.pos = pos + 1)
    (hLess : rest.length < (s.ahead st.pos).length)
    (hSame :
      readArgument (next.opened.map (·.val)) l.1
        next.taken.reverse rest = st.reading s) :
    Advances (fun st => (s.ahead st.pos).length)
      (fun st answer => s.located answer = st.reading s)
      st (some (.inl next)) := by
  have hNext := Text.ahead_succ hAhead
  refine .goesOn ?_ fun answer hAnswer => hAnswer.trans ?_
  · rwa [hPos, hNext]
  · rw [reading, hPos, hNext, ← hSame, Nat.add_sub_cancel,
      Text.offset_of_cons hAhead]

theorem advances_take
    {st : Argument}
    {offset : Nat}
    {c : Char}
    {rest : List Located}
    (hAhead : s.ahead st.pos = (offset, c) :: rest)
    (hBackslash : c ≠ '\\') :
    Advances (fun st => (s.ahead st.pos).length)
      (fun st answer => s.located answer = st.reading s)
      st (some (st.take s c)) := by
  have hLess : rest.length < (s.ahead st.pos).length := by
    rw [hAhead, List.length_cons]
    omega
  unfold Argument.take
  cases hOpened : st.opened with
  | none =>
      cases hEnd : isSeparator c || isBlank c with
      | true =>
          rw [if_pos (by simp)]
          refine .ends ?_
          simp [Argument.reading, Argument.close, hOpened, hAhead,
            readArgument_ended hEnd, Text.located, Except.map]
      | false =>
          rw [if_neg (by simp)]
          by_cases hQuote : isQuote c = true
          · rw [dif_pos hQuote]
            refine Argument.advances hAhead rfl hLess ?_
            rw [Argument.reading, hAhead, hOpened]
            exact (readArgument_opening hQuote).symm
          · rw [dif_neg hQuote]
            rw [Bool.not_eq_true] at hQuote
            refine Argument.advances hAhead rfl hLess ?_
            rw [Argument.reading, hAhead, Argument.push, hOpened,
              List.reverse_append]
            exact
              (readArgument_plain hEnd hQuote hBackslash).symm
  | some q =>
      rw [if_neg (by simp)]
      have hReading :
          st.reading s =
            readArgument (some q.val) (s.offset (st.pos - 1))
              st.taken.reverse ((offset, c) :: rest) := by
        rw [Argument.reading, hOpened, hAhead]
        rfl
      have hPush (hOther : c ≠ q.val) :
          Advances (fun st => (s.ahead st.pos).length)
            (fun st answer => s.located answer = st.reading s)
            st (some (.inl (st.push c))) := by
        refine Argument.advances hAhead rfl hLess ?_
        rw [Argument.push, hOpened, List.reverse_append, hReading]
        exact (readArgument_enclosed hBackslash hOther).symm
      by_cases hClosing : q.val = c
      · rw [dif_pos (by rw [← hClosing]; exact q.property)]
        dsimp only
        rw [if_pos hClosing]
        refine Argument.advances hAhead rfl hLess ?_
        rw [hReading, hClosing]
        exact (readArgument_closing hBackslash).symm
      · have hOther : c ≠ q.val := Ne.symm hClosing
        dsimp only
        rw [if_neg hClosing]
        split
        · exact hPush hOther
        · exact hPush hOther

theorem advances_argumentTurn (st : Argument) :
    Advances (fun st => (s.ahead st.pos).length)
      (fun st answer => s.located answer = st.reading s)
      st (argumentTurn s st) := by
  unfold argumentTurn
  cases hAhead : s.ahead st.pos with
  | nil =>
      rw [Text.peek_of_nil hAhead]
      refine .ends ?_
      rw [Argument.reading, hAhead, Argument.close]
      cases st.opened with
      | none =>
          simp [readArgument, Text.located, Except.map, hAhead]
      | some q => rfl
  | cons l rest =>
      rcases l with ⟨offset, c⟩
      rw [Text.peek_of_cons hAhead]
      by_cases hBackslash : c = '\\'
      · subst hBackslash
        have hNext := Text.ahead_succ hAhead
        dsimp only
        rw [if_pos rfl]
        cases rest with
        | nil =>
            rw [Text.peek_of_nil hNext]
            refine .ends ?_
            rw [Argument.reading, hAhead,
              Text.offset_of_cons hAhead]
            rfl
        | cons l' rest =>
            rcases l' with ⟨offset', c'⟩
            rw [Text.peek_of_cons hNext]
            refine Argument.advances hNext rfl ?_ ?_
            · rw [hAhead, List.length_cons, List.length_cons]
              omega
            · rw [Argument.reading, hAhead, readArgument]
              split <;> simp
      · dsimp only
        rw [if_neg hBackslash]
        exact advances_take hAhead hBackslash

/- Blanks in front of a command do not matter. -/
theorem readCommand_dropWhile (s : List Located) :
    readCommand (s.dropWhile (isBlank ·.2)) = readCommand s := by
  induction s with
  | nil => rfl
  | cons l s ih =>
      rcases l with ⟨offset, c⟩
      rw [List.dropWhile_cons]
      split
      · rename_i hBlank
        have hKinds : c = ' ' ∨ c = '\t' := by
          simpa [isBlank] using hBlank
        rw [ih, readCommand_blank _ hBlank]
        rcases hKinds with rfl | rfl <;> rfl
      · rfl

/- Blanks and an argument are something, unless the command is over. -/
theorem length_lt_of_readArgument_dropWhile
    {last : Nat}
    {l : Located}
    {rest rest' : List Located}
    {argument : List Char}
    (hSeparator : isSeparator l.2 = false)
    (hRead :
      readArgument none last []
          ((l :: rest).dropWhile (isBlank ·.2)) =
        .ok (argument, rest')) :
    rest'.length < (l :: rest).length := by
  rw [List.length_cons]
  rw [List.dropWhile_cons] at hRead
  split at hRead
  · have hBlanks :=
      (List.dropWhile_sublist (l := rest)
        (isBlank ·.2)).length_le
    have hRest := length_le_of_readArgument hRead
    omega
  · rename_i hBlank
    rw [Bool.not_eq_true] at hBlank
    rw [readArgument_start last 0] at hRead
    exact
      length_lt_of_readArgument (by rw [hSeparator, hBlank]; rfl)
        hRead

/- What a loop over blanks and one over an argument do. -/
theorem exists_argument
    {turns : Nat}
    (hTurns : s.chars.size < turns)
    (pos : Nat) :
    ∃ start found,
      loop (blankTurn s) turns pos = some start ∧
        loop (argumentTurn s) turns { pos := start } =
            some found ∧
          s.located found =
            readArgument none (s.offset (start - 1)) []
              ((s.ahead pos).dropWhile (isBlank ·.2)) := by
  have hEnough (pos : Nat) : (s.ahead pos).length < turns := by
    rw [Text.length_ahead]
    omega
  rcases loop_spec advances_blankTurn pos (hEnough pos) with
    ⟨start, hBlanks, hStart⟩
  rcases loop_spec advances_argumentTurn { pos := start }
      (hEnough start) with
    ⟨found, hArgument, hFound⟩
  rw [← hStart]
  exact ⟨start, found, hBlanks, hArgument, hFound⟩

theorem advances_commandTurn
    {turns : Nat}
    (hTurns : s.chars.size < turns)
    (st : List String × Nat) :
    Advances (fun st => (s.ahead st.2).length)
      (fun st answer =>
        s.located answer =
          (readCommand (s.ahead st.2)).map fun (arguments, rest) =>
            (st.1 ++ arguments, rest))
      st (commandTurn s turns st) := by
  rcases st with ⟨before, pos⟩
  unfold commandTurn
  dsimp only
  cases hAhead : s.ahead pos with
  | nil =>
      rw [Text.peek_of_nil hAhead]
      refine .ends ?_
      simp [hAhead, Text.located, Text.ahead_succ_of_nil hAhead,
        readCommand_nil, Except.map]
  | cons l rest =>
      rw [Text.peek_of_cons hAhead, Option.all_some]
      cases hSeparator : isSeparator l.2 with
      | true =>
          rw [if_pos rfl]
          refine .ends ?_
          simp [hAhead, Text.located, Text.ahead_succ hAhead,
            readCommand_separator hSeparator, Except.map]
      | false =>
          rw [if_neg Bool.false_ne_true]
          rcases exists_argument hTurns pos with
            ⟨start, found, hBlanks, hArgument, hFound⟩
          have hCommand :=
            readCommand_eq (s.offset (start - 1))
              ((s.ahead pos).dropWhile (isBlank ·.2))
          rw [readCommand_dropWhile, ← hFound] at hCommand
          rw [hBlanks, Option.bind_some, hArgument]
          cases found with
          | error e =>
              refine .ends ?_
              rw [hCommand]
              rfl
          | ok found =>
              rcases found with ⟨argument, stop⟩
              rw [hAhead] at hFound
              refine .goesOn ?_ fun answer hAnswer => ?_
              · rw [hAhead]
                exact
                  length_lt_of_readArgument_dropWhile hSeparator
                    hFound.symm
              · rw [hAnswer, hCommand]
                simp only [Text.located, Except.map, Except.bind]
                cases readCommand (s.ahead stop) <;> simp

theorem advances_textTurn
    {turns : Nat}
    (hTurns : s.chars.size < turns)
    (st : List (List String) × Nat) :
    Advances (fun st => (s.ahead st.2).length)
      (fun st answer =>
        answer = (readCommands (s.ahead st.2)).map (st.1 ++ ·))
      st (textTurn s turns st) := by
  rcases st with ⟨before, pos⟩
  have hEnough : (s.ahead pos).length < turns := by
    rw [Text.length_ahead]
    omega
  unfold textTurn
  dsimp only
  split
  · rename_i hInside
    rcases loop_spec (advances_commandTurn hTurns) ([], pos)
        hEnough with
      ⟨found, hLoop, hFound⟩
    have hCommand : s.located found = readCommand (s.ahead pos) := by
      rw [hFound]
      exact congrFun Except.map_id _
    have hCommands := readCommands_eq (s.ahead pos)
    rw [← hCommand] at hCommands
    rw [hLoop]
    cases found with
    | error e =>
        refine .ends ?_
        rw [hCommands]
        rfl
    | ok found =>
        rcases found with ⟨arguments, stop⟩
        refine .goesOn ?_ fun answer hAnswer => ?_
        · refine length_lt_of_readCommand ?_ hCommand.symm
          rw [ne_eq, ← List.length_eq_zero_iff, Text.length_ahead]
          omega
        · rw [hAnswer, hCommands]
          simp only [Text.located, Except.map, Except.bind]
          cases readCommands (s.ahead stop) <;> simp
  · rename_i hOutside
    have hEnd : s.ahead pos = [] := by
      rw [← List.length_eq_zero_iff, Text.length_ahead]
      omega
    refine .ends ?_
    rw [hEnd, readCommands_nil]
    simp [Except.map]

theorem length_locate
    (offset : Nat)
    (text : List Char) :
    (locate offset text).length = text.length := by
  induction text generalizing offset with
  | nil => rfl
  | cons c text ih =>
      rw [locate, List.length_cons, ih]
      rfl

/- All loops end, and the outermost one with what reading gives. -/
theorem parse?_eq
    {turns : Nat}
    {text : String}
    (hTurns : text.length < turns) :
    parse? turns text = some (parse text) := by
  have hSize :
      (locate 0 text.toList).toArray.size < turns := by
    rwa [List.size_toArray, length_locate, String.length_toList]
  rcases loop_spec
      (advances_textTurn
        (s := ⟨(locate 0 text.toList).toArray, text.utf8ByteSize⟩)
        hSize)
      ([], 0) hSize with
    ⟨answer, hLoop, hAnswer⟩
  rw [parse?, hLoop, hAnswer]
  exact congrArg some (congrFun Except.map_id _)

end Cursor

end Command

------------------------------------------------------------
-- First Words
------------------------------------------------------------

namespace Trace

/- Take one command by its first word, unless there is none. -/
def Progress.step?
    (p : Progress)
    (command : List String) :
    Option Progress :=
  command[0]?.map fun _ => p.step command

/- The calls of a trace, unless a command has no first word. -/
def invocations?
    (trace : String) :
    Option (Except Command.ReadError (List Invocation × Log)) :=
  match Command.parse trace with
  | .error e => some (.error e)
  | .ok commands =>
      (commands.foldlM Progress.step? {}).map fun p =>
        .ok (p.calls, p.log)

theorem foldlM_step?
    {commands : List (List String)}
    (hNonempty : [] ∉ commands)
    (p : Progress) :
    commands.foldlM Progress.step? p =
      some (commands.foldl Progress.step p) := by
  induction commands generalizing p with
  | nil => rfl
  | cons command commands ih =>
      rw [List.mem_cons, not_or] at hNonempty
      cases command with
      | nil => exact absurd rfl hNonempty.1
      | cons word words => exact ih hNonempty.2 _

theorem invocations?_eq
    {trace : String}
    (hNonempty :
      ∀ commands, Command.parse trace = .ok commands →
        [] ∉ commands) :
    invocations? trace = some (invocations trace) := by
  unfold invocations? invocations
  cases hParse : Command.parse trace with
  | error e => rfl
  | ok commands =>
      dsimp only
      rw [foldlM_step? (hNonempty commands hParse)]
      rfl

end Trace

namespace Command

/- An error is noticed at the last character of a text. -/
theorem exists_of_parse_eq_error
    {text : String}
    {e : ReadError}
    (hError : parse text = .error e) :
    (Reader.read text.toList).isPending = true ∧
      ∃ front c, text = front ++ String.singleton c ∧
        e.offset = front.utf8ByteSize := by
  rw [parse_eq] at hError
  rcases Reader.outcome_eq_error hError with ⟨hPending, hOffset⟩
  refine ⟨hPending, ?_⟩
  rcases List.eq_nil_or_concat text.toList with
    hNone | ⟨front, c, hText⟩
  · rw [hNone] at hPending
    cases hPending
  · refine ⟨String.ofList front, c, ?_, ?_⟩
    · apply String.toList_injective
      simp [hText]
    · rw [hOffset, hText, List.concat_eq_append,
        Reader.lastOffset_append, Nat.zero_add]
      rfl

/-
  Every loop over a trace ends after at most as many turns as
  there are characters, and one more. A trace is not read if and
  only if it ends in an open quote or behind a backslash that
  waits, which is noticed at its last character. Otherwise its
  commands are those of the reader, none of them is empty or has
  an empty argument, and so each has a first word to be taken by.
-/
theorem parse_by_states
    (text : String) :
    (∀ turns, text.length < turns →
        Cursor.parse? turns text = some (parse text)) ∧
      ((∃ e, parse text = .error e) ↔
        (Reader.read text.toList).isPending = true) ∧
      (∀ e, parse text = .error e →
        ∃ front c, text = front ++ String.singleton c ∧
          e.offset = front.utf8ByteSize) ∧
      (∀ commands, parse text = .ok commands →
        commands =
            (Reader.read text.toList).endCommand.commands ∧
          [] ∉ commands ∧
            ∀ command ∈ commands, "" ∉ command) ∧
      Trace.invocations? text = some (Trace.invocations text) := by
  have hClean {commands : List (List String)}
      (hRead : parse text = .ok commands) :
      commands =
          (Reader.read text.toList).endCommand.commands ∧
        ∀ command ∈ commands, command ≠ [] ∧ "" ∉ command := by
    rw [parse_eq, Reader.outcome_eq_ok_iff] at hRead
    rw [← hRead.2]
    exact ⟨rfl, (Reader.isClean_read _).endCommand.commands⟩
  have hNonempty (commands : List (List String))
      (hRead : parse text = .ok commands) :
      [] ∉ commands :=
    fun hMem => ((hClean hRead).2 [] hMem).1 rfl
  refine
    ⟨fun turns => Cursor.parse?_eq, ⟨?_, fun hPending => ?_⟩,
      fun e hError => (exists_of_parse_eq_error hError).2,
      fun commands hRead =>
        ⟨(hClean hRead).1, hNonempty commands hRead,
          fun command hMem =>
            ((hClean hRead).2 command hMem).2⟩,
      Trace.invocations?_eq hNonempty⟩
  · rintro ⟨e, hError⟩
    exact (exists_of_parse_eq_error hError).1
  · cases hRead : parse text with
    | error e => exact ⟨e, rfl⟩
    | ok commands =>
        rw [parse_eq, Reader.outcome_eq_ok_iff, hPending] at hRead
        cases hRead.1

end Command

end Variability
