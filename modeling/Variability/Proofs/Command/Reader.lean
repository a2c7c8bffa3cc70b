import Variability.Proofs.Command.Quoting

/-
  Reading a trace character by character.

  A reader goes over a trace once. Between two characters it
  knows the quote that is open, whether a backslash waits for
  the next character, and what there is of the argument, of the
  command and of the trace. Arguments, commands and traces that
  are read one inside the other come out the same: what is still
  to be read so from a place on is what is left to read when the
  reader has taken one character more.

  Main declarations:
    * `Command.Reader.next`
    * `Command.Reader.complete_next`
    * `Command.parse_eq`
-/

namespace Variability

namespace Command

------------------------------------------------------------
-- The Reader
------------------------------------------------------------

/- Where the reading of a trace stands between two characters. -/
structure Reader where
  /- The quote that is open. -/
  opened : Option Char := none
  /- Whether a backslash takes the next character as it is. -/
  escaping : Bool := false
  argument : List Char := []
  arguments : List String := []
  commands : List (List String) := []
  deriving DecidableEq

/- An argument, unless it is empty. -/
def argumentsOf (argument : List Char) : List String :=
  if argument = [] then [] else [String.ofList argument]

/- A command, unless it has no arguments. -/
def commandsOf (arguments : List String) : List (List String) :=
  if arguments = [] then [] else [arguments]

namespace Reader

/- Put a character into the argument. -/
def take (r : Reader) (c : Char) : Reader :=
  { r with argument := r.argument ++ [c] }

/- The argument is over. -/
def endArgument (r : Reader) : Reader :=
  { r with
    argument := []
    arguments := r.arguments ++ argumentsOf r.argument }

/- The command is over, and so is its last argument. -/
def endCommand (r : Reader) : Reader :=
  { r with
    argument := []
    arguments := []
    commands :=
      r.commands ++
        commandsOf (r.arguments ++ argumentsOf r.argument) }

/- Read one character. -/
def next (r : Reader) (c : Char) : Reader :=
  if r.escaping then
    if c = '\n' then
      { r with escaping := false }
    else
      { r.take c with escaping := false }
  else if c = '\\' then
    { r with escaping := true }
  else
    match r.opened with
    | some q =>
        if c = q then { r with opened := none } else r.take c
    | none =>
        if isSeparator c then r.endCommand
        else if isBlank c then r.endArgument
        else if isQuote c then { r with opened := some c }
        else r.take c

/- Read a text from its start. -/
def read (text : List Char) : Reader :=
  text.foldl next {}

/- Whether a quote is open or a backslash waits. -/
def isPending (r : Reader) : Bool :=
  r.escaping || r.opened.isSome

/-
  What has been read if nothing follows; `last` is the offset of
  the last character.
-/
def outcome
    (r : Reader)
    (last : Nat) :
    Except ReadError (List (List String)) :=
  if r.escaping then
    .error (.endsInBackslash last)
  else if r.opened.isSome then
    .error (.unterminatedQuote last)
  else
    .ok r.endCommand.commands

------------------------------------------------------------
-- Single Steps
------------------------------------------------------------

variable {r : Reader}
variable {c : Char}

/- What the next character can do to a reader. -/
inductive Reads (r : Reader) : Char → Reader → Prop where
  | escapedFeed
      (hEscaping : r.escaping = true) :
      Reads r '\n' { r with escaping := false }
  | escaped {c : Char}
      (hEscaping : r.escaping = true)
      (hFeed : c ≠ '\n') :
      Reads r c { r.take c with escaping := false }
  | backslash
      (hEscaping : r.escaping = false) :
      Reads r '\\' { r with escaping := true }
  | closing {c : Char}
      (hEscaping : r.escaping = false)
      (hBackslash : c ≠ '\\')
      (hOpened : r.opened = some c) :
      Reads r c { r with opened := none }
  | quoted {c q : Char}
      (hEscaping : r.escaping = false)
      (hBackslash : c ≠ '\\')
      (hOpened : r.opened = some q)
      (hOther : c ≠ q) :
      Reads r c (r.take c)
  | separator {c : Char}
      (hEscaping : r.escaping = false)
      (hBackslash : c ≠ '\\')
      (hOpened : r.opened = none)
      (hSeparator : isSeparator c = true) :
      Reads r c r.endCommand
  | blank {c : Char}
      (hEscaping : r.escaping = false)
      (hBackslash : c ≠ '\\')
      (hOpened : r.opened = none)
      (hSeparator : isSeparator c = false)
      (hBlank : isBlank c = true) :
      Reads r c r.endArgument
  | opening {c : Char}
      (hEscaping : r.escaping = false)
      (hBackslash : c ≠ '\\')
      (hOpened : r.opened = none)
      (hQuote : isQuote c = true) :
      Reads r c { r with opened := some c }
  | plain {c : Char}
      (hEscaping : r.escaping = false)
      (hBackslash : c ≠ '\\')
      (hOpened : r.opened = none)
      (hEnd : (isSeparator c || isBlank c) = false)
      (hQuote : isQuote c = false) :
      Reads r c (r.take c)

theorem reads_next
    (r : Reader)
    (c : Char) :
    Reads r c (r.next c) := by
  unfold next
  by_cases hEscaping : r.escaping = true
  · rw [if_pos hEscaping]
    split
    · rename_i hFeed
      rw [hFeed]
      exact .escapedFeed hEscaping
    · exact .escaped hEscaping ‹_›
  · rw [if_neg hEscaping]
    rw [Bool.not_eq_true] at hEscaping
    split
    · rename_i hBackslash
      rw [hBackslash]
      exact .backslash hEscaping
    · rename_i hBackslash
      cases hOpened : r.opened with
      | some q =>
          dsimp only
          split
          · rename_i hClosing
            rw [← hClosing] at hOpened
            exact .closing hEscaping hBackslash hOpened
          · exact .quoted hEscaping hBackslash hOpened ‹_›
      | none =>
          dsimp only
          split_ifs with hSeparator hBlank hQuote
          · exact
              .separator hEscaping hBackslash hOpened hSeparator
          · rw [Bool.not_eq_true] at hSeparator
            exact
              .blank hEscaping hBackslash hOpened hSeparator
                hBlank
          · exact .opening hEscaping hBackslash hOpened hQuote
          · rw [Bool.not_eq_true] at hSeparator hBlank hQuote
            have hEnd : (isSeparator c || isBlank c) = false := by
              rw [hSeparator, hBlank]
              rfl
            exact .plain hEscaping hBackslash hOpened hEnd hQuote

theorem Reads.next_eq
    {r' : Reader}
    (hReads : Reads r c r') :
    r.next c = r' := by
  cases hReads with
  | plain hEscaping hBackslash hOpened hEnd hQuote =>
      rw [Bool.or_eq_false_iff] at hEnd
      simp [next, *]
  | opening hEscaping hBackslash hOpened hQuote =>
      have hKinds : c = '"' ∨ c = '\'' := by
        simpa [isQuote] using hQuote
      rcases hKinds with rfl | rfl <;>
        simp [next, isSeparator, isBlank, isQuote, *]
  | _ => simp [next, *]

/- A backslash waits behind a backslash for which none waited. -/
theorem escaping_next
    (r : Reader)
    (c : Char) :
    (r.next c).escaping = (!r.escaping && c == '\\') := by
  have hNext := reads_next r c
  generalize r.next c = r' at hNext ⊢
  cases hNext <;>
    simp_all [take, endArgument, endCommand]

/- Nothing is pending if neither a backslash waits nor a quote is open. -/
theorem isPending_eq_false_iff :
    r.isPending = false ↔
      r.escaping = false ∧ r.opened = none := by
  simp [isPending]

theorem outcome_eq_ok_iff
    {last : Nat}
    {commands : List (List String)} :
    r.outcome last = .ok commands ↔
      r.isPending = false ∧ r.endCommand.commands = commands := by
  rw [isPending_eq_false_iff, outcome]
  cases hEscaping : r.escaping <;>
    cases hOpened : r.opened <;> simp

theorem outcome_eq_error
    {last : Nat}
    {e : ReadError}
    (hError : r.outcome last = .error e) :
    r.isPending = true ∧ e.offset = last := by
  rw [outcome] at hError
  cases hEscaping : r.escaping <;>
    cases hOpened : r.opened <;>
      simp [hEscaping, hOpened, isPending] at hError ⊢ <;>
      (subst hError; rfl)

------------------------------------------------------------
-- Empty Arguments and Commands
------------------------------------------------------------

theorem not_mem_argumentsOf
    (argument : List Char) :
    "" ∉ argumentsOf argument := by
  unfold argumentsOf
  split
  · exact List.not_mem_nil
  · rename_i hNonempty
    rw [List.mem_singleton]
    intro hEmpty
    apply hNonempty
    simpa using congrArg String.toList hEmpty.symm

/- No command is empty, and no argument of any. -/
structure IsClean (r : Reader) : Prop where
  arguments : "" ∉ r.arguments
  commands : ∀ command ∈ r.commands, command ≠ [] ∧ "" ∉ command

theorem IsClean.endArgument
    (hClean : r.IsClean) :
    r.endArgument.IsClean where
  arguments := by
    rw [Reader.endArgument, List.mem_append, not_or]
    exact ⟨hClean.arguments, not_mem_argumentsOf _⟩
  commands := hClean.commands

theorem IsClean.endCommand
    (hClean : r.IsClean) :
    r.endCommand.IsClean where
  arguments := List.not_mem_nil
  commands := by
    intro command hMem
    have hArguments := hClean.endArgument.arguments
    rw [Reader.endCommand, List.mem_append] at hMem
    rcases hMem with hOld | hNew
    · exact hClean.commands command hOld
    · unfold commandsOf at hNew
      split at hNew
      · cases hNew
      · rw [List.mem_singleton.mp hNew]
        exact ⟨‹_›, hArguments⟩

theorem IsClean.next
    (hClean : r.IsClean)
    (c : Char) :
    (r.next c).IsClean := by
  have hNext := reads_next r c
  generalize r.next c = r' at hNext ⊢
  cases hNext with
  | separator => exact hClean.endCommand
  | blank => exact hClean.endArgument
  | _ => exact ⟨hClean.arguments, hClean.commands⟩

theorem isClean_read
    (text : List Char) :
    (read text).IsClean := by
  have hRun {r : Reader} (hClean : r.IsClean) :
      (text.foldl next r).IsClean := by
    induction text generalizing r with
    | nil => exact hClean
    | cons c text ih => exact ih (hClean.next c)
  exact hRun ⟨List.not_mem_nil, nofun⟩

end Reader

------------------------------------------------------------
-- One Turn of Each Loop
------------------------------------------------------------

variable {last offset : Nat}
variable {taken : List Char}
variable {s : List Located}
variable {c : Char}

theorem readArgument_ended
    (hEnd : (isSeparator c || isBlank c) = true) :
    readArgument none last taken ((offset, c) :: s) =
      .ok (taken.reverse, (offset, c) :: s) := by
  rw [readArgument, if_pos hEnd]
  rintro rfl
  cases hEnd

/- Before an argument starts, the last character does not matter. -/
theorem readArgument_start
    (last last' : Nat)
    (s : List Located) :
    readArgument none last [] s = readArgument none last' [] s := by
  rw [readArgument.eq_def, readArgument.eq_def none last']

theorem readCommand_nil : readCommand [] = .ok ([], []) := by
  rw [readCommand]

theorem readCommands_nil : readCommands [] = .ok [] := by
  rw [readCommands, dif_pos rfl]

theorem readCommand_separator
    (hEnd : isSeparator c = true) :
    readCommand ((offset, c) :: s) = .ok ([], s) := by
  rw [readCommand, dif_pos hEnd]

theorem readCommand_blank
    (hNoEnd : isSeparator c = false)
    (hBlank : isBlank c = true) :
    readCommand ((offset, c) :: s) = readCommand s := by
  rw [readCommand, dif_neg (by simp [hNoEnd]), dif_pos hBlank]

/- A command is an argument, perhaps empty, and the rest of the command. -/
theorem readCommand_eq
    (last : Nat)
    (s : List Located) :
    readCommand s =
      (readArgument none last [] s).bind fun (argument, rest) =>
        (readCommand rest).map fun (arguments, rest) =>
          (argumentsOf argument ++ arguments, rest) := by
  cases s with
  | nil =>
      rw [readArgument]
      simp [Except.bind, Except.map, argumentsOf,
        readCommand_nil]
  | cons l s =>
      rcases l with ⟨offset, c⟩
      by_cases hEnd : (isSeparator c || isBlank c) = true
      · rw [readArgument_ended hEnd]
        dsimp only [Except.bind]
        cases readCommand ((offset, c) :: s) <;> rfl
      · rw [Bool.not_eq_true, Bool.or_eq_false_iff] at hEnd
        rw [readArgument_start last 0, readCommand]
        simp only [hEnd.1, hEnd.2, Bool.false_eq_true, dite_false]
        cases readArgument none 0 [] ((offset, c) :: s) with
        | error e => rfl
        | ok read =>
            rcases read with ⟨argument, rest⟩
            dsimp only [Except.bind]
            cases readCommand rest with
            | error e => rfl
            | ok read =>
                by_cases hEmpty : argument = [] <;>
                  simp [Except.map, argumentsOf, hEmpty]

/- A text is a command, perhaps without arguments, and the rest. -/
theorem readCommands_eq
    (s : List Located) :
    readCommands s =
      (readCommand s).bind fun (arguments, rest) =>
        (readCommands rest).map fun commands =>
          commandsOf arguments ++ commands := by
  by_cases hEnd : s = []
  · rw [hEnd, readCommand_nil, readCommands_nil]
    simp [Except.bind, Except.map, commandsOf,
      readCommands_nil]
  · rw [readCommands, dif_neg hEnd]
    cases readCommand s with
    | error e => rfl
    | ok read =>
        rcases read with ⟨arguments, rest⟩
        dsimp only [Except.bind]
        cases readCommands rest with
        | error e => rfl
        | ok commands =>
            by_cases hEmpty : arguments = [] <;>
              simp [Except.map, commandsOf, hEmpty]

------------------------------------------------------------
-- What Is Still to Be Read
------------------------------------------------------------

namespace Reader

/- What is read in the end, once the argument under way is known. -/
def finish
    (r : Reader) :
    List Char × List Located →
      Except ReadError (List (List String))
  | (argument, rest) =>
      (readCommand rest).bind fun (arguments, rest) =>
        (readCommands rest).map fun commands =>
          r.commands ++
            commandsOf
              (r.arguments ++ argumentsOf argument ++ arguments) ++
            commands

/-
  What is read in the end if `s` follows a character with the
  offset `last`. A backslash that waits is read once more.
-/
def complete
    (r : Reader)
    (last : Nat)
    (s : List Located) :
    Except ReadError (List (List String)) :=
  (readArgument r.opened last r.argument.reverse
    (if r.escaping then (last, '\\') :: s else s)).bind r.finish

variable {r : Reader}

theorem complete_unescaped
    (hEscaping : r.escaping = false) :
    r.complete last s =
      (readArgument r.opened last r.argument.reverse s).bind
        r.finish := by
  rw [complete, if_neg (by simp [hEscaping])]

theorem complete_escaping
    (hEscaping : r.escaping = true) :
    r.complete last s =
      (readArgument r.opened last r.argument.reverse
        ((last, '\\') :: s)).bind r.finish := by
  rw [complete, if_pos hEscaping]

/- Without an argument under way a command is read on. -/
theorem complete_endArgument
    (hEscaping : r.escaping = false)
    (hOpened : r.opened = none) :
    r.endArgument.complete last s =
      (readCommand s).bind fun (arguments, rest) =>
        (readCommands rest).map fun commands =>
          r.commands ++
            commandsOf
              (r.arguments ++ argumentsOf r.argument ++
                arguments) ++
            commands := by
  have hRest : r.endArgument.escaping = false := hEscaping
  rw [complete_unescaped hRest, readCommand_eq last]
  dsimp only [endArgument]
  rw [hOpened, List.reverse_nil]
  cases readArgument none last [] s with
  | error e => rfl
  | ok read =>
      dsimp only [Except.bind, finish]
      cases readCommand read.2 with
      | error e => rfl
      | ok read => simp [Except.map]

/- Without a command under way a trace is read on. -/
theorem complete_endCommand
    (hEscaping : r.escaping = false)
    (hOpened : r.opened = none) :
    r.endCommand.complete last s =
      (readCommands s).map (r.endCommand.commands ++ ·) := by
  have hRest : r.endCommand.escaping = false := hEscaping
  rw [complete_unescaped hRest, readCommands_eq,
    readCommand_eq last]
  dsimp only [endCommand]
  rw [hOpened, List.reverse_nil]
  cases readArgument none last [] s with
  | error e => rfl
  | ok read =>
      dsimp only [Except.bind, finish]
      cases readCommand read.2 with
      | error e => rfl
      | ok read' =>
          dsimp only [Except.bind, Except.map]
          cases readCommands read'.2 with
          | error e => rfl
          | ok commands => simp

/- Nothing follows. -/
theorem complete_nil
    (r : Reader)
    (last : Nat) :
    r.complete last [] = r.outcome last := by
  unfold outcome
  cases hEscaping : r.escaping with
  | true =>
      rw [complete_escaping hEscaping]
      rfl
  | false =>
      rw [complete_unescaped hEscaping]
      cases hOpened : r.opened with
      | some q => rfl
      | none =>
          simp [readArgument, Except.bind, Except.map, finish,
            readCommand_nil, readCommands_nil, endCommand]

/- The argument under way has a character more. -/
theorem complete_take
    (hEscaping : r.escaping = false)
    (c : Char) :
    (r.take c).complete last s =
      (readArgument r.opened last (c :: r.argument.reverse)
        s).bind r.finish := by
  have hRest : (r.take c).escaping = false := hEscaping
  rw [complete_unescaped hRest]
  dsimp only [take]
  rw [List.reverse_append]
  rfl

/- Another quote is open, or none. -/
theorem complete_opened
    (hEscaping : r.escaping = false)
    (opened : Option Char) :
    complete { r with opened := opened } last s =
      (readArgument opened last r.argument.reverse s).bind
        r.finish :=
  complete_unescaped (r := { r with opened := opened }) hEscaping

/-
  A character more: what is read in the end stays the same, by
  cases on what the character does to the reader.
-/
theorem complete_next
    (r : Reader)
    (c : Char) :
    r.complete last ((offset, c) :: s) =
      (r.next c).complete offset s := by
  have hNext := reads_next r c
  generalize r.next c = r' at hNext ⊢
  cases hNext with
  | escapedFeed hEscaping =>
      rw [complete_escaping hEscaping, readArgument, if_pos rfl]
      rfl
  | escaped hEscaping hFeed =>
      rw [complete_escaping hEscaping, readArgument, if_neg hFeed]
      exact
        (complete_take (r := { r with escaping := false }) rfl
          c).symm
  | backslash hEscaping =>
      rw [complete_unescaped hEscaping, complete_escaping rfl,
        readArgument.eq_def, readArgument.eq_def _ offset]
      rfl
  | closing hEscaping hBackslash hOpened =>
      rw [complete_unescaped hEscaping, hOpened,
        readArgument_closing hBackslash,
        complete_opened hEscaping]
  | quoted hEscaping hBackslash hOpened hOther =>
      rw [complete_unescaped hEscaping, hOpened,
        readArgument_enclosed hBackslash hOther,
        complete_take hEscaping, hOpened]
  | separator hEscaping hBackslash hOpened hSeparator =>
      rw [complete_unescaped hEscaping, hOpened,
        readArgument_ended (by rw [hSeparator]; rfl),
        complete_endCommand hEscaping hOpened]
      dsimp only [Except.bind, finish]
      rw [readCommand_separator hSeparator, List.reverse_reverse]
      simp [endCommand]
  | blank hEscaping hBackslash hOpened hSeparator hBlank =>
      rw [complete_unescaped hEscaping, hOpened,
        readArgument_ended (by rw [hBlank, Bool.or_true]),
        complete_endArgument hEscaping hOpened]
      dsimp only [Except.bind, finish]
      rw [readCommand_blank hSeparator hBlank,
        List.reverse_reverse]
  | opening hEscaping hBackslash hOpened hQuote =>
      rw [complete_unescaped hEscaping, hOpened,
        readArgument_opening hQuote, complete_opened hEscaping]
  | plain hEscaping hBackslash hOpened hEnd hQuote =>
      rw [complete_unescaped hEscaping, hOpened,
        readArgument_plain hEnd hQuote hBackslash,
        complete_take hEscaping, hOpened]

------------------------------------------------------------
-- Whole Texts
------------------------------------------------------------

/- The offset of the last character, or `last` if there is none. -/
def lastOffset (last : Nat) : (offset : Nat) → List Char → Nat
  | _, [] => last
  | offset, c :: rest =>
      lastOffset offset (offset + c.utf8Size) rest

theorem lastOffset_append
    (last offset : Nat)
    (front back : List Char) :
    lastOffset last offset (front ++ back) =
      lastOffset (lastOffset last offset front)
        (offset + (String.ofList front).utf8ByteSize) back := by
  induction front generalizing last offset with
  | nil => rfl
  | cons c front ih =>
      rw [List.cons_append, lastOffset, ih, String.ofList_cons,
        String.utf8ByteSize_append, String.utf8ByteSize_singleton,
        Nat.add_assoc]
      rfl

/- By induction on the characters, one step of the reader each. -/
theorem complete_locate
    (r : Reader)
    (last offset : Nat)
    (text : List Char) :
    r.complete last (locate offset text) =
      (text.foldl next r).outcome (lastOffset last offset text) := by
  induction text generalizing r last offset with
  | nil => exact complete_nil r last
  | cons c text ih =>
      rw [locate, complete_next, ih]
      rfl

end Reader

/- A text is read as a reader reads it that goes over it once. -/
theorem parse_eq
    (text : String) :
    parse text =
      (Reader.read text.toList).outcome
        (Reader.lastOffset 0 0 text.toList) := by
  have hStart :
      Reader.endCommand {} = {} := rfl
  rw [parse, Reader.read, ← Reader.complete_locate, ← hStart,
    Reader.complete_endCommand rfl rfl]
  cases readCommands (locate 0 text.toList) <;> rfl

end Command

end Variability
