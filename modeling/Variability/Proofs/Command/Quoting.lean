import Mathlib.Data.List.Forall2
import Variability.Command

/-
  Quoted arguments are read back.

  What an argument is written as is a word: reading it from its
  start takes all of it and leaves what follows, whatever ends
  an argument there. A command is read word by word, and a text
  command by command, so only the single characters need a look
  at the quotes that are open around them.

  Main declarations:
    * `Command.Spells`
    * `Command.spells_quote`
    * `Command.readCommand_line`
    * `Command.script`
    * `Command.parse_script`
-/

namespace Variability

namespace Command

variable {opened : Option Char}
variable {offset last : Nat}
variable {c : Char}
variable {taken tail : List Char}
variable {rest : List Located}

------------------------------------------------------------
-- Single Characters
------------------------------------------------------------

theorem readArgument_closing
    (hc : c ≠ '\\') :
    readArgument (some c) last taken ((offset, c) :: rest) =
      readArgument none offset taken rest := by
  rw [readArgument, if_pos rfl]
  simpa using hc

theorem readArgument_enclosed
    {q : Char}
    (hBackslash : c ≠ '\\')
    (hQuote : c ≠ q) :
    readArgument (some q) last taken ((offset, c) :: rest) =
      readArgument (some q) offset (c :: taken) rest := by
  rw [readArgument, if_neg hQuote]
  simpa using hBackslash

theorem readArgument_opening
    (hc : isQuote c = true) :
    readArgument none last taken ((offset, c) :: rest) =
      readArgument (some c) offset taken rest := by
  have hKinds : c = '"' ∨ c = '\'' := by
    simpa [isQuote] using hc
  rcases hKinds with rfl | rfl <;> rfl

theorem readArgument_plain
    (hEnd : (isSeparator c || isBlank c) = false)
    (hQuote : isQuote c = false)
    (hBackslash : c ≠ '\\') :
    readArgument none last taken ((offset, c) :: rest) =
      readArgument none offset (c :: taken) rest := by
  rw [readArgument, hEnd, hQuote]
  · rfl
  · simpa using hBackslash

/- Nothing follows, or a character that ends an argument. -/
def EndsArgument (tail : List Char) : Prop :=
  ∀ c ∈ tail.head?, (isSeparator c || isBlank c) = true

theorem readArgument_over
    (hTail : EndsArgument tail) :
    readArgument none last taken (locate offset tail) =
      .ok (taken.reverse, locate offset tail) := by
  cases tail with
  | nil => rfl
  | cons c tail =>
      have hc : (isSeparator c || isBlank c) = true :=
        hTail c rfl
      rw [locate, readArgument, if_pos hc]
      rintro rfl
      cases hc

------------------------------------------------------------
-- Words
------------------------------------------------------------

/-
  A written character is read as itself between single quotes. A
  quote closes them, stands behind a backslash, and opens them
  again; a line feed would be dropped behind a backslash only.
-/
theorem readArgument_quoteChar
    (c : Char)
    (offset last : Nat)
    (taken tail : List Char) :
    ∃ last' offset',
      readArgument (some '\'') last taken
          (locate offset (quoteChar c ++ tail)) =
        readArgument (some '\'') last' (c :: taken)
          (locate offset' tail) := by
  by_cases hQuote : c = '\''
  · subst hQuote
    refine ⟨offset + 3, offset + 4, ?_⟩
    calc
      _ = readArgument none offset taken
            (locate (offset + 1) ('\\' :: '\'' :: '\'' :: tail)) :=
          readArgument_closing (by decide)
      _ = readArgument none (offset + 2) ('\'' :: taken)
            (locate (offset + 3) ('\'' :: tail)) :=
          readArgument_escaped (by decide)
      _ = _ := readArgument_opening (by decide)
  · by_cases hBackslash : c = '\\'
    · subst hBackslash
      exact ⟨offset + 1, offset + 2,
        readArgument_escaped (by decide)⟩
    · refine ⟨offset, offset + c.utf8Size, ?_⟩
      rw [quoteChar, if_neg hQuote, if_neg hBackslash]
      exact readArgument_enclosed hBackslash hQuote

/- Written characters are read as themselves up to the closing quote. -/
theorem readArgument_quoted
    (cs : List Char)
    (offset last : Nat)
    (taken tail : List Char) :
    ∃ last' offset',
      readArgument (some '\'') last taken
          (locate offset
            (cs.flatMap quoteChar ++ '\'' :: tail)) =
        readArgument none last' (cs.reverse ++ taken)
          (locate offset' tail) := by
  induction cs generalizing offset last taken with
  | nil =>
      exact ⟨offset, offset + 1,
        readArgument_closing (by decide)⟩
  | cons c cs ih =>
      rcases readArgument_quoteChar c offset last taken
        (cs.flatMap quoteChar ++ '\'' :: tail) with
        ⟨last₁, offset₁, hChar⟩
      rcases ih offset₁ last₁ (c :: taken) with
        ⟨last₂, offset₂, hRest⟩
      refine ⟨last₂, offset₂, ?_⟩
      rw [List.flatMap_cons, List.append_assoc, hChar, hRest,
        List.reverse_cons, List.append_assoc]
      rfl

/-
  A word that is read as an argument wherever it starts, if what
  follows ends it.
-/
structure Spells (word argument : String) : Prop where
  starts :
    ∃ c rest,
      word.toList = c :: rest ∧
        (isSeparator c || isBlank c) = false
  reads :
    ∀ offset tail,
      EndsArgument tail →
        ∃ offset',
          readArgument none 0 []
              (locate offset (word.toList ++ tail)) =
            .ok (argument.toList, locate offset' tail)

theorem spells_quote
    (argument : String) :
    Spells (quote argument) argument where
  starts :=
    ⟨'\'', argument.toList.flatMap quoteChar ++ ['\''],
      by simp [quote], by decide⟩
  reads offset tail hTail := by
    rcases readArgument_quoted argument.toList (offset + 1)
      offset [] tail with ⟨last', offset', hQuoted⟩
    refine ⟨offset', ?_⟩
    calc
      _ = readArgument none 0 []
            (locate offset ('\'' ::
              (argument.toList.flatMap quoteChar ++
                '\'' :: tail))) := by
          simp [quote]
      _ = readArgument (some '\'') offset []
            (locate (offset + 1)
              (argument.toList.flatMap quoteChar ++
                '\'' :: tail)) :=
          readArgument_opening (by decide)
      _ = readArgument none last' (argument.toList.reverse ++ [])
            (locate offset' tail) := hQuoted
      _ = _ := by
          rw [readArgument_over hTail]
          simp

------------------------------------------------------------
-- Commands
------------------------------------------------------------

/- Nothing follows, or a character that ends a command. -/
def EndsCommand (tail : List Char) : Prop :=
  ∀ c ∈ tail.head?, isSeparator c = true

theorem EndsCommand.endsArgument
    (hTail : EndsCommand tail) :
    EndsArgument tail := by
  intro c hc
  rw [hTail c hc]
  rfl

/- At any offset, a text starts with a command of these arguments, and this is left behind it. -/
def ReadsAs
    (text : List Char)
    (arguments : List String)
    (left : List Char) : Prop :=
  ∀ offset, ∃ offset',
    readCommand (locate offset text) =
      .ok (arguments, locate offset' left)

theorem readsAs_tail
    (hTail : EndsCommand tail) :
    ReadsAs tail [] tail.tail := by
  intro offset
  cases tail with
  | nil =>
      refine ⟨0, ?_⟩
      rw [locate, readCommand]
      rfl
  | cons c tail =>
      have hc : isSeparator c = true := hTail c rfl
      refine ⟨offset + c.utf8Size, ?_⟩
      rw [locate, readCommand, dif_pos hc]
      rfl

theorem ReadsAs.blank
    {arguments : List String}
    {left : List Char}
    (hTail : ReadsAs tail arguments left) :
    ReadsAs (' ' :: tail) arguments left := by
  intro offset
  rcases hTail (offset + 1) with ⟨offset', hRead⟩
  refine ⟨offset', ?_⟩
  rw [locate, readCommand]
  exact hRead

/-
  A word in front of a command is its first argument. Empty
  arguments are left out, the one of the word as the others.
-/
theorem ReadsAs.word
    {word argument : String}
    {arguments : List String}
    {left : List Char}
    (hSpells : Spells word argument)
    (hEnds : EndsArgument tail)
    (hTail : ReadsAs tail (arguments.filter (· ≠ "")) left) :
    ReadsAs (word.toList ++ tail)
      ((argument :: arguments).filter (· ≠ "")) left := by
  intro offset
  rcases hSpells.starts with ⟨c, rest, hWord, hc⟩
  rcases hSpells.reads offset tail hEnds with
    ⟨offset₁, hArgument⟩
  rcases hTail offset₁ with ⟨offset₂, hRest⟩
  refine ⟨offset₂, ?_⟩
  rw [hWord, List.cons_append, locate] at hArgument ⊢
  rw [Bool.or_eq_false_iff] at hc
  rw [readCommand]
  simp only [hc.1, hc.2, Bool.false_eq_true, dite_false]
  split
  · simp_all
  · next read left' hRead =>
      cases hArgument.symm.trans hRead
      rw [hRest]
      by_cases hEmpty : argument = ""
      · simp [hEmpty]
      · simp [hEmpty]

/- A line of several words is the first of them, a blank, and the line of the others. -/
theorem toList_line_cons
    (word next : String)
    (words : List String)
    (tail : List Char) :
    (" ".intercalate (word :: next :: words)).toList ++ tail =
      word.toList ++
        (' ' :: ((" ".intercalate (next :: words)).toList ++
          tail)) := by
  simp

/- The arguments of a line are what its words spell, without the empty ones. -/
theorem readsAs_line
    {words arguments : List String}
    (hSpells : List.Forall₂ Spells words arguments)
    (hTail : EndsCommand tail) :
    ReadsAs ((" ".intercalate words).toList ++ tail)
      (arguments.filter (· ≠ "")) tail.tail := by
  induction hSpells with
  | nil => simpa using readsAs_tail hTail
  | @cons word argument words arguments hWord hWords ih =>
      cases hWords with
      | nil =>
          rw [String.intercalate_singleton]
          exact (readsAs_tail hTail).word hWord
            hTail.endsArgument
      | cons hNext hRest =>
          rw [toList_line_cons]
          refine ih.blank.word hWord ?_
          intro c hc
          cases hc
          rfl

------------------------------------------------------------
-- Texts
------------------------------------------------------------

/- At any offset, a text is read as these commands. -/
def HasCommands
    (text : List Char)
    (commands : List (List String)) : Prop :=
  ∀ offset, readCommands (locate offset text) = .ok commands

theorem hasCommands_nil :
    HasCommands [] [] := by
  intro offset
  rw [locate, readCommands]
  rfl

/- The command at the start of a text is its first, unless it has no arguments. -/
theorem ReadsAs.hasCommands
    {text left : List Char}
    {arguments : List String}
    {commands : List (List String)}
    (hFirst : ReadsAs text arguments left)
    (hLeft : HasCommands left (commands.filter (· ≠ []))) :
    HasCommands text
      ((arguments :: commands).filter (· ≠ [])) := by
  intro offset
  rcases hFirst offset with ⟨offset', hRead⟩
  have hRest := hLeft offset'
  rw [readCommands]
  split
  · next hNone =>
      -- The end of the text reads as a command without arguments.
      rw [hNone, readCommand] at hRead
      injection hRead with hPair
      injection hPair with hArguments hLocate
      rw [← hLocate, readCommands] at hRest
      injection hRest with hCommands
      rw [← hArguments, List.filter_cons_of_neg (by simp),
        ← hCommands]
  · split
    · simp_all
    · next read left' _ hRead' =>
        cases hRead.symm.trans hRead'
        rw [hRest]
        by_cases hEmpty : arguments = []
        · simp [hEmpty]
        · simp [hEmpty]

/- A line alone is one command, or none. -/
theorem hasCommands_line
    {words arguments : List String}
    (hSpells : List.Forall₂ Spells words arguments) :
    HasCommands (" ".intercalate words).toList
      ([arguments.filter (· ≠ "")].filter (· ≠ [])) := by
  have hNone : EndsCommand [] := by simp [EndsCommand]
  have hLine := readsAs_line hSpells hNone
  rw [List.append_nil] at hLine
  exact hLine.hasCommands hasCommands_nil

/- A character that ends a command. -/
abbrev Separator := { c : Char // isSeparator c = true }

/- Commands as a text, each with a separator behind it that the last one goes without. -/
def script : List (List String × Separator) → String
  | [] => ""
  | [(arguments, _)] => " ".intercalate (arguments.map quote)
  | (arguments, separator) :: next :: commands =>
      " ".intercalate (arguments.map quote) ++
        String.singleton separator.val ++
          script (next :: commands)

theorem spells_map_quote
    (arguments : List String) :
    List.Forall₂ Spells (arguments.map quote) arguments := by
  rw [List.forall₂_map_left_iff]
  exact List.forall₂_same.mpr fun a _ => spells_quote a

/- By induction on the commands: what is left behind each is the text of those that follow. -/
theorem hasCommands_script
    (commands : List (List String × Separator)) :
    HasCommands (script commands).toList
      ((commands.map fun command =>
        command.1.filter (· ≠ "")).filter (· ≠ [])) := by
  fun_induction script commands with
  | case1 => exact hasCommands_nil
  | case2 arguments separator =>
      exact hasCommands_line (spells_map_quote arguments)
  | case3 arguments separator next commands ih =>
      have hEnds :
          EndsCommand
            (separator.val ::
              (script (next :: commands)).toList) := by
        simpa [EndsCommand] using separator.property
      have hText :
          (" ".intercalate (arguments.map quote) ++
              String.singleton separator.val ++
                script (next :: commands)).toList =
            (" ".intercalate (arguments.map quote)).toList ++
              separator.val ::
                (script (next :: commands)).toList := by
        simp
      rw [hText]
      exact (readsAs_line (spells_map_quote arguments)
        hEnds).hasCommands ih

/-
  Whatever characters the arguments of commands hold, the text
  of the quoted arguments is read, and gives back the commands
  without empty arguments, and without those that have none.
-/
theorem parse_script
    (commands : List (List String × Separator)) :
    parse (script commands) =
      .ok ((commands.map fun command =>
        command.1.filter (· ≠ "")).filter (· ≠ [])) :=
  hasCommands_script commands 0

end Command

end Variability
