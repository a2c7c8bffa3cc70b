/-
  Commands of a build trace.

  A trace is text in a small part of the shell's syntax:
  commands end at a line break, `;` or `|`, arguments are
  separated by blanks, both kinds of quotes keep everything up
  to their own kind, and a backslash takes the next character
  as it is (before a line break it drops both).

  Main definitions:
    * `Command.parse`
    * `Command.quote`
-/

namespace Variability

namespace Command

------------------------------------------------------------
-- Characters and Errors
------------------------------------------------------------

/- A character of a text with its offset in bytes. -/
abbrev Located := Nat × Char

/- The characters of a text, each with its offset. -/
def locate : (offset : Nat) → List Char → List Located
  | _, [] => []
  | offset, c :: rest =>
      (offset, c) :: locate (offset + c.utf8Size) rest

/- Characters that end a command outside quotes. -/
def isSeparator (c : Char) : Bool :=
  c == '\n' || c == ';' || c == '|'

/- Characters that end an argument outside quotes. -/
def isBlank (c : Char) : Bool :=
  c == ' ' || c == '\t'

/- Characters that open and close quotes. -/
def isQuote (c : Char) : Bool :=
  c == '"' || c == '\''

/- Why a text is not a sequence of commands, with the offset of its last character. -/
inductive ReadError where
  | endsInBackslash (offset : Nat)
  | unterminatedQuote (offset : Nat)
  deriving Repr, DecidableEq

/- Where the error was noticed. -/
def ReadError.offset : ReadError → Nat
  | .endsInBackslash offset => offset
  | .unterminatedQuote offset => offset

/- The wording of the error. -/
def ReadError.message : ReadError → String
  | .endsInBackslash _ => "command was terminated by \x60\\\x60"
  | .unterminatedQuote _ => "unterminated quote"

------------------------------------------------------------
-- Reading
------------------------------------------------------------

/-
  Read the rest of an argument of which `taken` has been read,
  last character first. `opened` is the quote that is still
  open, `last` the offset of the character before.
-/
def readArgument
    (opened : Option Char)
    (last : Nat)
    (taken : List Char) :
    List Located →
      Except ReadError (List Char × List Located)
  | [] =>
      match opened with
      | some _ => .error (.unterminatedQuote last)
      | none => .ok (taken.reverse, [])
  | (offset, '\\') :: rest =>
      match rest with
      | [] => .error (.endsInBackslash offset)
      | (offset', c) :: rest' =>
          readArgument opened offset'
            (if c = '\n' then taken else c :: taken) rest'
  | (offset, c) :: rest =>
      match opened with
      | some q =>
          if c = q then
            readArgument none offset taken rest
          else
            readArgument opened offset (c :: taken) rest
      | none =>
          if isSeparator c || isBlank c then
            .ok (taken.reverse, (offset, c) :: rest)
          else if isQuote c then
            readArgument (some c) offset taken rest
          else
            readArgument none offset (c :: taken) rest

/- Behind a backslash, a character is taken as it is. -/
theorem readArgument_escaped
    {opened : Option Char}
    {offset offset' last : Nat}
    {c : Char}
    {taken : List Char}
    {rest : List Located}
    (hc : c ≠ '\n') :
    readArgument opened last taken
        ((offset, '\\') :: (offset', c) :: rest) =
      readArgument opened offset' (c :: taken) rest := by
  rw [readArgument, if_neg hc]

/- Reading an argument never lengthens the text that is left. -/
theorem length_le_of_readArgument
    {opened : Option Char}
    {last : Nat}
    {taken argument : List Char}
    {s rest : List Located}
    (h :
      readArgument opened last taken s
        = .ok (argument, rest)) :
    rest.length ≤ s.length := by
  fun_induction readArgument opened last taken s
    <;> grind

/- An argument that starts with a character of its own is not the empty reading. -/
theorem length_lt_of_readArgument
    {argument : List Char}
    {offset : Nat}
    {c : Char}
    {s rest : List Located}
    (hc : (isSeparator c || isBlank c) = false)
    (h :
      readArgument none 0 [] ((offset, c) :: s)
        = .ok (argument, rest)) :
    rest.length < s.length + 1 := by
  unfold readArgument at h
  have := @length_le_of_readArgument
  grind

/-
  Read the arguments of one command, and what follows the
  separator that ends it. Empty arguments are left out.
-/
def readCommand
    (s : List Located) :
    Except ReadError (List String × List Located) :=
  match s with
  | [] => .ok ([], [])
  | (offset, c) :: rest =>
      if _hs : isSeparator c then
        .ok ([], rest)
      else if _hb : isBlank c then
        readCommand rest
      else
        match _h : readArgument none 0 [] ((offset, c) :: rest) with
        | .error e => .error e
        | .ok (argument, rest') =>
            match readCommand rest' with
            | .error e => .error e
            | .ok (arguments, rest'') =>
                if argument = [] then
                  .ok (arguments, rest'')
                else
                  .ok (String.ofList argument :: arguments, rest'')
  termination_by s.length
  decreasing_by
    · simp
    · have := length_lt_of_readArgument (by simp [_hs, _hb]) _h
      simpa using this

/- Reading a command never lengthens the text that is left. -/
theorem length_le_of_readCommand
    {s rest : List Located}
    {arguments : List String}
    (h : readCommand s = .ok (arguments, rest)) :
    rest.length ≤ s.length := by
  have := @length_lt_of_readArgument
  fun_induction readCommand s generalizing arguments rest
    <;> grind

/- Reading a command consumes something of a text that is not empty. -/
theorem length_lt_of_readCommand
    {s rest : List Located}
    {arguments : List String}
    (hs : s ≠ [])
    (h : readCommand s = .ok (arguments, rest)) :
    rest.length < s.length := by
  have := @length_lt_of_readArgument
  have := @length_le_of_readCommand
  unfold readCommand at h
  grind

/- Read commands up to the end of the text. Empty commands are left out. -/
def readCommands
    (s : List Located) :
    Except ReadError (List (List String)) :=
  if _hs : s = [] then
    .ok []
  else
    match _h : readCommand s with
    | .error e => .error e
    | .ok (arguments, rest) =>
        match readCommands rest with
        | .error e => .error e
        | .ok commands =>
            if arguments = [] then
              .ok commands
            else
              .ok (arguments :: commands)
  termination_by s.length
  decreasing_by exact length_lt_of_readCommand _hs _h

/- The commands of a text, each the list of its arguments. -/
def parse
    (text : String) :
    Except ReadError (List (List String)) :=
  readCommands (locate 0 text.toList)

------------------------------------------------------------
-- Writing
------------------------------------------------------------

/- One character as it is written between single quotes. -/
def quoteChar
    (c : Char) :
    List Char :=
  if c = '\'' then
    ['\'', '\\', '\'', '\'']
  else if c = '\\' then
    ['\\', '\\']
  else
    [c]

/- Write an argument so that `parse` reads it back as one. -/
def quote
    (argument : String) :
    String :=
  String.ofList ('\'' :: argument.toList.flatMap quoteChar ++ ['\''])

end Command

end Variability
