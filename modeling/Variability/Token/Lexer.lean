import Variability.Text.Blank
import Variability.Token

/-
  Reading the tokens of a source text.

  A backslash before a line end joins two physical lines before
  anything else is looked at. White space and comments separate
  tokens; only a line feed outside comments ends a logical line.

  Main definitions:
    * `splice`
    * `skipGap`
    * `scan`
    * `Token.tokenize`
-/

namespace Variability

namespace Lexer

------------------------------------------------------------
-- Splicing
------------------------------------------------------------

/- A character and the physical line that it stands on. -/
structure Letter where
  char : Char
  line : Nat
  deriving DecidableEq, Repr

/-
  The characters of a text from a physical line on, spliced
  lines joined and carriage returns taken out.
-/
def splice (line : Nat) : List Char → List Letter
  | [] => []
  | '\\' :: '\n' :: rest => splice (line + 1) rest
  | '\\' :: '\r' :: '\n' :: rest => splice (line + 1) rest
  | '\\' :: '\r' :: rest => splice (line + 1) rest
  | '\r' :: rest => splice line rest
  | '\n' :: rest => ⟨'\n', line⟩ :: splice (line + 1) rest
  | c :: rest => ⟨c, line⟩ :: splice line rest

------------------------------------------------------------
-- Gaps
------------------------------------------------------------

/- Where a reader stands between two tokens. -/
inductive Gap where
  | blank
  | lineComment
  | blockComment
  deriving DecidableEq, Repr

/-
  Skip white space and comments. Says whether a line feed
  outside comments was passed.
-/
def skipGap (passed : Bool) : Gap → List Letter → Bool × List Letter
  | _, [] => (passed, [])
  | .lineComment, l :: rest =>
      if l.char = '\n' then
        skipGap true .blank rest
      else
        skipGap passed .lineComment rest
  | .blockComment, [_] => (passed, [])
  | .blockComment, l :: l' :: rest =>
      if l.char = '*' ∧ l'.char = '/' then
        skipGap passed .blank rest
      else
        skipGap passed .blockComment (l' :: rest)
  | .blank, [l] =>
      if l.char = '\n' then (true, [])
      else if Text.isBlank l.char then (passed, [])
      else (passed, [l])
  | .blank, l :: l' :: rest =>
      if l.char = '\n' then
        skipGap true .blank (l' :: rest)
      else if Text.isBlank l.char then
        skipGap passed .blank (l' :: rest)
      else if l.char = '/' ∧ l'.char = '/' then
        skipGap passed .lineComment rest
      else if l.char = '/' ∧ l'.char = '*' then
        skipGap passed .blockComment rest
      else
        (passed, l :: l' :: rest)

/- Skipping never adds letters. -/
theorem length_skipGap
    (passed : Bool)
    (gap : Gap)
    (s : List Letter) :
    (skipGap passed gap s).2.length ≤ s.length := by
  fun_induction skipGap passed gap s <;> grind

------------------------------------------------------------
-- Tokens
------------------------------------------------------------

/- The characters that an identifier starts with. -/
def opensIdentifier (c : Char) : Bool :=
  c.isAlpha || c == '_' || c == '$'

/- The characters that an identifier goes on with. -/
def continuesIdentifier (c : Char) : Bool :=
  c.isAlphanum || c == '_' || c == '$'

/- The characters that a number goes on with. -/
def continuesNumber (c : Char) : Bool :=
  c.isAlphanum || c == '_' || c == '.' || c == '\''

/- The characters of an exponent, which a sign may follow. -/
def isExponent (c : Char) : Bool :=
  c == 'e' || c == 'E' || c == 'p' || c == 'P'

/- The printable characters that are no letters, digits or blanks. -/
def isPunctuation (c : Char) : Bool :=
  let n := c.toNat
  (33 ≤ n && n ≤ 47) || (58 ≤ n && n ≤ 64) ||
    (91 ≤ n && n ≤ 96) || (123 ≤ n && n ≤ 126)

/- The marks of several characters; an earlier one wins. -/
def longMarks : List String :=
  ["...", "<<=", ">>=", "->", "++", "--", "<<", ">>", "<=", ">=",
   "==", "!=", "&&", "||", "*=", "/=", "%=", "+=", "-=", "&=",
   "^=", "|=", "##", "::"]

/- The rest of a number and what follows it. -/
def numberTail : List Letter → List Letter × List Letter
  | [] => ([], [])
  | [l] => if continuesNumber l.char then ([l], []) else ([], [l])
  | l :: l' :: rest =>
      if isExponent l.char ∧ (l'.char = '+' ∨ l'.char = '-') then
        let (tail, rest) := numberTail rest
        (l :: l' :: tail, rest)
      else if continuesNumber l.char then
        let (tail, rest) := numberTail (l' :: rest)
        (l :: tail, rest)
      else
        ([], l :: l' :: rest)

/-
  The rest of a quoted text and what follows it. A backslash
  takes the next character along; a line feed ends the text.
-/
def quotedTail (quote : Char) : List Letter → List Letter × List Letter
  | [] => ([], [])
  | [l] => if l.char = '\n' then ([], [l]) else ([l], [])
  | l :: l' :: rest =>
      if l.char = '\\' then
        let (tail, rest) := quotedTail quote rest
        (l :: l' :: tail, rest)
      else if l.char = '\n' then
        ([], l :: l' :: rest)
      else if l.char = quote then
        ([l], l' :: rest)
      else
        let (tail, rest) := quotedTail quote (l' :: rest)
        (l :: tail, rest)

/- How many characters behind the first belong to a long mark. -/
def markLength (window : List Char) : Option Nat :=
  (longMarks.find? (·.toList.isPrefixOf window)).map (·.length - 1)

/- A token without its first character, and what follows it. -/
structure Scanned where
  kind : TokenKind
  tail : List Letter
  rest : List Letter

/- Read the token that opens with a character. -/
def scan (c : Char) (s : List Letter) : Scanned :=
  if opensIdentifier c then
    { kind := .identifier
      tail := s.takeWhile (continuesIdentifier ·.char)
      rest := s.dropWhile (continuesIdentifier ·.char) }
  else if c.isDigit ||
      (c == '.' && s.head?.any (·.char.isDigit)) then
    { kind := .number
      tail := (numberTail s).1
      rest := (numberTail s).2 }
  else if c = '"' ∨ c = '\'' then
    { kind := if c = '"' then .string else .character
      tail := (quotedTail c s).1
      rest := (quotedTail c s).2 }
  else
    match markLength (c :: (s.take 2).map (·.char)) with
    | some n =>
        { kind := .punctuation, tail := s.take n, rest := s.drop n }
    | none =>
        { kind := if isPunctuation c then .punctuation else .other
          tail := []
          rest := s }

/- A number ends where what follows it starts. -/
theorem numberTail_append (s : List Letter) :
    (numberTail s).1 ++ (numberTail s).2 = s := by
  fun_induction numberTail s <;> simp_all

/- A quoted text ends where what follows it starts. -/
theorem quotedTail_append (quote : Char) (s : List Letter) :
    (quotedTail quote s).1 ++ (quotedTail quote s).2 = s := by
  fun_induction quotedTail quote s <;> simp_all

/- A token ends where what follows it starts. -/
theorem scan_append (c : Char) (s : List Letter) :
    (scan c s).tail ++ (scan c s).rest = s := by
  unfold scan
  split
  · exact List.takeWhile_append_dropWhile
  split
  · exact numberTail_append s
  split
  · exact quotedTail_append c s
  split <;> simp

/- What follows a token is no longer than what follows its first character. -/
theorem length_rest_scan (c : Char) (s : List Letter) :
    (scan c s).rest.length ≤ s.length := by
  have h := congrArg List.length (scan_append c s)
  rw [List.length_append] at h
  omega

/- The token made of a first letter and a tail. -/
def toToken (l : Letter) (startsLine : Bool) (t : Scanned) : Token where
  kind := t.kind
  text := String.ofList (l.char :: t.tail.map (·.char))
  line := l.line
  endLine := ((t.tail.getLast?).getD l).line
  startsLine := startsLine

/- All tokens; `fresh` if the next one opens a logical line. -/
def tokens (fresh : Bool) (s : List Letter) : List Token :=
  match _h : skipGap fresh .blank s with
  | (_, []) => []
  | (startsLine, l :: rest) =>
      let t := scan l.char rest
      toToken l startsLine t :: tokens false t.rest
  termination_by s.length
  decreasing_by
    have hGap := length_skipGap fresh .blank s
    have hScan := length_rest_scan l.char rest
    rw [_h] at hGap
    simp only [List.length_cons] at hGap
    omega

end Lexer

/- The tokens of a text, without white space and comments. -/
def Token.tokenize (text : String) : List Token :=
  Lexer.tokens true (Lexer.splice 1 text.toList)

end Variability
