/-
  Preprocessing tokens of a source text.

  A logical line is a directive or a line of ordinary text; a
  token says whether it is the first one of its line, and on
  which physical lines it stands.

  Main definitions:
    * `Token`
    * `Token.spell`
    * `Token.logicalLines`
-/

namespace Variability

/- The kinds of tokens. -/
inductive TokenKind where
  | identifier
  | number
  | string
  | character
  | punctuation
  | other
  deriving DecidableEq, Repr, Inhabited

/- A token with the physical lines that it spans. -/
structure Token where
  kind : TokenKind
  /- The characters, without line splices. -/
  text : String
  /- The line of the first character, counted from 1. -/
  line : Nat
  /- The line of the last character. -/
  endLine : Nat
  /- Whether the token opens a logical line. -/
  startsLine : Bool
  deriving DecidableEq, Repr, Inhabited

namespace Token

/- Whether a token has the given characters. -/
def is (t : Token) (text : String) : Bool :=
  t.text == text

/- A punctuation mark in the place of a token. -/
def mark (t : Token) (text : String) : Token :=
  { t with kind := .punctuation, text }

/- The texts of some tokens, separated by single blanks. -/
def spell (tokens : List Token) : String :=
  " ".intercalate (tokens.map (·.text))

/- Tokens grouped by logical lines; no group is empty. -/
def logicalLines (tokens : List Token) : List (List Token) :=
  tokens.splitBy fun _ next => !next.startsLine

end Token

end Variability
