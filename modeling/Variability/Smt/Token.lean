import Variability.Text.Quoted

/-
  Tokens of SMT-LIB scripts.

  A character that starts no token ends the script.

  Main definitions:
    * `Smt.Token`
    * `Smt.Token.text`
    * `Smt.tokenize`
-/

namespace Variability

namespace Smt

------------------------------------------------------------
-- Tokens
------------------------------------------------------------

/- The reserved words of terms and declarations. -/
inductive Word where
  | underscore
  | exclam
  | as
  | let
  | exists
  | forall
  | match
  | par
  deriving DecidableEq, Repr

/- The tokens of a script. -/
inductive Token where
  | leftParen
  | rightParen
  | numeral
  | decimal
  | hexadecimal (digits : List Nat)
  | binary (bits : List Bool)
  | string (text : String)
  | keyword (name : String)
  | symbol (name : String)
  | word (w : Word)
  /- The name of a command. -/
  | command (name : String)
  deriving DecidableEq, Repr

/- A token with the offset behind it, in bytes. -/
structure Lexeme where
  token : Token
  stop : Nat
  deriving DecidableEq, Repr

/- The reserved words that are no commands. -/
def words : List (String × Word) :=
  [("_", .underscore), ("!", .exclam), ("as", .as), ("let", .let),
   ("exists", .exists), ("forall", .forall), ("match", .match),
   ("par", .par)]

/- The names of all commands. -/
def commandNames : List String :=
  ["assert", "check-sat", "check-sat-assuming", "declare-const",
   "declare-datatype", "declare-datatypes", "declare-fun",
   "declare-sort", "define-fun", "define-fun-rec",
   "define-funs-rec", "define-sort", "echo", "exit",
   "get-assertions", "get-assignment", "get-info", "get-model",
   "get-option", "get-proof", "get-unsat-assumptions",
   "get-unsat-core", "get-value", "pop", "push", "reset",
   "reset-assertions", "set-info", "set-logic", "set-option"]

/- The token of a name that is not between bars. -/
def Token.ofName (name : String) : Token :=
  match words.lookup name with
  | some w => .word w
  | none =>
      if commandNames.contains name then
        .command name
      else
        .symbol name

------------------------------------------------------------
-- Names of Tokens in Messages
------------------------------------------------------------

/- The name of a reserved word. -/
def Word.text : Word → String
  | .underscore => "Underscore"
  | .exclam => "Exclam"
  | .as => "As"
  | .let => "Let"
  | .exists => "Exists"
  | .forall => "Forall"
  | .match => "Match"
  | .par => "Par"

/- A name in capitals at its start and behind hyphens, which go. -/
def capitalized : (start : Bool) → List Char → List Char
  | _, [] => []
  | start, c :: rest =>
      if c = '-' then
        capitalized true rest
      else
        (if start then c.toUpper else c) :: capitalized false rest

/- The elements of a list in brackets. -/
def bracketed (texts : List String) : String :=
  "[" ++ ", ".intercalate texts ++ "]"

namespace Token

/- A token in a message. The value of a number is not told. -/
def text : Token → String
  | .leftParen => "LeftParen"
  | .rightParen => "RightParen"
  | .numeral => "Numeral"
  | .decimal => "Decimal"
  | .hexadecimal digits =>
      "Hexadecimal(" ++
        bracketed (digits.map fun d => toString d) ++ ")"
  | .binary bits =>
      "Binary(" ++
        bracketed (bits.map fun b => if b then "true" else "false") ++
        ")"
  | .string s => "String(" ++ Text.quoted s ++ ")"
  | .keyword name => "Keyword(" ++ Text.quoted name ++ ")"
  | .symbol name => "Symbol(" ++ Text.quoted name ++ ")"
  | .word w => w.text
  | .command name => String.ofList (capitalized true name.toList)

/- Whether a token is a constant. -/
def isConstant : Token → Bool
  | .numeral | .decimal | .hexadecimal _ | .binary _ | .string _ => true
  | _ => false

/- Whether a token is a symbol. -/
def isSymbol : Token → Bool
  | .symbol _ => true
  | _ => false

end Token

------------------------------------------------------------
-- Reading Tokens
------------------------------------------------------------

/- A character with the offset behind it, in bytes. -/
structure Letter where
  char : Char
  stop : Nat
  deriving DecidableEq, Repr

/- The letters of a text that starts at an offset. -/
def lettersFrom (start : Nat) : List Char → List Letter
  | [] => []
  | c :: rest =>
      ⟨c, start + c.utf8Size⟩ :: lettersFrom (start + c.utf8Size) rest

/- The blanks between tokens. -/
def isBlank (c : Char) : Bool :=
  c == ' ' || c == '\t' || c == '\n' || c == '\r'

/- Letters behind blanks and comments, which run up to a line feed. -/
def skipGap (comment : Bool) : List Letter → List Letter
  | [] => []
  | l :: rest =>
      if comment then
        skipGap (l.char ≠ '\n') rest
      else if isBlank l.char then
        skipGap false rest
      else if l.char = ';' then
        skipGap true rest
      else
        l :: rest

/- Skipping never adds letters. -/
theorem length_skipGap (comment : Bool) (s : List Letter) :
    (skipGap comment s).length ≤ s.length := by
  fun_induction skipGap comment s <;> grind

/- The characters that a name may hold. -/
def isNameChar (c : Char) : Bool :=
  c.isAlphanum || "~!@$%^&*_-+=<>.?/".toList.contains c

/- The value of a hexadecimal digit. -/
def hexValue? (c : Char) : Option Nat :=
  if c.isDigit then some (c.toNat - '0'.toNat)
  else if 'a' ≤ c ∧ c ≤ 'f' then some (c.toNat - 'a'.toNat + 10)
  else if 'A' ≤ c ∧ c ≤ 'F' then some (c.toNat - 'A'.toNat + 10)
  else none

/-
  The text up to a closing quote, and how many characters it
  takes with the quote. A doubled quote stands for one.
-/
def quotedText : List Char → Option (List Char × Nat)
  | [] => none
  | '"' :: '"' :: rest =>
      (quotedText rest).map fun (text, n) => ('"' :: text, n + 2)
  | c :: rest =>
      if c = '"' then
        some ([], 1)
      else
        (quotedText rest).map fun (text, n) => (c :: text, n + 1)

/- A binary or hexadecimal constant behind its `#`. -/
def scanBits : List Char → Option (Token × Nat)
  | 'b' :: rest =>
      let bits := rest.takeWhile fun c => c == '0' || c == '1'
      if bits.isEmpty then
        none
      else
        some (.binary (bits.map (· == '1')), bits.length + 1)
  | 'x' :: rest =>
      let digits := rest.takeWhile fun c => (hexValue? c).isSome
      if digits.isEmpty then
        none
      else
        some (.hexadecimal (digits.filterMap hexValue?),
          digits.length + 1)
  | _ => none

/- A number behind its first digit. -/
def scanNumber (first : Char) (s : List Char) : Option (Token × Nat) :=
  let digits := s.takeWhile Char.isDigit
  if first = '0' ∧ ¬ digits.isEmpty then
    none
  else
    match s.drop digits.length with
    | '.' :: rest =>
        let places := rest.takeWhile Char.isDigit
        if places.isEmpty then
          none
        else
          some (.decimal, digits.length + 1 + places.length)
    | _ => some (.numeral, digits.length)

/-
  The token that opens with a character, and how many further
  characters belong to it.
-/
def scan (c : Char) (s : List Char) : Option (Token × Nat) :=
  if c = '(' then some (.leftParen, 0)
  else if c = ')' then some (.rightParen, 0)
  else if c = '|' then
    let name := s.takeWhile (· ≠ '|')
    if name.length < s.length then
      some (.symbol (String.ofList name), name.length + 1)
    else
      none
  else if c = '"' then
    (quotedText s).map fun (text, n) => (.string (String.ofList text), n)
  else if c = '#' then scanBits s
  else if c.isDigit then scanNumber c s
  else if c = ':' then
    let name := s.takeWhile isNameChar
    some (.keyword (String.ofList name), name.length)
  else if isNameChar c then
    let name := s.takeWhile isNameChar
    some (Token.ofName (String.ofList (c :: name)), name.length)
  else none

/- All tokens up to the first character that starts none. -/
def lexemes (s : List Letter) : List Lexeme :=
  match _h : skipGap false s with
  | [] => []
  | l :: rest =>
      match scan l.char (rest.map (·.char)) with
      | none => []
      | some (t, n) =>
          ⟨t, (((rest.take n).getLast?).getD l).stop⟩ ::
            lexemes (rest.drop n)
  termination_by s.length
  decreasing_by
    have hGap := length_skipGap false s
    rw [_h] at hGap
    simp only [List.length_cons] at hGap
    simp only [List.length_drop]
    omega

/- The tokens of a text. -/
def tokenize (text : String) : List Lexeme :=
  lexemes (lettersFrom 0 text.toList)

end Smt

end Variability
