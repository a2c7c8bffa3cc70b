/-
  Tokens of JSON texts.

  A value may be read or only skipped. Skipping looks at less:
  it does not care for the value of a number or for halves of
  characters in a string. A token says how both would end.

  Main definitions:
    * `Flaw`
    * `Token`
    * `tokenize`
-/

namespace Variability

namespace JsonText

/- What is wrong with a text. -/
inductive Flaw where
  /- It is not written in the format. -/
  | malformed
  /- It is, but it does not have the form that is asked for. -/
  | mismatched
  /- It ends too early. -/
  | truncated
  deriving DecidableEq, Repr

/- The words that are values. -/
inductive Word where
  | null
  | true
  | false
  deriving DecidableEq, Repr

/- The tokens of a text. -/
inductive Token where
  | opening (brace : Bool)
  | closing (brace : Bool)
  | colon
  | comma
  | string (read : Except Flaw String) (skip : Except Flaw Nat)
  /- A number with its value if it is a natural one of 64 bits. -/
  | number (read : Except Flaw (Option Nat)) (skip : Except Flaw Nat)
  | word (w : Except Flaw Word)
  /- A character that starts no token. -/
  | junk
  deriving Repr

------------------------------------------------------------
-- Strings
------------------------------------------------------------

/- The value of a hexadecimal digit. -/
def hexValue? (c : Char) : Option Nat :=
  if c.isDigit then some (c.toNat - '0'.toNat)
  else if 'a' ≤ c ∧ c ≤ 'f' then some (c.toNat - 'a'.toNat + 10)
  else if 'A' ≤ c ∧ c ≤ 'F' then some (c.toNat - 'A'.toNat + 10)
  else none

/- The code of four hexadecimal digits; four bytes must be there. -/
def hexCode (s : List Char) : Except Flaw Nat :=
  if (s.take 4).foldl (· + ·.utf8Size) 0 < 4 then
    .error .truncated
  else
    match (s.take 4).mapM hexValue? with
    | some [a, b, c, d] => .ok (((a * 16 + b) * 16 + c) * 16 + d)
    | _ => .error .malformed

/- The character of a simple escape. -/
def escape? : Char → Option Char
  | '"' => some '"'
  | '\\' => some '\\'
  | '/' => some '/'
  | 'b' => some '\x08'
  | 'f' => some '\x0c'
  | 'n' => some '\n'
  | 'r' => some '\r'
  | 't' => some '\t'
  | _ => none

/- How many characters a string takes behind its first quote. -/
def skipString (s : List Char) : Except Flaw Nat :=
  match s with
  | [] => .error .truncated
  | '"' :: _ => .ok 1
  | ['\\'] => .error .truncated
  | '\\' :: 'u' :: rest => do
      let _ ← hexCode rest
      return (← skipString (rest.drop 4)) + 6
  | '\\' :: c :: rest =>
      if (escape? c).isSome then
        (· + 2) <$> skipString rest
      else
        .error .malformed
  | c :: rest =>
      if c.toNat < 0x20 then
        .error .malformed
      else
        (· + 1) <$> skipString rest
  termination_by s.length

/- The second half of a character outside the first plane. -/
def secondHalf (s : List Char) : Except Flaw Nat :=
  match s with
  | [] => .error .truncated
  | ['\\'] => .error .truncated
  | '\\' :: 'u' :: rest => do
      let low ← hexCode rest
      if 0xdc00 ≤ low ∧ low ≤ 0xdfff then
        return low
      else
        .error .malformed
  | _ => .error .malformed

/- The characters of a string behind its first quote. -/
def readString (s : List Char) : Except Flaw (List Char) :=
  match s with
  | [] => .error .truncated
  | '"' :: _ => .ok []
  | ['\\'] => .error .truncated
  | '\\' :: 'u' :: rest => do
      let code ← hexCode rest
      if 0xdc00 ≤ code ∧ code ≤ 0xdfff then
        .error .malformed
      else if 0xd800 ≤ code ∧ code ≤ 0xdbff then
        let low ← secondHalf (rest.drop 4)
        let c := (code - 0xd800) * 0x400 + (low - 0xdc00) + 0x10000
        return Char.ofNat c :: (← readString (rest.drop 10))
      else
        return Char.ofNat code :: (← readString (rest.drop 4))
  | '\\' :: c :: rest =>
      match escape? c with
      | some c => (c :: ·) <$> readString rest
      | none => .error .malformed
  | c :: rest =>
      if c.toNat < 0x20 then
        .error .malformed
      else
        (c :: ·) <$> readString rest
  termination_by s.length

------------------------------------------------------------
-- Numbers
------------------------------------------------------------

/- The parts of a number as they are written. -/
structure NumberText where
  negative : Bool
  whole : List Char
  /- The digits behind a point, if there is one. -/
  places : Option (List Char)
  /- The sign and the digits of an exponent, if there is one. -/
  exponent : Option (Bool × List Char)
  length : Nat
  deriving Repr

/- A digit is missing in front of a text. -/
def missingDigit (s : List Char) : Flaw :=
  if s.isEmpty then .truncated else .malformed

/- The digits of a whole number, which has no leading zeros. -/
def wholeDigits (s : List Char) : Except Flaw (List Char) :=
  match s with
  | '0' :: rest =>
      if rest.head?.any Char.isDigit then
        .error .malformed
      else
        .ok ['0']
  | s =>
      let digits := s.takeWhile Char.isDigit
      if digits.isEmpty then .error (missingDigit s) else .ok digits

/- The digits behind a point, if one comes next. -/
def placesOf (s : List Char) : Except Flaw (Option (List Char)) :=
  match s with
  | '.' :: rest =>
      let digits := rest.takeWhile Char.isDigit
      if digits.isEmpty then
        .error (missingDigit rest)
      else
        .ok (some digits)
  | _ => .ok none

/- Whether an exponent is negative, and its digits and their sign. -/
def exponentSign (s : List Char) : Bool × Nat :=
  match s with
  | '+' :: _ => (false, 1)
  | '-' :: _ => (true, 1)
  | _ => (false, 0)

/- The exponent, if one comes next, and how much it takes. -/
def exponentOf (s : List Char) :
    Except Flaw (Option (Bool × List Char) × Nat) :=
  match s with
  | c :: rest =>
      if c = 'e' ∨ c = 'E' then
        let (negative, n) := exponentSign rest
        let digits := (rest.drop n).takeWhile Char.isDigit
        if digits.isEmpty then
          .error (missingDigit (rest.drop n))
        else
          .ok (some (negative, digits), 1 + n + digits.length)
      else
        .ok (none, 0)
  | [] => .ok (none, 0)

/- The number that a text starts with. -/
def numberText (s : List Char) : Except Flaw NumberText := do
  let negative := s.head? == some '-'
  let signLength := if negative then 1 else 0
  let s := s.drop signLength
  let whole ← wholeDigits s
  let s := s.drop whole.length
  let places ← placesOf s
  let placesLength := (places.map (·.length + 1)).getD 0
  let (exponent, exponentLength) ← exponentOf (s.drop placesLength)
  return {
    negative, whole, places, exponent
    length :=
      signLength + whole.length + placesLength + exponentLength }

/- The value of decimal digits. -/
def natOfDigits (digits : List Char) : Nat :=
  digits.foldl (fun n c => 10 * n + (c.toNat - '0'.toNat)) 0

/- The least value that is rounded to infinity. -/
def overflow : Nat := Nat.pow 2 1024 - Nat.pow 2 970

/- Whether a number is too large for a float of 64 bits. -/
def NumberText.isTooLarge (t : NumberText) : Bool :=
  let places := t.places.getD []
  let written := t.whole ++ places
  let digits := natOfDigits written
  let (negative, exponent) := t.exponent.getD (false, [])
  let size := natOfDigits exponent
  if digits = 0 then
    false
  else if negative then
    decide (size ≤ written.length) &&
      decide
        (overflow * Nat.pow 10 (places.length + size) ≤ digits)
  else
    decide (size > 400 + places.length) ||
      decide
        (overflow * Nat.pow 10 places.length ≤
          digits * Nat.pow 10 size)

/- Whether a number is written as a natural one. -/
def NumberText.isNatural (t : NumberText) : Bool :=
  !t.negative && t.places.isNone && t.exponent.isNone &&
    decide (natOfDigits t.whole < Nat.pow 2 64)

/- The value of a number, which must have one. -/
def NumberText.value (t : NumberText) : Except Flaw (Option Nat) :=
  if t.isNatural then .ok (some (natOfDigits t.whole))
  else if t.isTooLarge then .error .malformed
  else .ok none

/- A number as a token. A skipped number is malformed where it is cut. -/
def numberToken (s : List Char) : Token :=
  match numberText s with
  | .ok t => .number t.value (.ok t.length)
  | .error e => .number (.error e) (.error .malformed)

------------------------------------------------------------
-- Words
------------------------------------------------------------

/- A word with the given letters behind its first one. -/
def wordToken (w : Word) (letters s : List Char) : Token :=
  if letters.isPrefixOf s then .word (.ok w)
  else if s.isPrefixOf letters then .word (.error .truncated)
  else .word (.error .malformed)

------------------------------------------------------------
-- Texts
------------------------------------------------------------

/- The blanks between tokens. -/
def isBlank (c : Char) : Bool :=
  c == ' ' || c == '\n' || c == '\t' || c == '\r'

/- The token that opens with a character. -/
def tokenOf (c : Char) (s : List Char) : Token :=
  if c = '\x7b' then .opening true
  else if c = '\x7d' then .closing true
  else if c = '[' then .opening false
  else if c = ']' then .closing false
  else if c = ':' then .colon
  else if c = ',' then .comma
  else if c = '"' then
    .string (String.ofList <$> readString s) (skipString s)
  else if c = '-' ∨ c.isDigit then numberToken (c :: s)
  else if c = 'n' then wordToken .null "ull".toList s
  else if c = 't' then wordToken .true "rue".toList s
  else if c = 'f' then wordToken .false "alse".toList s
  else .junk

/-
  How many characters belong to a token behind its first one.
  There is no telling where a flawed token ends.
-/
def Token.tailLength? : Token → Option Nat
  | .string _ (.ok n) => some n
  | .number _ (.ok n) => some (n - 1)
  | .word (.ok .null) | .word (.ok .true) => some 3
  | .word (.ok .false) => some 4
  | .string _ _ | .number _ _ | .word _ | .junk => none
  | _ => some 0

/- The tokens of a text up to the first one without an end. -/
def tokenize (s : List Char) : List Token :=
  match s with
  | [] => []
  | c :: rest =>
      if isBlank c then
        tokenize rest
      else
        let t := tokenOf c rest
        match t.tailLength? with
        | none => [t]
        | some n => t :: tokenize (rest.drop n)
  termination_by s.length
  decreasing_by
    · simp
    · simp only [List.length_drop, List.length_cons]; omega

end JsonText

end Variability
