/-
  Reading bytes as characters in the encoding UTF-8.

  A byte that cannot go on with a character ends it; what was
  read of the character so far is one mistake, and the byte is
  looked at again as a first one.

  Main definitions:
    * `decode`
    * `decode?`
    * `decodeLossy`
-/

namespace Variability

namespace Utf8

/- Where a reader stands between two bytes. -/
inductive State where
  | between
  /-
    Inside a character with the given number of bytes missing;
    the next one must lie in the given range.
  -/
  | inside (missing code low high : Nat)
  deriving DecidableEq, Repr

/- What a first byte makes known, and where the reader stands then. -/
def firstByte (b : Nat) : List (Option Char) × State :=
  if b < 0x80 then
    ([some (Char.ofNat b)], .between)
  else if 0xc2 ≤ b ∧ b ≤ 0xdf then
    ([], .inside 1 (b - 0xc0) 0x80 0xbf)
  else if b = 0xe0 then
    ([], .inside 2 0 0xa0 0xbf)
  else if b = 0xed then
    ([], .inside 2 0xd 0x80 0x9f)
  else if 0xe1 ≤ b ∧ b ≤ 0xef then
    ([], .inside 2 (b - 0xe0) 0x80 0xbf)
  else if b = 0xf0 then
    ([], .inside 3 0 0x90 0xbf)
  else if 0xf1 ≤ b ∧ b ≤ 0xf3 then
    ([], .inside 3 (b - 0xf0) 0x80 0xbf)
  else if b = 0xf4 then
    ([], .inside 3 4 0x80 0x8f)
  else
    ([none], .between)

/- What one more byte makes known. -/
def step (b : Nat) : State → List (Option Char) × State
  | .between => firstByte b
  | .inside missing code low high =>
      if low ≤ b ∧ b ≤ high then
        let code := 64 * code + (b - 0x80)
        if missing = 1 then
          ([some (Char.ofNat code)], .between)
        else
          ([], .inside (missing - 1) code 0x80 0xbf)
      else
        let (known, state) := firstByte b
        (none :: known, state)

/- The characters of some bytes from a state on. -/
def decodeFrom : State → List UInt8 → List (Option Char)
  | .between, [] => []
  | .inside .., [] => [none]
  | state, b :: rest =>
      let (known, state) := step b.toNat state
      known ++ decodeFrom state rest

/- The characters of some bytes, none for each mistake. -/
def decode (bytes : List UInt8) : List (Option Char) :=
  decodeFrom .between bytes

/- The text of some bytes, if they hold no mistake. -/
def decode? (bytes : List UInt8) : Option String :=
  ((decode bytes).mapM id).map String.ofList

/- The text of some bytes with a mark for each mistake. -/
def decodeLossy (bytes : List UInt8) : String :=
  String.ofList ((decode bytes).map (·.getD '\ufffd'))

/- The bytes of a text. -/
def encode (text : String) : List UInt8 :=
  text.toUTF8.toList

end Utf8

end Variability
