/-
  SHA-256 digests.

  A message is padded to blocks of sixteen words; each block
  stirs the state of eight words in sixty-four rounds.

  Main definitions:
    * `Digest.pad`
    * `Digest.sha256`
-/

namespace Variability

namespace Digest

------------------------------------------------------------
-- Words
------------------------------------------------------------

/- The word of four bytes, the highest first. -/
def wordOf (bytes : List UInt8) : UInt32 :=
  bytes.foldl (fun w b => w * 256 + b.toUInt32) 0

/- The bytes of a number in `count` places, the highest first. -/
def bigEndian : (count n : Nat) → List UInt8
  | 0, _ => []
  | count + 1, n =>
      bigEndian count (n / 256) ++ [(n % 256).toUInt8]

/- Turn a word to the right. -/
def rotate (w places : UInt32) : UInt32 :=
  (w >>> places) ||| (w <<< (32 - places))

/- The first parts of the fraction of the cube roots of the first primes. -/
def roundConstants : Array UInt32 :=
  #[
    0x428a2f98, 0x71374491, 0xb5c0fbcf, 0xe9b5dba5,
    0x3956c25b, 0x59f111f1, 0x923f82a4, 0xab1c5ed5,
    0xd807aa98, 0x12835b01, 0x243185be, 0x550c7dc3,
    0x72be5d74, 0x80deb1fe, 0x9bdc06a7, 0xc19bf174,
    0xe49b69c1, 0xefbe4786, 0x0fc19dc6, 0x240ca1cc,
    0x2de92c6f, 0x4a7484aa, 0x5cb0a9dc, 0x76f988da,
    0x983e5152, 0xa831c66d, 0xb00327c8, 0xbf597fc7,
    0xc6e00bf3, 0xd5a79147, 0x06ca6351, 0x14292967,
    0x27b70a85, 0x2e1b2138, 0x4d2c6dfc, 0x53380d13,
    0x650a7354, 0x766a0abb, 0x81c2c92e, 0x92722c85,
    0xa2bfe8a1, 0xa81a664b, 0xc24b8b70, 0xc76c51a3,
    0xd192e819, 0xd6990624, 0xf40e3585, 0x106aa070,
    0x19a4c116, 0x1e376c08, 0x2748774c, 0x34b0bcb5,
    0x391c0cb3, 0x4ed8aa4a, 0x5b9cca4f, 0x682e6ff3,
    0x748f82ee, 0x78a5636f, 0x84c87814, 0x8cc70208,
    0x90befffa, 0xa4506ceb, 0xbef9a3f7, 0xc67178f2]

------------------------------------------------------------
-- Rounds
------------------------------------------------------------

/- The eight words of the state. -/
structure State where
  a : UInt32 := 0x6a09e667
  b : UInt32 := 0xbb67ae85
  c : UInt32 := 0x3c6ef372
  d : UInt32 := 0xa54ff53a
  e : UInt32 := 0x510e527f
  f : UInt32 := 0x9b05688c
  g : UInt32 := 0x1f83d9ab
  h : UInt32 := 0x5be0cd19

/- The words of a block, extended to one for each round. -/
def schedule (block : Array UInt32) : Array UInt32 :=
  (List.range 48).foldl
    (fun w i =>
      let x := w.getD (i + 1) 0
      let y := w.getD (i + 14) 0
      let s0 := rotate x 7 ^^^ rotate x 18 ^^^ (x >>> 3)
      let s1 := rotate y 17 ^^^ rotate y 19 ^^^ (y >>> 10)
      w.push (w.getD i 0 + s0 + w.getD (i + 9) 0 + s1))
    block

/- One round with its word and its constant. -/
def round (s : State) (word : UInt32) : State :=
  let s1 := rotate s.e 6 ^^^ rotate s.e 11 ^^^ rotate s.e 25
  let choice := (s.e &&& s.f) ^^^ (~~~s.e &&& s.g)
  let t1 := s.h + s1 + choice + word
  let s0 := rotate s.a 2 ^^^ rotate s.a 13 ^^^ rotate s.a 22
  let majority :=
    (s.a &&& s.b) ^^^ (s.a &&& s.c) ^^^ (s.b &&& s.c)
  { a := t1 + s0 + majority, b := s.a, c := s.b, d := s.c,
    e := s.d + t1, f := s.e, g := s.f, h := s.g }

/- Stir a block into the state. -/
def compress (s : State) (block : Array UInt32) : State :=
  let words := schedule block
  let t :=
    (List.range 64).foldl
      (fun t i =>
        round t (words.getD i 0 + roundConstants.getD i 0))
      s
  { a := s.a + t.a, b := s.b + t.b, c := s.c + t.c,
    d := s.d + t.d, e := s.e + t.e, f := s.f + t.f,
    g := s.g + t.g, h := s.h + t.h }

------------------------------------------------------------
-- Messages
------------------------------------------------------------

/- A message filled up to whole blocks, its length in bits at the end. -/
def pad (message : List UInt8) : List UInt8 :=
  let n := message.length
  message ++ 0x80 :: List.replicate ((119 - n % 64) % 64) 0 ++
    bigEndian 8 (8 * n)

/- Groups of `size` elements, at most `count` of them. -/
def groups {α : Type} (size : Nat) :
    (count : Nat) → List α → List (List α)
  | 0, _ => []
  | count + 1, xs =>
      if xs.isEmpty then
        []
      else
        xs.take size :: groups size count (xs.drop size)

/- The words of a padded message, block by block. -/
def blocks (padded : List UInt8) : List (Array UInt32) :=
  (groups 64 padded.length padded).map fun block =>
    ((groups 4 16 block).map wordOf).toArray

/- The digest of a message. -/
def sha256 (message : List UInt8) : List UInt8 :=
  let s := (blocks (pad message)).foldl compress {}
  [s.a, s.b, s.c, s.d, s.e, s.f, s.g, s.h].flatMap fun w =>
    bigEndian 4 w.toNat

/- A byte in two hexadecimal digits. -/
def hexByte (b : UInt8) : List Char :=
  [Nat.digitChar (b.toNat / 16), Nat.digitChar (b.toNat % 16)]

/- Bytes in hexadecimal digits. -/
def hex (bytes : List UInt8) : String :=
  String.ofList (bytes.flatMap hexByte)

end Digest

end Variability
