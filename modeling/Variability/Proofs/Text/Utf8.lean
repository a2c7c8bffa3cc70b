import Variability.Text.Utf8
import Mathlib.Data.List.Basic

/-
  Encoded texts and reading them back.

  A text is encoded character by character. The first byte of a
  character tells how many bytes follow, and in which range the
  next one lies if the character is to need so many bytes. Every
  byte adds six bits to the code.

  Main declarations:
    * `Utf8.encode_eq`
    * `Utf8.decodeFrom_utf8EncodeChar`
    * `Utf8.decode?_encode`
    * `Utf8.decodeLossy_encode`
-/

namespace Variability

namespace Utf8

variable {b n low high : Nat}
variable {state : State}

------------------------------------------------------------
-- Encoding
------------------------------------------------------------

theorem toList_loop
    (bytes : ByteArray)
    (i : Nat)
    (taken : List UInt8) :
    ByteArray.toList.loop bytes i taken =
      taken.reverse ++ bytes.data.toList.drop i := by
  induction i, taken using
      ByteArray.toList.loop.induct bytes with
  | case1 i taken hLess ih =>
      have hi : i < bytes.data.toList.length := by
        simpa using hLess
      have hByte : bytes.get! i = bytes.data.toList[i] := by
        rw [ByteArray.get!, Array.getElem_toList]
        exact getElem!_pos bytes.data i (by simpa using hLess)
      rw [ByteArray.toList.loop, if_pos hLess, ih, hByte,
        List.drop_eq_getElem_cons hi, List.reverse_cons,
        List.append_assoc, List.singleton_append]
  | case2 i taken hLess =>
      have hi : bytes.data.toList.length ≤ i := by
        simpa using hLess
      rw [ByteArray.toList.loop, if_neg hLess,
        List.drop_eq_nil_of_le hi, List.append_nil]

/- A text is encoded character by character. -/
theorem encode_eq
    (s : String) :
    encode s = s.toList.flatMap String.utf8EncodeChar := by
  rw [encode, String.toUTF8_eq_toByteArray, ByteArray.toList,
    toList_loop, List.reverse_nil, List.nil_append, List.drop_zero,
    ← String.utf8Encode_toList, List.utf8Encode,
    List.toList_data_toByteArray]

theorem encode_append
    (s t : String) :
    encode (s ++ t) = encode s ++ encode t := by
  rw [encode_eq, encode_eq, encode_eq, String.toList_append,
    List.flatMap_append]

------------------------------------------------------------
-- Single Bytes
------------------------------------------------------------

theorem decodeFrom_first
    (hb : b < 256)
    (hFirst : firstByte b = ([], state))
    (rest : List UInt8) :
    decodeFrom .between (UInt8.ofNat b :: rest) =
      decodeFrom state rest := by
  rw [decodeFrom, UInt8.toNat_ofNat_of_lt' hb, step, hFirst]
  rfl

/- A byte that is not the last one adds to the code. -/
theorem decodeFrom_next
    (hb : b < 256)
    (hRange : low ≤ b ∧ b ≤ high)
    (missing code : Nat)
    (rest : List UInt8) :
    decodeFrom (.inside (missing + 2) code low high)
        (UInt8.ofNat b :: rest) =
      decodeFrom
        (.inside (missing + 1) (64 * code + (b - 0x80)) 0x80 0xbf)
        rest := by
  rw [decodeFrom, UInt8.toNat_ofNat_of_lt' hb, step,
    if_pos hRange, if_neg (by omega)]
  rfl

/- The last byte ends the character. -/
theorem decodeFrom_last
    (hb : b < 256)
    (hRange : low ≤ b ∧ b ≤ high)
    (code : Nat)
    (rest : List UInt8) :
    decodeFrom (.inside 1 code low high) (UInt8.ofNat b :: rest) =
      some (Char.ofNat (64 * code + (b - 0x80))) ::
        decodeFrom .between rest := by
  rw [decodeFrom, UInt8.toNat_ofNat_of_lt' hb, step,
    if_pos hRange, if_pos rfl]
  rfl

theorem firstByte_two
    (hLow : 2 ≤ n)
    (hHigh : n < 32) :
    firstByte (n + 192) = ([], .inside 1 n 0x80 0xbf) := by
  rw [firstByte, if_neg (by omega), if_pos (by omega),
    Nat.add_sub_cancel]

/-
  Codes below 0x800 have two bytes, and those from 0xd800 on are
  no characters up to 0xdfff.
-/
theorem firstByte_three :
    ∀ n < 16,
      firstByte (n + 224) =
        ([], .inside 2 n (if n = 0 then 0xa0 else 0x80)
          (if n = 13 then 0x9f else 0xbf)) := by
  decide

/- Codes below 0x10000 have three bytes, and 0x10ffff is the last. -/
theorem firstByte_four :
    ∀ n < 5,
      firstByte (n + 240) =
        ([], .inside 3 n (if n = 0 then 0x90 else 0x80)
          (if n = 4 then 0x8f else 0xbf)) := by
  decide

------------------------------------------------------------
-- Characters
------------------------------------------------------------

/- The bytes of a character are read as this character. -/
theorem decodeFrom_utf8EncodeChar
    (c : Char)
    (rest : List UInt8) :
    decodeFrom .between (String.utf8EncodeChar c ++ rest) =
      some c :: decodeFrom .between rest := by
  have hValid : c.val.toNat < 0xd800 ∨
      0xdfff < c.val.toNat ∧ c.val.toNat < 0x110000 := c.valid
  have hCode : Char.ofNat c.val.toNat = c := Char.ofNat_toNat c
  unfold String.utf8EncodeChar
  generalize c.val.toNat = n at hValid hCode
  dsimp only
  split_ifs with hOne hTwo hThree
  · have hFirst : firstByte n = ([some c], .between) := by
      rw [firstByte, if_pos (by omega), hCode]
    rw [List.singleton_append, decodeFrom,
      UInt8.toNat_ofNat_of_lt' (show n < 256 by omega), step,
      hFirst]
    rfl
  · have hFirst : n / 64 % 32 = n / 64 := by omega
    have hSum : 64 * (n / 64) + (n % 64 + 128 - 0x80) = n := by
      omega
    rw [hFirst]
    simp only [List.cons_append, List.nil_append]
    rw [decodeFrom_first (by omega)
        (firstByte_two (by omega) (by omega)),
      decodeFrom_last (by omega) (by omega), hSum, hCode]
  · have hFirst : n / 4096 % 16 = n / 4096 := by omega
    have hSum :
        64 * (64 * (n / 4096) + (n / 64 % 64 + 128 - 0x80)) +
            (n % 64 + 128 - 0x80) =
          n := by
      omega
    rw [hFirst]
    simp only [List.cons_append, List.nil_append]
    rw [decodeFrom_first (by omega)
        (firstByte_three _ (by omega)),
      decodeFrom_next (by omega) (by split_ifs <;> omega),
      decodeFrom_last (by omega) (by omega), hSum, hCode]
  · have hFirst : n / 262144 % 8 = n / 262144 := by omega
    have hSum :
        64 * (64 * (64 * (n / 262144) +
              (n / 4096 % 64 + 128 - 0x80)) +
              (n / 64 % 64 + 128 - 0x80)) +
            (n % 64 + 128 - 0x80) =
          n := by
      omega
    rw [hFirst]
    simp only [List.cons_append, List.nil_append]
    rw [decodeFrom_first (by omega)
        (firstByte_four _ (by omega)),
      decodeFrom_next (by omega) (by split_ifs <;> omega),
      decodeFrom_next (by omega) (by omega),
      decodeFrom_last (by omega) (by omega), hSum, hCode]

/- An encoded text is read without a mistake. -/
theorem decode_encode
    (text : String) :
    decode (encode text) = text.toList.map some := by
  rw [encode_eq, decode]
  induction text.toList with
  | nil => rfl
  | cons c cs ih =>
      rw [List.flatMap_cons, decodeFrom_utf8EncodeChar, ih,
        List.map_cons]

theorem decode?_encode
    (text : String) :
    decode? (encode text) = some text := by
  have hAll :
      text.toList.mapM (id ∘ some) = some (text.toList.map id) :=
    List.mapM_pure (f := id)
  rw [decode?, decode_encode, List.mapM_map, hAll, List.map_id,
    Option.map_some, String.ofList_toList]

theorem decodeLossy_encode
    (text : String) :
    decodeLossy (encode text) = text := by
  rw [decodeLossy, decode_encode, List.map_map]
  exact
    (congrArg String.ofList (List.map_id _)).trans
      String.ofList_toList

end Utf8

end Variability
