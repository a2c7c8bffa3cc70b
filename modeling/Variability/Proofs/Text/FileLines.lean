import Variability.Proofs.Text.Utf8

/-
  Lines of files.

  A file is a list of bytes, and its lines end at line feeds. A
  text that ends in a line feed adds as many lines in front of a
  file as it has line feeds, and these are those of its characters.

  Main declarations:
    * `fileLines`
    * `fileLines_append`
    * `length_fileLines`
    * `line?_append`
    * `Utf8.count_encode`
-/

namespace Variability

/- The byte that ends a line. -/
def lineFeed : UInt8 := 10

/-
  The lines of a file without their ends. What stands behind the
  last line feed is a line if it is not empty.
-/
def fileLines : List UInt8 → List (List UInt8)
  | [] => []
  | b :: rest =>
      if b = lineFeed then
        [] :: fileLines rest
      else
        match fileLines rest with
        | [] => [[b]]
        | line :: others => (b :: line) :: others

/- A text without a line that is still open. -/
def IsFinished (text : List UInt8) : Prop :=
  text = [] ∨ text.getLast? = some lineFeed

variable {s t : List UInt8}

------------------------------------------------------------
-- Texts in Front of Files
------------------------------------------------------------

theorem fileLines_feed
    (s : List UInt8) :
    fileLines (lineFeed :: s) = [] :: fileLines s := by
  rw [fileLines, if_pos rfl]

theorem fileLines_cons
    {b : UInt8}
    (hb : b ≠ lineFeed)
    {line : List UInt8}
    {others : List (List UInt8)}
    (hLines : fileLines s = line :: others) :
    fileLines (b :: s) = (b :: line) :: others := by
  rw [fileLines, if_neg hb, hLines]

theorem exists_fileLines_eq
    (s : List UInt8) :
    ∃ line others,
      fileLines (s ++ [lineFeed]) = line :: others := by
  induction s with
  | nil => exact ⟨[], [], rfl⟩
  | cons b s ih =>
      rcases ih with ⟨line, others, hLines⟩
      by_cases hb : b = lineFeed
      · rw [hb, List.cons_append, fileLines_feed]
        exact ⟨[], _, rfl⟩
      · exact ⟨b :: line, others, fileLines_cons hb hLines⟩

/- A line feed separates the lines before it from those behind it. -/
theorem fileLines_lineFeed
    (s t : List UInt8) :
    fileLines (s ++ lineFeed :: t) =
      fileLines (s ++ [lineFeed]) ++ fileLines t := by
  induction s with
  | nil => rfl
  | cons b s ih =>
      rcases exists_fileLines_eq s with ⟨line, others, hLines⟩
      rw [hLines] at ih
      by_cases hb : b = lineFeed
      · rw [hb, List.cons_append, List.cons_append, fileLines_feed,
          fileLines_feed, ih, hLines]
        rfl
      · rw [List.cons_append, List.cons_append,
          fileLines_cons hb ih, fileLines_cons hb hLines]
        rfl

theorem length_fileLines_lineFeed
    (s : List UInt8) :
    (fileLines (s ++ [lineFeed])).length =
      s.count lineFeed + 1 := by
  induction s with
  | nil => rfl
  | cons b s ih =>
      rcases exists_fileLines_eq s with ⟨line, others, hLines⟩
      by_cases hb : b = lineFeed
      · rw [hb, List.cons_append, fileLines_feed, List.length_cons,
          ih, List.count_cons_self]
      · rw [List.cons_append, fileLines_cons hb hLines,
          List.count_cons_of_ne hb, ← ih, hLines]
        rfl

theorem IsFinished.append
    (hs : IsFinished s)
    (ht : IsFinished t) :
    IsFinished (s ++ t) := by
  rcases ht with rfl | hLast
  · rwa [List.append_nil]
  · exact Or.inr (by simp [hLast])

/- A text without an open line puts its lines in front of a file. -/
theorem fileLines_append
    (hs : IsFinished s)
    (t : List UInt8) :
    fileLines (s ++ t) = fileLines s ++ fileLines t := by
  rcases hs with rfl | hLast
  · rfl
  · rcases List.getLast?_eq_some_iff.mp hLast with
      ⟨before, rfl⟩
    rw [List.append_assoc, List.singleton_append]
    exact fileLines_lineFeed before t

/- It has as many lines as line feeds. -/
theorem length_fileLines
    (hs : IsFinished s) :
    (fileLines s).length = s.count lineFeed := by
  rcases hs with rfl | hLast
  · rfl
  · rcases List.getLast?_eq_some_iff.mp hLast with
      ⟨before, rfl⟩
    rw [length_fileLines_lineFeed, List.count_append,
      List.count_singleton_self]

/- A line of a file, counted from 1. -/
def line? (bytes : List UInt8) : Nat → Option (List UInt8)
  | 0 => none
  | n + 1 => (fileLines bytes)[n]?

theorem isSome_line?_iff
    (s : List UInt8)
    (n : Nat) :
    (line? s n).isSome = true ↔
      1 ≤ n ∧ n ≤ (fileLines s).length := by
  cases n with
  | zero => simp [line?]
  | succ n =>
      rw [line?, isSome_getElem?]
      omega

/- The lines of a file are counted on behind those in front of it. -/
theorem line?_append
    (hs : IsFinished s)
    (t : List UInt8)
    (n : Nat) :
    line? (s ++ t) n =
      if n ≤ (fileLines s).length then
        line? s n
      else
        line? t (n - (fileLines s).length) := by
  cases n with
  | zero => rfl
  | succ n =>
      rw [line?, fileLines_append hs]
      split
      · rename_i hLess
        rw [line?, List.getElem?_append_left hLess]
      · rename_i hLess
        have hBehind :
            n + 1 - (fileLines s).length =
              (n - (fileLines s).length) + 1 := by omega
        rw [hBehind, line?, List.getElem?_append_right (by omega)]

------------------------------------------------------------
-- Encoded Texts
------------------------------------------------------------

namespace Utf8

theorem ofNat_eq_lineFeed
    {n : Nat}
    (hn : n < 256) :
    UInt8.ofNat n = lineFeed ↔ n = 10 := by
  rw [← UInt8.toNat_inj, UInt8.toNat_ofNat_of_lt' hn]
  rfl

/- Only the character for a line feed has its byte. -/
theorem count_utf8EncodeChar
    (c : Char) :
    (String.utf8EncodeChar c).count lineFeed =
      if c = '\n' then 1 else 0 := by
  have hFeed : c = '\n' ↔ c.val.toNat = 10 := by
    rw [Char.ext_iff, ← UInt32.toNat_inj]
    rfl
  simp only [hFeed]
  generalize hCode : c.val.toNat = n
  unfold String.utf8EncodeChar
  rw [hCode]
  dsimp only
  -- Characters of more than one byte have only bytes from 128 on.
  split
  · have hn : n < 256 := by omega
    simp only [List.count_singleton, beq_iff_eq,
      ofNat_eq_lineFeed hn]
  · have hn : n ≠ 10 := by omega
    rw [if_neg hn, List.count_eq_zero]
    split_ifs <;>
      simp only [List.mem_cons, List.not_mem_nil, or_false,
        not_or, eq_comm (a := lineFeed)] <;>
      simp (disch := omega) only [ofNat_eq_lineFeed] <;>
      omega

theorem count_encode
    (s : String) :
    (encode s).count lineFeed = s.toList.count '\n' := by
  rw [encode_eq]
  induction s.toList with
  | nil => rfl
  | cons c cs ih =>
      rw [List.flatMap_cons, List.count_append, ih,
        count_utf8EncodeChar, List.count_cons, Nat.add_comm]
      simp only [beq_iff_eq]

/- A text that ends in a line feed has no open line. -/
theorem isFinished_encode
    (s : String) :
    IsFinished (encode (s ++ "\n")) := by
  right
  rw [encode_append, encode_eq "\n"]
  exact List.getLast?_concat

end Utf8

end Variability
