import Variability.Proofs.Expression.Grammar

/-
  Integers are read with their value.

  The reader leaves the separators out, takes the letters of the
  suffix away, and tells the base by the first characters. What
  is left are the digits, one by one.

  Main declarations:
    * `Grammar.Literal.exists_baseOf`
    * `Grammar.Literal.numberValue?_text`
-/

namespace Variability

namespace Grammar

open Expression

theorem Radix.base_le (radix : Radix) : radix.base ≤ 16 := by
  cases radix <;> decide

namespace Digit

variable {base : Nat}

/- What holds of the digits of the largest base holds of all. -/
theorem forall_char
    (p : Nat → Char → Prop)
    (hAll :
      ∀ v : Fin 16, ∀ capital, p v (Digit.mk v capital).char)
    (hBase : base ≤ 16)
    (d : Digit base) :
    p d.value d.char := by
  rcases d with ⟨⟨v, hv⟩, capital⟩
  exact hAll ⟨v, by omega⟩ capital

theorem digitValue_char
    (hBase : base ≤ 16)
    (d : Digit base) :
    digitValue d.char = d.value :=
  forall_char (fun v c => digitValue c = v) (by decide) hBase
    d

theorem isAlphanum_char
    (hBase : base ≤ 16)
    (d : Digit base) :
    d.char.isAlphanum = true :=
  forall_char (fun _ c => c.isAlphanum = true) (by decide)
    hBase d

theorem char_ne_separator
    (hBase : base ≤ 16)
    (d : Digit base) :
    d.char ≠ '\'' :=
  forall_char (fun _ c => c ≠ '\'') (by decide) hBase d

/- No digit is one of the letters that may end an integer. -/
theorem not_isSizeLetter_char
    (hBase : base ≤ 16)
    (d : Digit base) :
    isSizeLetter d.char = false :=
  forall_char (fun _ c => isSizeLetter c = false) (by decide)
    hBase d

end Digit

/- The value of some digits behind others of a known value. -/
def valueFrom
    {base : Nat}
    (n : Nat)
    (ds : List (Digit base)) :
    Nat :=
  ds.foldl (fun n d => base * n + d.value) n

theorem natOfDigits?_map_char
    {base : Nat}
    (hBase : base ≤ 16)
    (ds : List (Digit base)) :
    natOfDigits? base (ds.map Digit.char) =
      some (valueFrom 0 ds) := by
  have hFrom (n : Nat) :
      (ds.map Digit.char).foldlM
          (fun n c =>
            if digitValue c < base then
              some (base * n + digitValue c)
            else none) n =
        some (valueFrom n ds) := by
    induction ds generalizing n with
    | nil => rfl
    | cons d ds ih =>
        rw [List.map_cons, List.foldlM_cons,
          d.digitValue_char hBase, if_pos d.value.2]
        exact ih _
  exact hFrom 0

namespace Literal

variable {l : Literal}

/- The digits of an integer without separators. -/
def plain (l : Literal) : List (Digit l.radix.base) :=
  l.first :: l.more.map (·.2)

theorem filter_digits (l : Literal) :
    l.digits.filter (· ≠ '\'') =
      l.plain.map Digit.char := by
  have hKeeps (d : Digit l.radix.base) :
      decide (d.char ≠ '\'') = true :=
    decide_eq_true (d.char_ne_separator l.radix.base_le)
  have hMore (more : List (Bool × Digit l.radix.base)) :
      (more.flatMap fun d =>
          if d.1 then ['\'', d.2.char]
          else [d.2.char]).filter (· ≠ '\'') =
        (more.map (·.2)).map Digit.char := by
    induction more with
    | nil => rfl
    | cons d more ih =>
        rcases d with ⟨separated, d⟩
        rw [List.flatMap_cons, List.filter_append, ih]
        cases separated <;>
          simp [d.char_ne_separator l.radix.base_le]
  unfold digits plain
  rw [List.filter_cons, if_pos (hKeeps l.first), hMore]
  rfl

/- A text is its digits when the letters at its end are off. -/
theorem dropSuffix
    {front suffix : List Char}
    (hSuffix : ∀ c ∈ suffix, isSizeLetter c = true)
    (hFront :
      ∀ c ∈ front.getLast?, isSizeLetter c = false) :
    ((front ++ suffix).reverse.dropWhile
        isSizeLetter).reverse = front := by
  rw [List.reverse_append,
    List.dropWhile_append_of_pos fun c hc =>
      hSuffix c (List.mem_reverse.mp hc)]
  rcases List.eq_nil_or_concat front with rfl | ⟨cs, c, rfl⟩
  · rfl
  · have hLast := hFront c (by simp)
    simp [hLast]

theorem baseOf_decimal
    {c : Char}
    (hFirst : c ≠ '0')
    (cs : List Char) :
    baseOf (c :: cs) = (10, c :: cs) := by
  unfold baseOf
  split <;> simp_all

theorem baseOf_octal
    {c : Char}
    (hMark : c ∉ ['x', 'X', 'b', 'B'])
    (cs : List Char) :
    baseOf ('0' :: c :: cs) = (8, c :: cs) := by
  unfold baseOf
  split <;> simp_all

/- The base and the digits of an integer are told by its start. -/
theorem exists_baseOf (l : Literal) :
    ∃ base cs,
      baseOf
          (l.radix.mark l.capital ++
            l.plain.map Digit.char) = (base, cs) ∧
      cs ≠ [] ∧ natOfDigits? base cs = some l.value := by
  rcases l with ⟨radix, capital, first, more, suffix, hOpens, -⟩
  have hAll (ds : List (Digit radix.base)) :=
    natOfDigits?_map_char radix.base_le ds
  cases radix with
  | decimal =>
      have hFirst : first.char ≠ '0' :=
        first.forall_char (fun v c => v ≠ 0 → c ≠ '0')
          (by decide) (by decide) hOpens
      exact
        ⟨10, _, baseOf_decimal hFirst _, by simp,
          hAll (first :: more.map Prod.snd)⟩
  | octal =>
      have hZero : first.value.val = 0 := hOpens
      have hFirst : first.char = '0' :=
        first.forall_char (fun v c => v = 0 → c = '0')
          (by decide) (by decide) hZero
      cases more with
      | nil =>
          refine ⟨10, ['0'], ?_, by simp, ?_⟩
          · simp [Radix.mark, plain, hFirst, baseOf]
          · simp [value, hZero]
            rfl
      | cons d more =>
          have hMark : d.2.char ∉ ['x', 'X', 'b', 'B'] :=
            d.2.forall_char
              (fun v c => v < 8 → c ∉ ['x', 'X', 'b', 'B'])
              (by decide) (by decide) d.2.value.2
          refine
            ⟨8, (d.2 :: more.map (·.2)).map Digit.char, ?_,
              by simp, ?_⟩
          · simp only [Radix.mark, plain, List.nil_append,
              List.map_cons, hFirst]
            exact baseOf_octal hMark _
          · apply (hAll (d.2 :: more.map (·.2))).trans
            simp [value, valueFrom, hZero]
  | hexadecimal =>
      exact
        ⟨16, _, by cases capital <;> rfl, by simp, hAll _⟩
  | binary =>
      exact
        ⟨2, _, by cases capital <;> rfl, by simp, hAll _⟩

/- The reader finds the value of an integer that fits 64 bits. -/
theorem numberValue?_text
    (hValue : l.value < 2 ^ 64) :
    numberValue? l.text = some (Int64.ofNat l.value) := by
  have hMark :
      (l.radix.mark l.capital).filter (· ≠ '\'') =
        l.radix.mark l.capital := by
    cases l.radix <;> cases l.capital <;> rfl
  have hSuffix :
      l.suffix.toList.filter (· ≠ '\'') = l.suffix.toList ∧
        ∀ c ∈ l.suffix.toList, isSizeLetter c = true := by
    have hAll :
        ∀ suffix ∈ suffixes,
          suffix.toList.filter (· ≠ '\'') = suffix.toList ∧
            ∀ c ∈ suffix.toList, isSizeLetter c = true := by
      simp [suffixes, isSizeLetter]
    exact hAll l.suffix l.suffix_mem
  have hLast :
      ∀ c ∈
          (l.radix.mark l.capital ++
            l.plain.map Digit.char).getLast?,
        isSizeLetter c = false := by
    intro c hc
    rw [List.getLast?_append_of_ne_nil _ (by simp [plain]),
      List.getLast?_map, Option.mem_def,
      Option.map_eq_some_iff] at hc
    rcases hc with ⟨d, -, rfl⟩
    exact d.not_isSizeLetter_char l.radix.base_le
  rcases l.exists_baseOf with
    ⟨base, cs, hBase, hSome, hDigits⟩
  unfold numberValue? text
  simp only [String.toList_ofList, List.filter_append, hMark,
    hSuffix.1, filter_digits, dropSuffix hSuffix.2 hLast,
    hBase, List.isEmpty_iff, hSome, if_false, hDigits]
  exact if_pos hValue

/- It begins with a letter or a digit. -/
theorem head?_text
    (l : Literal) :
    ∃ c, l.text.toList.head? = some c ∧
      c.isAlphanum = true := by
  rcases l with ⟨radix, capital, first, more, suffix, -, -⟩
  have hFirst := first.isAlphanum_char radix.base_le
  unfold Literal.text Literal.digits
  rw [String.toList_ofList]
  cases radix with
  | decimal | octal => exact ⟨_, rfl, hFirst⟩
  | hexadecimal | binary => exact ⟨'0', rfl, by decide⟩

end Literal

end Grammar

end Variability
