import Variability.LineMap
import Variability.Proofs.Text.Pieces
import Mathlib.Data.List.Induction
import Mathlib.Data.Nat.Digits.Defs

/-
  How line markers are written.

  Blanks may stand at either end of a marker and behind its hash;
  they have to stand in front of each of the parts behind that. A
  reader takes as much as it can of each part, which is no choice,
  as what may follow a part never goes on with it.

  Main declarations:
    * `Marker.IsWritten`
    * `Marker.read?_eq_some_iff`
    * `Marker.IsValue`
    * `Marker.value?_eq_some_iff`
-/

namespace Variability

namespace Text

/- No blank is a digit. -/
theorem isDigit_of_isBlank
    {c : Char}
    (hBlank : isBlank c = true) :
    isDigit c = false := by
  have hTable :
      ∀ n ∈ [9, 10, 11, 12, 13, 0x20, 0x85, 0xa0, 0x1680, 0x2000,
        0x2001, 0x2002, 0x2003, 0x2004, 0x2005, 0x2006, 0x2007,
        0x2008, 0x2009, 0x200a, 0x2028, 0x2029, 0x202f, 0x205f,
        0x3000],
        inRanges digitRanges n = false := by
    decide +kernel
  apply hTable
  simp only [isBlank, Bool.or_eq_true, Bool.and_eq_true,
    decide_eq_true_eq, beq_iff_eq] at hBlank
  simp only [List.mem_cons, List.not_mem_nil, or_false]
  omega

theorem isBlank_of_isDigit
    {c : Char}
    (hDigit : isDigit c = true) :
    isBlank c = false := by
  by_contra hBlank
  rw [isDigit_of_isBlank (by simpa using hBlank)] at hDigit
  cases hDigit

/- The words of a text are made of the characters that are no blanks. -/
theorem all_wordsFrom
    (kind : Char → Bool)
    (word s : List Char) :
    (wordsFrom word s).all (·.all kind) = true ↔
      (∀ c ∈ word, kind c = true) ∧
        ∀ c ∈ s, isBlank c = true ∨ kind c = true := by
  fun_induction wordsFrom word s with
  | case1 word hEmpty => simp_all
  | case2 word hWord => simp_all
  | case3 word c rest hBlank hEmpty ih => simp_all
  | case4 word c rest hBlank hWord ih => simp_all
  | case5 word c rest hBlank ih =>
      rw [ih, List.forall_mem_cons, List.forall_mem_cons]
      simp [hBlank, and_assoc, and_left_comm]

end Text

namespace Marker

open Text

------------------------------------------------------------
-- Written Markers
------------------------------------------------------------

/- Blanks, perhaps none. -/
def IsGap (s : List Char) : Prop :=
  ∀ c ∈ s, isBlank c = true

/- Digits, at least one. -/
def IsNumber (s : List Char) : Prop :=
  s ≠ [] ∧ ∀ c ∈ s, isDigit c = true

/- Characters other than quotes, at least one. -/
def IsName (s : List Char) : Prop :=
  s ≠ [] ∧ '"' ∉ s

/- Some numbers, each behind blanks. -/
inductive AreFlags : List Char → Prop
  | none : AreFlags []
  | more
      {gap number rest : List Char}
      (hGap : IsGap gap)
      (hSome : gap ≠ [])
      (hNumber : IsNumber number)
      (hRest : AreFlags rest) :
      AreFlags (gap ++ (number ++ rest))

/- The ways to write a marker. -/
inductive IsWritten : List Char → Marker → Prop
  /- The marker `#line NUMBER`. -/
  | number
      {before behind gap number after : List Char}
      (hBefore : IsGap before)
      (hBehind : IsGap behind)
      (hGap : IsGap gap)
      (hSome : gap ≠ [])
      (hNumber : IsNumber number)
      (hAfter : IsGap after) :
      IsWritten
        (before ++ '#' :: (behind ++ ("line".toList ++
          (gap ++ (number ++ after)))))
        ⟨number, none⟩
  /- The marker `#line NUMBER "FILE"`. -/
  | numberAndFile
      {before behind gap number gap' file after : List Char}
      (hBefore : IsGap before)
      (hBehind : IsGap behind)
      (hGap : IsGap gap)
      (hSome : gap ≠ [])
      (hNumber : IsNumber number)
      (hGap' : IsGap gap')
      (hSome' : gap' ≠ [])
      (hFile : IsName file)
      (hAfter : IsGap after) :
      IsWritten
        (before ++ '#' :: (behind ++ ("line".toList ++
          (gap ++ (number ++ (gap' ++
            '"' :: (file ++ '"' :: after)))))))
        ⟨number, some file⟩
  /- The marker `# NUMBER "FILE" FLAG ...`. -/
  | plain
      {before behind number gap file flags after : List Char}
      (hBefore : IsGap before)
      (hBehind : IsGap behind)
      (hNumber : IsNumber number)
      (hGap : IsGap gap)
      (hSome : gap ≠ [])
      (hFile : IsName file)
      (hFlags : AreFlags flags)
      (hAfter : IsGap after) :
      IsWritten
        (before ++ '#' :: (behind ++ (number ++ (gap ++
          '"' :: (file ++ '"' :: (flags ++ after))))))
        ⟨number, some file⟩

------------------------------------------------------------
-- Parts of Markers
------------------------------------------------------------

variable {s rest : List Char}

theorem skip_eq_iff :
    skip s = rest ↔
      ∃ gap, IsGap gap ∧ s = gap ++ rest ∧ Stops isBlank rest := by
  constructor
  · intro hSkip
    rcases takeWhile_dropWhile_iff.mp ⟨rfl, hSkip⟩ with
      ⟨hText, hGap, hStops⟩
    exact ⟨_, hGap, hText, hStops⟩
  · rintro ⟨gap, hGap, hText, hStops⟩
    exact (takeWhile_dropWhile_iff.mpr ⟨hText, hGap, hStops⟩).2

theorem isEmpty_skip_iff :
    (skip s).isEmpty = true ↔ IsGap s := by
  rw [List.isEmpty_iff]
  exact List.dropWhile_eq_nil_iff

theorem afterHash_eq_some_iff :
    afterHash s = some rest ↔
      Stops isBlank rest ∧ ∃ before behind,
        IsGap before ∧ IsGap behind ∧
          s = before ++ '#' :: (behind ++ rest) := by
  rw [afterHash, Option.map_eq_some_iff]
  constructor
  · rintro ⟨more, hDrop, hSkip⟩
    rcases skip_eq_iff.mp hSkip with
      ⟨behind, hBehind, rfl, hStops⟩
    rcases skip_eq_iff.mp (dropPrefix?_eq_some_iff.mp hDrop) with
      ⟨before, hBefore, hText, -⟩
    exact ⟨hStops, before, behind, hBefore, hBehind, hText⟩
  · rintro ⟨hStops, before, behind, hBefore, hBehind, hText⟩
    refine ⟨behind ++ rest, ?_, ?_⟩
    · rw [dropPrefix?_eq_some_iff, skip_eq_iff]
      exact ⟨before, hBefore, hText, stops_cons (by decide) _⟩
    · rw [skip_eq_iff]
      exact ⟨behind, hBehind, rfl, hStops⟩

theorem skipSome_eq_some_iff :
    skipSome s = some rest ↔
      Stops isBlank rest ∧
        ∃ gap, IsGap gap ∧ gap ≠ [] ∧ s = gap ++ rest := by
  constructor
  · intro hSkip
    unfold skipSome at hSkip
    split at hSkip
    · rename_i c more
      split at hSkip
      · rename_i hBlank
        rcases skip_eq_iff.mp (Option.some.inj hSkip) with
          ⟨gap, hGap, rfl, hStops⟩
        exact ⟨hStops, c :: gap,
          List.forall_mem_cons.mpr ⟨hBlank, hGap⟩,
          List.cons_ne_nil _ _, rfl⟩
      · cases hSkip
    · cases hSkip
  · rintro ⟨hStops, gap, hGap, hSome, rfl⟩
    cases gap with
    | nil => exact absurd rfl hSome
    | cons c gap =>
        rw [IsGap, List.forall_mem_cons] at hGap
        rw [List.cons_append, skipSome, if_pos hGap.1,
          Option.some.injEq, skip_eq_iff]
        exact ⟨gap, hGap.2, rfl, hStops⟩

theorem digits?_eq_some_iff
    {number : List Char} :
    digits? s = some (number, rest) ↔
      IsNumber number ∧ s = number ++ rest ∧
        Stops isDigit rest := by
  have hRead :
      digits? s = some (number, rest) ↔
        number ≠ [] ∧ s.takeWhile isDigit = number ∧
          s.dropWhile isDigit = rest := by
    rw [digits?]
    split
    · rename_i hEmpty
      rw [List.isEmpty_iff] at hEmpty
      simp only [reduceCtorEq, hEmpty, false_iff, not_and]
      intro hSome hNumber
      exact absurd hNumber.symm hSome
    · rename_i hEmpty
      rw [List.isEmpty_iff] at hEmpty
      simp only [Option.some.injEq, Prod.mk.injEq]
      constructor
      · rintro ⟨rfl, rfl⟩
        exact ⟨hEmpty, rfl, rfl⟩
      · rintro ⟨-, rfl, rfl⟩
        exact ⟨rfl, rfl⟩
  rw [hRead, takeWhile_dropWhile_iff, IsNumber, and_assoc,
    and_left_comm (a := s = number ++ rest)]

theorem fileName?_eq_some_iff
    {file : List Char} :
    fileName? s = some (file, rest) ↔
      IsName file ∧ s = '"' :: (file ++ '"' :: rest) := by
  have hName :
      (∀ c ∈ file, decide (c ≠ '"') = true) ↔ '"' ∉ file := by
    simp only [decide_eq_true_eq]
    exact ⟨fun hFile hQuote => hFile _ hQuote rfl,
      fun hQuote c hc hEq => hQuote (hEq ▸ hc)⟩
  constructor
  · intro hRead
    unfold fileName? at hRead
    split at hRead
    · rename_i more
      dsimp only at hRead
      split at hRead
      · rename_i c more' hDrop
        split at hRead
        · cases hRead
        · rename_i hSome
          rw [Option.some.injEq, Prod.mk.injEq] at hRead
          rcases hRead with ⟨hTake, rfl⟩
          rcases takeWhile_dropWhile_iff.mp ⟨hTake, hDrop⟩ with
            ⟨rfl, hFile, hStops⟩
          have hc : c = '"' := by simpa using hStops c rfl
          rw [hTake, List.isEmpty_iff] at hSome
          exact ⟨⟨hSome, hName.mp hFile⟩, by rw [hc]⟩
      · cases hRead
    · cases hRead
  · rintro ⟨⟨hSome, hQuote⟩, rfl⟩
    rcases takeWhile_dropWhile_iff.mpr
      ⟨rfl, hName.mpr hQuote, stops_cons (c := '"') rfl rest⟩ with
      ⟨hTake, hDrop⟩
    rw [fileName?, hTake, hDrop]
    exact if_neg (by rwa [List.isEmpty_iff])

theorem AreFlags.blank_or_digit
    (hFlags : AreFlags s) :
    ∀ c ∈ s, isBlank c = true ∨ isDigit c = true := by
  induction hFlags with
  | none => intro c hc; cases hc
  | more hGap _ hNumber _ ih =>
      intro c hc
      rw [List.mem_append, List.mem_append] at hc
      rcases hc with hc | hc | hc
      · exact Or.inl (hGap c hc)
      · exact Or.inr (hNumber.2 c hc)
      · exact ih c hc

/-
  Blanks and digits are digits, some flags and blanks, by
  induction on the text. A blank begins a new flag if digits come
  next, and goes to the blanks in front of the next flag if not.
-/
theorem exists_flags
    (hText : ∀ c ∈ s, isBlank c = true ∨ isDigit c = true) :
    ∃ digits flags after,
      (∀ c ∈ digits, isDigit c = true) ∧ AreFlags flags ∧
        IsGap after ∧ s = digits ++ (flags ++ after) := by
  induction s with
  | nil =>
      exact ⟨[], [], [], by simp, .none, by simp [IsGap], rfl⟩
  | cons c s ih =>
      rw [List.forall_mem_cons] at hText
      rcases ih hText.2 with
        ⟨digits, flags, after, hDigits, hFlags, hAfter, rfl⟩
      rcases hText.1 with hBlank | hDigit
      · by_cases hSome : digits = []
        · subst hSome
          cases hFlags with
          | none =>
              exact ⟨[], [], c :: after, hDigits, .none,
                List.forall_mem_cons.mpr ⟨hBlank, hAfter⟩, rfl⟩
          | @more gap number rest hGap _ hNumber hRest =>
              refine ⟨[], (c :: gap) ++ (number ++ rest), after,
                hDigits, .more ?_ (List.cons_ne_nil _ _) hNumber
                  hRest, hAfter, rfl⟩
              exact List.forall_mem_cons.mpr ⟨hBlank, hGap⟩
        · refine ⟨[], [c] ++ (digits ++ flags), after, by simp,
            .more ?_ (List.cons_ne_nil _ _) ⟨hSome, hDigits⟩
              hFlags, hAfter, by simp⟩
          simpa [IsGap] using hBlank
      · exact ⟨c :: digits, flags, after,
          List.forall_mem_cons.mpr ⟨hDigit, hDigits⟩, hFlags,
          hAfter, rfl⟩

theorem flags_iff :
    (s.head?.all isBlank = true ∧
      (words s).all (·.all isDigit) = true) ↔
      ∃ flags after,
        AreFlags flags ∧ IsGap after ∧ s = flags ++ after := by
  rw [words, all_wordsFrom]
  constructor
  · rintro ⟨hHead, -, hText⟩
    rcases exists_flags hText with
      ⟨digits, flags, after, hDigits, hFlags, hAfter, rfl⟩
    cases digits with
    | nil => exact ⟨flags, after, hFlags, hAfter, rfl⟩
    | cons c digits =>
        have hBlank : isBlank c = true := hHead
        rw [isBlank_of_isDigit (hDigits c List.mem_cons_self)]
          at hBlank
        cases hBlank
  · rintro ⟨flags, after, hFlags, hAfter, rfl⟩
    refine ⟨?_, by simp, fun c hc => ?_⟩
    · cases hFlags with
      | none =>
          cases after with
          | nil => rfl
          | cons c after => exact hAfter c List.mem_cons_self
      | @more gap _ _ hGap hSome _ _ =>
          cases gap with
          | nil => exact absurd rfl hSome
          | cons c gap => exact hGap c List.mem_cons_self
    · rw [List.mem_append] at hc
      rcases hc with hc | hc
      · exact hFlags.blank_or_digit c hc
      · exact Or.inl (hAfter c hc)

------------------------------------------------------------
-- Reading Markers
------------------------------------------------------------

variable {m : Marker}

theorem isWritten_of_directive?
    (hRead : directive? s = some m) :
    IsWritten s m := by
  simp only [directive?, Option.bind_eq_bind,
    Option.bind_eq_some_iff, Prod.exists] at hRead
  rcases hRead with ⟨t, hHash, t', hLine, t'', hSkip, number, u,
    hDigits, hEnd⟩
  rcases afterHash_eq_some_iff.mp hHash with
    ⟨-, before, behind, hBefore, hBehind, rfl⟩
  rw [dropPrefix?_eq_some_iff] at hLine
  rcases skipSome_eq_some_iff.mp hSkip with
    ⟨-, gap, hGap, hSome, rfl⟩
  rcases digits?_eq_some_iff.mp hDigits with ⟨hNumber, rfl, -⟩
  rw [hLine]
  split at hEnd
  · rename_i hAfter
    cases hEnd
    exact .number hBefore hBehind hGap hSome hNumber
      (isEmpty_skip_iff.mp hAfter)
  · simp only [Option.bind_eq_some_iff, Prod.exists] at hEnd
    rcases hEnd with ⟨v, hSkip', file, after, hQuoted, hEnd⟩
    rcases skipSome_eq_some_iff.mp hSkip' with
      ⟨-, gap', hGap', hSome', rfl⟩
    rcases fileName?_eq_some_iff.mp hQuoted with ⟨hFile, rfl⟩
    split at hEnd
    · rename_i hAfter
      cases hEnd
      exact .numberAndFile hBefore hBehind hGap hSome hNumber
        hGap' hSome' hFile (isEmpty_skip_iff.mp hAfter)
    · cases hEnd

theorem isWritten_of_plain?
    (hRead : plain? s = some m) :
    IsWritten s m := by
  simp only [plain?, Option.bind_eq_bind,
    Option.bind_eq_some_iff, Prod.exists] at hRead
  rcases hRead with ⟨t, hHash, number, u, hDigits, v, hSkip, file,
    w, hQuoted, hEnd⟩
  rcases afterHash_eq_some_iff.mp hHash with
    ⟨-, before, behind, hBefore, hBehind, rfl⟩
  rcases digits?_eq_some_iff.mp hDigits with ⟨hNumber, rfl, -⟩
  rcases skipSome_eq_some_iff.mp hSkip with
    ⟨-, gap, hGap, hSome, rfl⟩
  rcases fileName?_eq_some_iff.mp hQuoted with ⟨hFile, rfl⟩
  split at hEnd
  · rename_i hTail
    rcases flags_iff.mp hTail with
      ⟨flags, after, hFlags, hAfter, rfl⟩
    cases hEnd
    exact .plain hBefore hBehind hNumber hGap hSome hFile hFlags
      hAfter
  · cases hEnd

theorem IsGap.stops
    (hGap : IsGap s) :
    Stops isDigit s := by
  intro c hc
  exact isDigit_of_isBlank (hGap c (List.mem_of_mem_head? hc))

theorem stops_gap
    {gap : List Char}
    (hGap : IsGap gap)
    (hSome : gap ≠ [])
    (s : List Char) :
    Stops isDigit (gap ++ s) := by
  cases gap with
  | nil => exact absurd rfl hSome
  | cons c gap =>
      exact stops_cons
        (isDigit_of_isBlank (hGap c List.mem_cons_self)) _

theorem stops_number
    {number : List Char}
    (hNumber : IsNumber number)
    (s : List Char) :
    Stops isBlank (number ++ s) := by
  cases number with
  | nil => exact absurd rfl hNumber.1
  | cons c number =>
      exact stops_cons
        (isBlank_of_isDigit (hNumber.2 c List.mem_cons_self)) _

/- A number behind the hash is no `line`. -/
theorem dropPrefix?_number
    {number : List Char}
    (hNumber : IsNumber number)
    (s : List Char) :
    dropPrefix? "line".toList (number ++ s) = none := by
  cases number with
  | nil => exact absurd rfl hNumber.1
  | cons c number =>
      rw [Option.eq_none_iff_forall_ne_some]
      intro rest hDrop
      rw [dropPrefix?_eq_some_iff] at hDrop
      have hc : c = 'l' := (List.cons.inj hDrop).1
      have hDigit := hNumber.2 c List.mem_cons_self
      rw [hc] at hDigit
      exact absurd hDigit (by decide +kernel)

theorem afterHash_append
    {before behind : List Char}
    (hBefore : IsGap before)
    (hBehind : IsGap behind)
    (hStops : Stops isBlank rest) :
    afterHash (before ++ '#' :: (behind ++ rest)) = some rest :=
  afterHash_eq_some_iff.mpr
    ⟨hStops, before, behind, hBefore, hBehind, rfl⟩

theorem skipSome_append
    {gap : List Char}
    (hGap : IsGap gap)
    (hSome : gap ≠ [])
    (hStops : Stops isBlank rest) :
    skipSome (gap ++ rest) = some rest :=
  skipSome_eq_some_iff.mpr ⟨hStops, gap, hGap, hSome, rfl⟩

theorem digits?_append
    {number : List Char}
    (hNumber : IsNumber number)
    (hStops : Stops isDigit rest) :
    digits? (number ++ rest) = some (number, rest) :=
  digits?_eq_some_iff.mpr ⟨hNumber, rfl, hStops⟩

theorem fileName?_append
    {file : List Char}
    (hFile : IsName file)
    (rest : List Char) :
    fileName? ('"' :: (file ++ '"' :: rest)) =
      some (file, rest) :=
  fileName?_eq_some_iff.mpr ⟨hFile, rfl⟩

theorem dropPrefix?_append
    (start rest : List Char) :
    dropPrefix? start (start ++ rest) = some rest :=
  dropPrefix?_eq_some_iff.mpr rfl

theorem stops_line
    (s : List Char) :
    Stops isBlank ("line".toList ++ s) :=
  stops_cons (c := 'l') rfl _

theorem stops_quote
    (s : List Char) :
    Stops isBlank ('"' :: s) :=
  stops_cons rfl s

/- Behind blanks and a quote a text is not over. -/
theorem not_isGap_quote
    {gap : List Char}
    (s : List Char) :
    ¬ IsGap (gap ++ '"' :: s) := by
  intro hGap
  have hQuote : isBlank '"' = true := hGap _ (by simp)
  cases hQuote

theorem read?_of_isWritten
    (hWritten : IsWritten s m) :
    read? s = some m := by
  cases hWritten with
  | number hBefore hBehind hGap hSome hNumber hAfter =>
      rw [read?, directive?,
        afterHash_append hBefore hBehind (stops_line _)]
      simp only [Option.bind_eq_bind, Option.bind_some,
        dropPrefix?_append,
        skipSome_append hGap hSome (stops_number hNumber _),
        digits?_append hNumber hAfter.stops]
      rw [if_pos (isEmpty_skip_iff.mpr hAfter)]
      rfl
  | numberAndFile hBefore hBehind hGap hSome hNumber hGap' hSome'
      hFile hAfter =>
      rw [read?, directive?,
        afterHash_append hBefore hBehind (stops_line _)]
      simp only [Option.bind_eq_bind, Option.bind_some,
        dropPrefix?_append,
        skipSome_append hGap hSome (stops_number hNumber _),
        digits?_append hNumber (stops_gap hGap' hSome' _)]
      rw [if_neg (by rw [isEmpty_skip_iff]; exact not_isGap_quote _)]
      simp only [Option.bind_some,
        skipSome_append hGap' hSome' (stops_quote _),
        fileName?_append hFile]
      rw [if_pos (isEmpty_skip_iff.mpr hAfter)]
      rfl
  | plain hBefore hBehind hNumber hGap hSome hFile hFlags
      hAfter =>
      rw [read?, directive?, plain?,
        afterHash_append hBefore hBehind (stops_number hNumber _)]
      simp only [Option.bind_eq_bind, Option.bind_some,
        Option.bind_none, dropPrefix?_number hNumber,
        digits?_append hNumber (stops_gap hGap hSome _),
        skipSome_append hGap hSome (stops_quote _),
        fileName?_append hFile]
      rw [if_pos (flags_iff.mpr ⟨_, _, hFlags, hAfter, rfl⟩)]
      rfl

/- A line is read as a marker if and only if it is written as one. -/
theorem read?_eq_some_iff :
    read? s = some m ↔ IsWritten s m := by
  constructor
  · intro hRead
    rw [read?, Option.or_eq_some_iff] at hRead
    rcases hRead with hDirective | ⟨-, hPlain⟩
    · exact isWritten_of_directive? hDirective
    · exact isWritten_of_plain? hPlain
  · exact read?_of_isWritten

------------------------------------------------------------
-- Numbers of Markers
------------------------------------------------------------

/-
  The value of decimal digits that fits 64 bits. Digits of other
  scripts have none.
-/
def IsValue (number : List Char) (n : Nat) : Prop :=
  (∀ c ∈ number, c.isDigit = true) ∧ n < 2 ^ 64 ∧
    n = Nat.ofDigits 10
      (number.reverse.map fun c => c.toNat - '0'.toNat)

theorem foldl_digits
    (digit : Char → Nat)
    (number : List Char) :
    number.foldl (fun n c => 10 * n + digit c) 0 =
      Nat.ofDigits 10 (number.reverse.map digit) := by
  induction number using List.reverseRecOn with
  | nil => rfl
  | append_singleton number c ih =>
      rw [List.foldl_append, ih, List.reverse_concat, List.map_cons,
        Nat.ofDigits_cons, Nat.add_comm]
      rfl

theorem value?_eq_some_iff
    {n : Nat} :
    m.value? = some n ↔ IsValue m.number n := by
  rw [value?, IsValue, foldl_digits, ← List.all_eq_true]
  split
  · rename_i hDigits
    dsimp only
    split
    · rename_i hFits
      rw [Option.some.injEq]
      constructor
      · rintro rfl
        exact ⟨hDigits, hFits, rfl⟩
      · rintro ⟨-, -, hValue⟩
        exact hValue.symm
    · rename_i hFits
      simp only [reduceCtorEq, false_iff, not_and]
      rintro - hLess rfl
      exact hFits hLess
  · rename_i hDigits
    simp [hDigits]

end Marker

end Variability
