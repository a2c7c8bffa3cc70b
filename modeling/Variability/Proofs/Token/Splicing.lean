import Variability.Proofs.Token.Lexer

/-
  Which characters of a text stay when its lines are spliced.

  A character is taken out if it is a carriage return or belongs
  to a line end behind a backslash, and what stands next to it
  tells. A letter that stays is on the line that the line feeds
  in front of it count. Lines never go back, and go on behind
  each line feed that stays.

  Main declarations:
    * `Lexer.stays`, `Lexer.remaining`
    * `Lexer.JoinsWholeLines`
    * `Lexer.splice_eq_remaining`
    * `Lexer.pairwise_splice`
-/

namespace Variability

namespace Lexer

------------------------------------------------------------
-- Characters That Stay
------------------------------------------------------------

/-
  Whether a character stays, by what stands in front of it, the
  nearest character first, and by what stands behind it.
-/
def stays (before : List Char) (c : Char) (after : List Char) :
    Bool :=
  if c = '\r' then false
  else if c = '\\' then
    after.head? ≠ some '\n' && after.head? ≠ some '\r'
  else if c = '\n' then
    before.head? ≠ some '\\' &&
      before.take 2 ≠ ['\r', '\\']
  else true

/-
  The characters of a text that stay, each on the line that the
  line feeds in front of it count.
-/
def remaining (before : List Char) : List Char → List Letter
  | [] => []
  | c :: after =>
      if stays before c after then
        ⟨c, 1 + before.count '\n'⟩ ::
          remaining (c :: before) after
      else
        remaining (c :: before) after

/- Behind a backslash, carriage returns come with line feeds only. -/
def JoinsWholeLines (text : List Char) : Prop :=
  ∀ front back, text = front ++ '\\' :: '\r' :: back →
    back.head? = some '\n'

theorem joinsWholeLines_iff {text : List Char} :
    JoinsWholeLines text ↔
      ∀ tail ∈ text.tails, ['\\', '\r'] <+: tail →
        (tail.drop 2).head? = some '\n' := by
  simp only [List.mem_tails]
  constructor
  · rintro hJoins _ ⟨front, rfl⟩ ⟨back, rfl⟩
    exact hJoins front back rfl
  · rintro hTails front back rfl
    exact hTails _ (List.suffix_append _ _) ⟨back, rfl⟩

instance : DecidablePred JoinsWholeLines := fun _ =>
  decidable_of_iff' _ joinsWholeLines_iff

theorem JoinsWholeLines.suffix
    {text text' : List Char}
    (hJoins : JoinsWholeLines text)
    (hSuffix : text' <:+ text) :
    JoinsWholeLines text' := by
  rcases hSuffix with ⟨more, rfl⟩
  intro front back hEq
  apply hJoins (more ++ front) back
  rw [hEq, List.append_assoc]

/- No line end that starts at a place is behind a backslash. -/
def IsOutside (before after : List Char) : Prop :=
  (before.head? = some '\\' →
    after.head? ≠ some '\n' ∧ after.head? ≠ some '\r') ∧
  (before.take 2 = ['\r', '\\'] → after.head? ≠ some '\n')

theorem isOutside_cons
    {c : Char}
    (hc : c ≠ '\\' ∧ c ≠ '\r')
    (before after : List Char) :
    IsOutside (c :: before) after := by
  constructor
  · intro hHead
    exact absurd (Option.some.inj hHead) hc.1
  · intro hTake
    rw [List.take_succ_cons, List.cons.injEq] at hTake
    exact absurd hTake.1 hc.2

/- Behind a carriage return that no backslash is in front of. -/
theorem isOutside_return
    {before : List Char}
    (hNoEscape : before.head? ≠ some '\\')
    (after : List Char) :
    IsOutside ('\r' :: before) after := by
  refine ⟨fun hHead => ?_, fun hTake => ?_⟩
  · cases hHead
  · cases before with
    | nil => cases hTake
    | cons c before =>
        cases hTake
        exact absurd rfl hNoEscape

/- A line feed that no backslash is in front of stays. -/
theorem IsOutside.stays_feed
    {before rest : List Char}
    (hOutside : IsOutside before ('\n' :: rest)) :
    stays before '\n' rest = true := by
  have hNoEscape : before.head? ≠ some '\\' := fun hHead =>
    (hOutside.1 hHead).1 rfl
  have hNoReturn : before.take 2 ≠ ['\r', '\\'] :=
    fun hTake => hOutside.2 hTake rfl
  simp [stays, hNoEscape, hNoReturn]

/-
  Any other character stays, and the text behind it is outside,
  unless it is a backslash in front of a line end.
-/
theorem stays_other
    {c : Char}
    {rest : List Char}
    (hFeed : c ≠ '\n')
    (hReturn : c ≠ '\r')
    (hEscape :
      c = '\\' →
        rest.head? ≠ some '\n' ∧ rest.head? ≠ some '\r')
    (before : List Char) :
    stays before c rest = true ∧
      IsOutside (c :: before) rest := by
  refine ⟨?_, fun hHead => ?_, fun hTake => ?_⟩
  · by_cases hc : c = '\\'
    · have hNext := hEscape hc
      simp [stays, hc, hNext.1, hNext.2]
    · simp [stays, hc, hReturn, hFeed]
  · exact hEscape (Option.some.inj hHead)
  · rw [List.take_succ_cons, List.cons.injEq] at hTake
    exact absurd hTake.1 hReturn

/-
  The letters of a text are the characters that stay, by
  induction on the text. Splicing never stops between a
  backslash and the line end behind it.
-/
theorem splice_eq_remaining_of_isOutside
    (text before : List Char)
    (hJoins : JoinsWholeLines text)
    (hOutside : IsOutside before text)
    {line : Nat}
    (hLine : line = 1 + before.count '\n') :
    splice line text = remaining before text := by
  fun_induction splice line text generalizing before with
  | case1 => rfl
  | case2 line rest ih =>
      have hRest :=
        ih ('\n' :: '\\' :: before)
          (hJoins.suffix ⟨['\\', '\n'], rfl⟩)
          (isOutside_cons (by decide) _ _) (by simp; omega)
      rw [hRest]
      simp [remaining, stays]
  | case3 line rest ih =>
      have hRest :=
        ih ('\n' :: '\r' :: '\\' :: before)
          (hJoins.suffix ⟨['\\', '\r', '\n'], rfl⟩)
          (isOutside_cons (by decide) _ _) (by simp; omega)
      rw [hRest]
      simp [remaining, stays]
  | case4 line rest hNoFeed =>
      have hFeed := hJoins [] rest rfl
      cases rest with
      | nil => cases hFeed
      | cons c rest =>
          cases hFeed
          exact absurd rfl (hNoFeed rest)
  | case5 line rest ih =>
      have hNoEscape : before.head? ≠ some '\\' := fun hHead =>
        (hOutside.1 hHead).2 rfl
      have hRest := isOutside_return hNoEscape rest
      rw [ih _ (hJoins.suffix (List.suffix_cons _ _)) hRest
        (by simpa using hLine)]
      simp [remaining, stays]
  | case6 line rest ih =>
      have hStays := hOutside.stays_feed
      have hRest :=
        ih ('\n' :: before) (hJoins.suffix (List.suffix_cons _ _))
          (isOutside_cons (by decide) _ _) (by simp; omega)
      rw [hRest, remaining, if_pos hStays, hLine]
  | case7 line c rest hFeed _ hReturn hNoReturn hNoFeed ih =>
      have hEscape (hc : c = '\\') :
          rest.head? ≠ some '\n' ∧ rest.head? ≠ some '\r' := by
        cases rest with
        | nil => simp
        | cons d rest =>
            constructor
            · rintro ⟨⟩
              exact hFeed rest hc rfl
            · rintro ⟨⟩
              exact hReturn rest hc rfl
      rcases stays_other hNoFeed hNoReturn hEscape before with
        ⟨hStays, hRest⟩
      have hCount :
          line = 1 + (c :: before).count '\n' := by
        rw [List.count_cons_of_ne hNoFeed]
        exact hLine
      rw [ih _ (hJoins.suffix (List.suffix_cons _ _)) hRest
        hCount, remaining, if_pos hStays, hLine]

/- The letters of a whole text are the characters that stay. -/
theorem splice_eq_remaining
    {text : List Char}
    (hJoins : JoinsWholeLines text) :
    splice 1 text = remaining [] text := by
  have hStart : IsOutside [] text := by
    constructor
    · intro hHead
      cases hHead
    · intro hTake
      cases hTake
  exact splice_eq_remaining_of_isOutside text [] hJoins hStart rfl

------------------------------------------------------------
-- Lines of Letters
------------------------------------------------------------

/- No later line than that of another letter, an earlier one at its end. -/
def Letter.Precedes (l l' : Letter) : Prop :=
  l.line ≤ l'.line ∧ (l.char = '\n' → l.line < l'.line)

theorem le_line_of_mem_splice
    (line : Nat)
    (text : List Char) :
    ∀ l ∈ splice line text, line ≤ l.line := by
  fun_induction splice line text <;> grind

/- Lines never go back, and go on behind a line feed. -/
theorem pairwise_splice
    (line : Nat)
    (text : List Char) :
    (splice line text).Pairwise Letter.Precedes := by
  fun_induction splice line text with
  | case1 => exact .nil
  | case6 line rest ih =>
      refine .cons (fun l hl => ?_) ih
      have hLe := le_line_of_mem_splice _ _ l hl
      exact ⟨by dsimp only; omega, fun _ => hLe⟩
  | case7 line c rest _ _ _ _ hNoFeed ih =>
      refine .cons (fun l hl => ?_) ih
      exact
        ⟨le_line_of_mem_splice _ _ l hl,
          fun hFeed => absurd hFeed hNoFeed⟩
  | _ => assumption

end Lexer

end Variability
