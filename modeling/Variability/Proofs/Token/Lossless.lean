import Variability.Proofs.Token.Splicing

/-
  Tokens and the gaps between them.

  A gap consists of white space and comments. The letters of a
  text are the pieces that its tokens are made of, with gaps in
  front of them, between them and behind them; the last comment
  may be left open. A token opens a line if it is the first one
  or a line feed outside block comments is in the gap before it.

  Main declarations:
    * `Lexer.IsGap`, `Lexer.IsLastGap`
    * `Lexer.Renders`
    * `Lexer.renders_tokens`
-/

namespace Variability

namespace Lexer

------------------------------------------------------------
-- Gaps
------------------------------------------------------------

/- The end of a block comment. -/
def blockEnd : List Char := ['*', '/']

/-
  White space and comments that are closed; `feeds` if a line
  feed outside block comments is among them.
-/
inductive IsGap : (feeds : Bool) → List Char → Prop where
  | nil : IsGap false []
  | blank {c : Char} {feeds : Bool} {cs : List Char}
      (hBlank : Text.isBlank c = true)
      (hRest : IsGap feeds cs) :
      IsGap (c == '\n' || feeds) (c :: cs)
  | lineComment {body : List Char} {feeds : Bool}
      {cs : List Char}
      (hBody : '\n' ∉ body)
      (hRest : IsGap feeds cs) :
      IsGap true (['/', '/'] ++ body ++ '\n' :: cs)
  | blockComment {body : List Char} {feeds : Bool}
      {cs : List Char}
      (hBody : ¬ blockEnd <:+: body)
      (hRest : IsGap feeds cs) :
      IsGap feeds (['/', '*'] ++ body ++ blockEnd ++ cs)

/- Nothing, or a comment that is left open. -/
inductive IsLeftOpen : List Char → Prop where
  | nothing : IsLeftOpen []
  | lineComment {body : List Char}
      (hBody : '\n' ∉ body) :
      IsLeftOpen (['/', '/'] ++ body)
  | blockComment {body : List Char}
      (hBody : ¬ blockEnd <:+: body) :
      IsLeftOpen (['/', '*'] ++ body)

/- A gap behind which no token stands. -/
def IsLastGap (cs : List Char) : Prop :=
  ∃ feeds front back, cs = front ++ back ∧
    IsGap feeds front ∧ IsLeftOpen back

/- Where no gap goes on. -/
def OpensToken : List Char → Prop
  | [] => False
  | c :: cs =>
      Text.isBlank c = false ∧
        (c = '/' → cs.head? ≠ some '/' ∧ cs.head? ≠ some '*')

variable {feeds : Bool}
variable {body cs : List Char}
variable {c d : Char}

/- A block comment does not end at a character inside it. -/
theorem not_blockEnd_infix_cons
    (hBody : ¬ blockEnd <:+: body)
    (hNext : ¬ (c = '*' ∧ body.head? = some '/')) :
    ¬ blockEnd <:+: c :: body := by
  rw [List.infix_cons_iff]
  rintro (hPrefix | hInfix)
  · cases body with
    | nil => simp [blockEnd] at hPrefix
    | cons d body =>
        simp only [blockEnd, List.cons_prefix_cons] at hPrefix
        exact
          hNext ⟨hPrefix.1.symm, congrArg some hPrefix.2.1.symm⟩
  · exact hBody hInfix

------------------------------------------------------------
-- Skipping
------------------------------------------------------------

/- What is passed between a place in a gap and the next token. -/
def Passes : Gap → (feeds : Bool) → List Char → Prop
  | .blank, feeds, cs => IsGap feeds cs
  | .lineComment, feeds, cs =>
      ∃ body rest, cs = body ++ '\n' :: rest ∧ '\n' ∉ body ∧
        feeds = true ∧ ∃ more, IsGap more rest
  | .blockComment, feeds, cs =>
      ∃ body rest, cs = body ++ blockEnd ++ rest ∧
        ¬ blockEnd <:+: body ∧ IsGap feeds rest

namespace Passes

theorem feed
    (hRest : Passes .blank feeds cs) :
    Passes .blank true ('\n' :: cs) :=
  IsGap.blank (c := '\n') (by decide) hRest

theorem blank
    (hBlank : Text.isBlank c = true)
    (hNoFeed : c ≠ '\n')
    (hRest : Passes .blank feeds cs) :
    Passes .blank feeds (c :: cs) := by
  have hGap := IsGap.blank hBlank hRest
  rwa [beq_eq_false_iff_ne.mpr hNoFeed, Bool.false_or] at hGap

theorem openLine
    (hRest : Passes .lineComment feeds cs) :
    Passes .blank feeds ('/' :: '/' :: cs) := by
  rcases hRest with ⟨body, rest, rfl, hBody, rfl, _, hRest⟩
  exact .lineComment hBody hRest

theorem openBlock
    (hRest : Passes .blockComment feeds cs) :
    Passes .blank feeds ('/' :: '*' :: cs) := by
  rcases hRest with ⟨body, rest, rfl, hBody, hRest⟩
  exact .blockComment hBody hRest

theorem inLine
    (hNoFeed : c ≠ '\n')
    (hRest : Passes .lineComment feeds cs) :
    Passes .lineComment feeds (c :: cs) := by
  rcases hRest with ⟨body, rest, rfl, hBody, hFeeds, hRest⟩
  have hLonger : '\n' ∉ c :: body :=
    List.not_mem_cons_of_ne_of_not_mem hNoFeed.symm hBody
  exact ⟨c :: body, rest, rfl, hLonger, hFeeds, hRest⟩

theorem closeLine
    (hRest : Passes .blank feeds cs) :
    Passes .lineComment true ('\n' :: cs) :=
  ⟨[], cs, rfl, List.not_mem_nil, rfl, feeds, hRest⟩

theorem inBlock
    (hNext : ¬ (c = '*' ∧ cs.head? = some '/'))
    (hRest : Passes .blockComment feeds cs) :
    Passes .blockComment feeds (c :: cs) := by
  rcases hRest with ⟨body, rest, rfl, hBody, hRest⟩
  refine ⟨c :: body, rest, rfl, ?_, hRest⟩
  apply not_blockEnd_infix_cons hBody
  rintro ⟨hStar, hSlash⟩
  cases body with
  | nil => cases hSlash
  | cons d body => exact hNext ⟨hStar, hSlash⟩

theorem closeBlock
    (hRest : Passes .blank feeds cs) :
    Passes .blockComment feeds ('*' :: '/' :: cs) :=
  ⟨[], cs, rfl, by simp [blockEnd], hRest⟩

/- A block comment is not over before its end. -/
theorem ne_nil
    (hPasses : Passes .blockComment feeds cs) :
    cs ≠ [] := by
  rcases hPasses with ⟨body, rest, rfl, -, -⟩
  simp [blockEnd]

end Passes

/- What is left of a text at a place in its last gap. -/
def Finishes : Gap → List Char → Prop
  | .blank, cs => IsLastGap cs
  | .lineComment, cs =>
      '\n' ∉ cs ∨
        ∃ body rest, cs = body ++ '\n' :: rest ∧
          '\n' ∉ body ∧ IsLastGap rest
  | .blockComment, cs =>
      ¬ blockEnd <:+: cs ∨
        ∃ body rest, cs = body ++ blockEnd ++ rest ∧
          ¬ blockEnd <:+: body ∧ IsLastGap rest

namespace Finishes

theorem nil : (gap : Gap) → Finishes gap []
  | .blank => ⟨false, [], [], rfl, .nil, .nothing⟩
  | .lineComment => Or.inl List.not_mem_nil
  | .blockComment => Or.inl (by simp [blockEnd])

theorem blank
    (hBlank : Text.isBlank c = true)
    (hRest : Finishes .blank cs) :
    Finishes .blank (c :: cs) := by
  rcases hRest with ⟨feeds, front, back, rfl, hFront, hBack⟩
  exact ⟨_, c :: front, back, rfl, .blank hBlank hFront, hBack⟩

theorem openLine
    (hRest : Finishes .lineComment cs) :
    Finishes .blank ('/' :: '/' :: cs) := by
  rcases hRest with hOpen | ⟨body, rest, rfl, hBody, hRest⟩
  · exact ⟨false, [], _, rfl, .nil, .lineComment hOpen⟩
  · rcases hRest with ⟨_, front, back, rfl, hFront, hBack⟩
    exact
      ⟨true, ['/', '/'] ++ body ++ '\n' :: front, back,
        by simp, .lineComment hBody hFront, hBack⟩

theorem openBlock
    (hRest : Finishes .blockComment cs) :
    Finishes .blank ('/' :: '*' :: cs) := by
  rcases hRest with hOpen | ⟨body, rest, rfl, hBody, hRest⟩
  · exact ⟨false, [], _, rfl, .nil, .blockComment hOpen⟩
  · rcases hRest with ⟨feeds, front, back, rfl, hFront, hBack⟩
    exact
      ⟨feeds, ['/', '*'] ++ body ++ blockEnd ++ front, back,
        by simp, .blockComment hBody hFront, hBack⟩

theorem inLine
    (hNoFeed : c ≠ '\n')
    (hRest : Finishes .lineComment cs) :
    Finishes .lineComment (c :: cs) := by
  rcases hRest with hOpen | ⟨body, rest, rfl, hBody, hRest⟩
  · left
    exact List.not_mem_cons_of_ne_of_not_mem hNoFeed.symm hOpen
  · have hLonger : '\n' ∉ c :: body :=
      List.not_mem_cons_of_ne_of_not_mem hNoFeed.symm hBody
    exact Or.inr ⟨c :: body, rest, rfl, hLonger, hRest⟩

theorem closeLine
    (hRest : Finishes .blank cs) :
    Finishes .lineComment ('\n' :: cs) :=
  Or.inr ⟨[], cs, rfl, List.not_mem_nil, hRest⟩

theorem inBlock
    (hNext : ¬ (c = '*' ∧ cs.head? = some '/'))
    (hRest : Finishes .blockComment cs) :
    Finishes .blockComment (c :: cs) := by
  rcases hRest with hOpen | ⟨body, rest, rfl, hBody, hRest⟩
  · exact Or.inl (not_blockEnd_infix_cons hOpen hNext)
  · refine Or.inr ⟨c :: body, rest, rfl, ?_, hRest⟩
    apply not_blockEnd_infix_cons hBody
    rintro ⟨hStar, hSlash⟩
    cases body with
    | nil => cases hSlash
    | cons d body => exact hNext ⟨hStar, hSlash⟩

theorem closeBlock
    (hRest : Finishes .blank cs) :
    Finishes .blockComment ('*' :: '/' :: cs) :=
  Or.inr ⟨[], cs, rfl, by simp [blockEnd], hRest⟩

end Finishes

/- The characters of some letters. -/
abbrev chars (s : List Letter) : List Char :=
  s.map (·.char)

/- Where skipping stops, and what it passed until then. -/
structure StopsAt
    (passed : Bool)
    (gap : Gap)
    (s : List Letter)
    (out : Bool)
    (rest : List Letter) : Prop where
  opens : OpensToken (chars rest)
  passes :
    ∃ front feeds, s = front ++ rest ∧
      Passes gap feeds (chars front) ∧ out = (passed || feeds)

variable {s s' rest : List Letter}
variable {l l' : Letter}
variable {passed out : Bool}
variable {gap gap' : Gap}

/- A step of skipping passes one or two letters more. -/
theorem StopsAt.step
    {passed' : Bool}
    (hStops : StopsAt passed' gap' s out rest)
    (more : List Letter)
    (hSplit : s' = more ++ s)
    (hPasses :
      ∀ front feeds, s = front ++ rest →
        Passes gap' feeds (chars front) →
          ∃ feeds', Passes gap feeds' (chars (more ++ front)) ∧
            (passed' || feeds) = (passed || feeds')) :
    StopsAt passed gap s' out rest := by
  rcases hStops with ⟨hOpens, front, feeds, hEq, hFront, hOut⟩
  rcases hPasses front feeds hEq hFront with
    ⟨feeds', hLonger, hSame⟩
  refine ⟨hOpens, more ++ front, feeds', ?_, hLonger, ?_⟩
  · rw [hSplit, hEq, List.append_assoc]
  · rw [hOut, hSame]

/- Skipping stops in front of a token, and has passed a gap then. -/
theorem stopsAt_skipGap
    (passed : Bool)
    (gap : Gap)
    (s : List Letter)
    (hStop : (skipGap passed gap s).2 ≠ []) :
    StopsAt passed gap s (skipGap passed gap s).1
      (skipGap passed gap s).2 := by
  fun_induction skipGap passed gap s with
  | case1 | case4 | case7 | case8 => exact absurd rfl hStop
  | case2 passed l rest hFeed ih =>
      apply (ih hStop).step [l] rfl
      intro front feeds _ hPasses
      refine ⟨true, ?_, by simp⟩
      simpa [hFeed] using hPasses.closeLine
  | case3 passed l rest hNoFeed ih =>
      apply (ih hStop).step [l] rfl
      intro front feeds _ hPasses
      exact ⟨feeds, hPasses.inLine hNoFeed, rfl⟩
  | case5 passed l l' rest hEnd ih =>
      apply (ih hStop).step [l, l'] rfl
      intro front feeds _ hPasses
      refine ⟨feeds, ?_, rfl⟩
      simpa [hEnd] using hPasses.closeBlock
  | case6 passed l l' rest hNoEnd ih =>
      apply (ih hStop).step [l] rfl
      intro front feeds hEq hPasses
      refine ⟨feeds, hPasses.inBlock ?_, rfl⟩
      cases front with
      | nil => exact absurd rfl hPasses.ne_nil
      | cons first front =>
          rcases List.cons.inj hEq with ⟨rfl, -⟩
          rintro ⟨hStar, hSlash⟩
          exact hNoEnd ⟨hStar, Option.some.inj hSlash⟩
  | case9 passed l hNoFeed hNoBlank =>
      refine ⟨⟨by simpa using hNoBlank, by simp⟩, [], false, rfl,
        .nil, by simp⟩
  | case10 passed l l' rest hFeed ih =>
      apply (ih hStop).step [l] rfl
      intro front feeds _ hPasses
      refine ⟨true, ?_, by simp⟩
      simpa [hFeed] using hPasses.feed
  | case11 passed l l' rest hNoFeed hBlank ih =>
      apply (ih hStop).step [l] rfl
      intro front feeds _ hPasses
      exact ⟨feeds, hPasses.blank hBlank hNoFeed, rfl⟩
  | case12 passed l l' rest _ _ hSlashes ih =>
      apply (ih hStop).step [l, l'] rfl
      intro front feeds _ hPasses
      refine ⟨feeds, ?_, rfl⟩
      simpa [hSlashes] using hPasses.openLine
  | case13 passed l l' rest _ _ _ hOpening ih =>
      apply (ih hStop).step [l, l'] rfl
      intro front feeds _ hPasses
      refine ⟨feeds, ?_, rfl⟩
      simpa [hOpening] using hPasses.openBlock
  | case14 passed l l' rest _ hNoBlank hNoLine hNoBlock =>
      refine ⟨⟨by simpa using hNoBlank, fun hSlash => ?_⟩, [],
        false, rfl, .nil, by simp⟩
      constructor
      · exact fun hHead =>
          hNoLine ⟨hSlash, Option.some.inj hHead⟩
      · exact fun hHead =>
          hNoBlock ⟨hSlash, Option.some.inj hHead⟩

/- Where no token is left the rest of a text is its last gap. -/
theorem finishes_skipGap
    (passed : Bool)
    (gap : Gap)
    (s : List Letter)
    (hEnd : (skipGap passed gap s).2 = []) :
    Finishes gap (chars s) := by
  fun_induction skipGap passed gap s with
  | case1 passed gap => exact .nil gap
  | case2 passed l rest hFeed ih =>
      simpa [hFeed] using (ih hEnd).closeLine
  | case3 passed l rest hNoFeed ih =>
      exact (ih hEnd).inLine hNoFeed
  | case4 passed l =>
      exact (Finishes.nil .blockComment).inBlock (by simp)
  | case5 passed l l' rest hClose ih =>
      simpa [hClose] using (ih hEnd).closeBlock
  | case6 passed l l' rest hNoEnd ih =>
      apply (ih hEnd).inBlock
      rintro ⟨hStar, hSlash⟩
      exact hNoEnd ⟨hStar, Option.some.inj hSlash⟩
  | case7 passed l hFeed =>
      have hBlank : Text.isBlank l.char = true := by
        rw [hFeed]
        decide
      exact (Finishes.nil .blank).blank hBlank
  | case8 passed l _ hBlank =>
      exact (Finishes.nil .blank).blank hBlank
  | case9 | case14 => cases hEnd
  | case10 passed l l' rest hFeed ih =>
      have hBlank : Text.isBlank l.char = true := by
        rw [hFeed]
        decide
      exact (ih hEnd).blank hBlank
  | case11 passed l l' rest _ hBlank ih =>
      exact (ih hEnd).blank hBlank
  | case12 passed l l' rest _ _ hSlashes ih =>
      simpa [hSlashes] using (ih hEnd).openLine
  | case13 passed l l' rest _ _ _ hOpening ih =>
      simpa [hOpening] using (ih hEnd).openBlock

------------------------------------------------------------
-- Tokens Between Gaps
------------------------------------------------------------

/-
  A token that is made of some letters: it has their characters,
  starts on the line of the first one and ends on the line of
  the last one.
-/
structure IsMadeOf
    (t : Token)
    (piece : List Letter) : Prop where
  text_eq : t.text = String.ofList (chars piece)
  line_eq : ∃ l ∈ piece.head?, t.line = l.line
  endLine_eq : ∃ l ∈ piece.getLast?, t.endLine = l.line

/-
  Letters that consist of pieces, of which tokens are made in
  their order, and of gaps around them. A token opens a line if
  a line feed is in the gap in front of it, and the first one
  also if it is `fresh`.
-/
inductive Renders :
    (fresh : Bool) → List Letter → List Token → Prop where
  | done {fresh : Bool} {gap : List Letter}
      (hGap : IsLastGap (chars gap)) :
      Renders fresh gap []
  | token {fresh feeds : Bool} {gap piece rest : List Letter}
      {t : Token} {ts : List Token}
      (hGap : IsGap feeds (chars gap))
      (hOpens : OpensToken (chars (piece ++ rest)))
      (hPiece : piece ≠ [])
      (hMade : IsMadeOf t piece)
      (hStarts : t.startsLine = (fresh || feeds))
      (hRest : Renders false rest ts) :
      Renders fresh (gap ++ piece ++ rest) (t :: ts)

/- A token is made of its first letter and its tail. -/
theorem isMadeOf_toToken
    (l : Letter)
    (startsLine : Bool)
    (t : Scanned) :
    IsMadeOf (toToken l startsLine t) (l :: t.tail) where
  text_eq := rfl
  line_eq := ⟨l, rfl, rfl⟩
  endLine_eq := by
    refine ⟨(t.tail.getLast?).getD l, ?_, rfl⟩
    rw [List.getLast?_cons]
    rfl

/-
  The letters of a text are those of its tokens and the gaps
  around them, by induction on the number of letters.
-/
theorem renders_tokens
    (fresh : Bool)
    (s : List Letter) :
    Renders fresh s (tokens fresh s) := by
  fun_induction tokens fresh s with
  | case1 fresh s startsLine hGap =>
      have hEnd : (skipGap fresh .blank s).2 = [] := by
        rw [hGap]
      exact .done (finishes_skipGap fresh .blank s hEnd)
  | case2 fresh s startsLine l rest hGap t ih =>
      have hStops :=
        stopsAt_skipGap fresh .blank s (by rw [hGap]; simp)
      rw [hGap] at hStops
      rcases hStops with
        ⟨hOpens, front, feeds, rfl, hFront, hStarts⟩
      have hSplit : l :: rest = (l :: t.tail) ++ t.rest :=
        congrArg (l :: ·) (scan_append l.char rest).symm
      dsimp only at hOpens ⊢
      rw [hSplit] at hOpens ⊢
      rw [← List.append_assoc]
      exact
        .token hFront hOpens (List.cons_ne_nil l _)
          (isMadeOf_toToken l startsLine t) hStarts ih

end Lexer

end Variability
