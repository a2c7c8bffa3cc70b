import Variability.Proofs.Token.Lossless

/-
  Tokens and logical lines in the order of physical lines.

  No token starts on an earlier line than the one before it ends
  on, and one that opens a logical line starts on a later line.
  So no two logical lines share a physical line.

  Main declarations:
    * `Token.Precedes`
    * `Token.pairwise_tokenize`
    * `Token.pairwise_logicalLines`
-/

namespace Variability

/- A token ends before one, on an earlier line if that opens a line. -/
def Token.Precedes (t u : Token) : Prop :=
  t.endLine ≤ u.line ∧
    (u.startsLine = true → t.endLine < u.line)

namespace Lexer

------------------------------------------------------------
-- Tokens of Ordered Letters
------------------------------------------------------------

variable {fresh feeds : Bool}
variable {cs : List Char}
variable {s piece : List Letter}
variable {t : Token}
variable {ts : List Token}

theorem IsGap.feed_mem
    (hGap : IsGap feeds cs)
    (hFeeds : feeds = true) :
    '\n' ∈ cs := by
  induction hGap with
  | nil => cases hFeeds
  | blank hBlank hRest ih =>
      rw [Bool.or_eq_true, beq_iff_eq] at hFeeds
      rcases hFeeds with rfl | hFeeds
      · exact List.mem_cons_self
      · exact List.mem_cons_of_mem _ (ih hFeeds)
  | lineComment hBody hRest ih => simp
  | blockComment hBody hRest ih =>
      exact List.mem_append_right _ (ih hFeeds)

/- A token does not end before it starts. -/
theorem IsMadeOf.line_le
    (hMade : IsMadeOf t piece)
    (hLetters : piece.Pairwise Letter.Precedes) :
    t.line ≤ t.endLine := by
  rcases hMade.line_eq with ⟨l, hFirst, hLine⟩
  rcases hMade.endLine_eq with ⟨k, hLast, hEnd⟩
  rw [hLine, hEnd]
  cases piece with
  | nil => cases hFirst
  | cons l' piece =>
      cases hFirst
      rcases List.mem_cons.mp (List.mem_of_getLast? hLast) with
        rfl | hMem
      · exact Nat.le_refl _
      · exact (List.rel_of_pairwise_cons hLetters hMem).1

/-
  Every token starts on the line of a letter; if it opens a line
  and is not the first one then a letter on an earlier line, the
  line feed, is in front of it.
-/
theorem Renders.exists_letter
    (hRenders : Renders fresh s ts)
    (hLetters : s.Pairwise Letter.Precedes)
    (hMem : t ∈ ts) :
    ∃ l ∈ s, t.line = l.line ∧
      (t.startsLine = true →
        fresh = true ∨ ∃ feed ∈ s, feed.line < l.line) := by
  induction hRenders with
  | done hGap => cases hMem
  | @token fresh feeds gap piece rest t' ts hGap hOpens hPiece
      hMade hStarts hRest ih =>
      rcases List.mem_cons.mp hMem with rfl | hMem
      · rcases hMade.line_eq with ⟨l, hFirst, hLine⟩
        have hl : l ∈ piece := List.mem_of_mem_head? hFirst
        refine ⟨l, by simp [hl], hLine, fun hOpensLine => ?_⟩
        rw [hStarts, Bool.or_eq_true] at hOpensLine
        refine hOpensLine.imp_right fun hFeeds => ?_
        rcases List.mem_map.mp (hGap.feed_mem hFeeds) with
          ⟨feed, hFeed, hChar⟩
        rw [List.append_assoc] at hLetters
        have hBefore : feed.Precedes l :=
          (List.pairwise_append.mp hLetters).2.2 feed hFeed l
            (List.mem_append_left _ hl)
        exact ⟨feed, by simp [hFeed], hBefore.2 hChar⟩
      · have hLater := (List.pairwise_append.mp hLetters).2.1
        rcases ih hLater hMem with ⟨l, hl, hLine, hFeed⟩
        refine ⟨l, by simp [hl], hLine, fun hOpensLine => ?_⟩
        rcases hFeed hOpensLine with hFresh |
          ⟨feed, hFeedMem, hFeedLine⟩
        · cases hFresh
        · exact Or.inr ⟨feed, by simp [hFeedMem], hFeedLine⟩

/- The tokens of ordered letters are ordered, by induction on these. -/
theorem Renders.pairwise
    (hRenders : Renders fresh s ts)
    (hLetters : s.Pairwise Letter.Precedes) :
    ts.Pairwise Token.Precedes ∧
      ∀ t ∈ ts, t.line ≤ t.endLine := by
  induction hRenders with
  | done hGap => exact ⟨.nil, by simp⟩
  | @token fresh feeds gap piece rest t ts hGap hOpens hPiece
      hMade hStarts hRest ih =>
      have hSplit := List.pairwise_append.mp hLetters
      have hLater := ih hSplit.2.1
      have hHere :=
        hMade.line_le (List.pairwise_append.mp hSplit.1).2.1
      rcases hMade.endLine_eq with ⟨k, hLast, hEnd⟩
      have hk : k ∈ gap ++ piece :=
        List.mem_append_right gap (List.mem_of_getLast? hLast)
      refine
        ⟨.cons (fun u hMem => ?_) hLater.1,
          List.forall_mem_cons.mpr ⟨hHere, hLater.2⟩⟩
      rcases hRest.exists_letter hSplit.2.1 hMem with
        ⟨l, hl, hLine, hFeed⟩
      rw [Token.Precedes, hEnd, hLine]
      refine ⟨(hSplit.2.2 k hk l hl).1, fun hOpensLine => ?_⟩
      rcases hFeed hOpensLine with hFresh |
        ⟨feed, hFeedMem, hFeedLine⟩
      · cases hFresh
      · exact
          Nat.lt_of_le_of_lt (hSplit.2.2 k hk feed hFeedMem).1
            hFeedLine

end Lexer

namespace Token

variable {ts : List Token}

------------------------------------------------------------
-- Texts
------------------------------------------------------------

theorem pairwise_tokenize (text : String) :
    (tokenize text).Pairwise Precedes :=
  ((Lexer.renders_tokens true _).pairwise
    (Lexer.pairwise_splice 1 _)).1

theorem line_le_of_mem_tokenize
    (text : String) :
    ∀ t ∈ tokenize text, t.line ≤ t.endLine :=
  ((Lexer.renders_tokens true _).pairwise
    (Lexer.pairwise_splice 1 _)).2

/- Lines are counted from one. -/
theorem one_le_of_mem_tokenize
    (text : String) :
    ∀ t ∈ tokenize text, 1 ≤ t.line := by
  intro t hMem
  rcases (Lexer.renders_tokens true _).exists_letter
      (Lexer.pairwise_splice 1 _) hMem with ⟨l, hl, hLine, -⟩
  rw [hLine]
  exact Lexer.le_line_of_mem_splice 1 _ l hl

------------------------------------------------------------
-- Logical Lines
------------------------------------------------------------

/- The last physical line of some tokens, zero if there is none. -/
def lastLine (ts : List Token) : Nat :=
  (ts.getLast?.map (·.endLine)).getD 0

variable {line : List Token}

/- No token ends behind the last line. -/
theorem endLine_le_lastLine
    (hOrder : ts.Pairwise Precedes)
    (hForward : ∀ t ∈ ts, t.line ≤ t.endLine) :
    ∀ t ∈ ts, t.endLine ≤ lastLine ts := by
  intro t hMem
  rcases List.eq_nil_or_concat' ts with rfl | ⟨front, u, rfl⟩
  · cases hMem
  · have hLast : lastLine (front ++ [u]) = u.endLine := by
      simp [lastLine]
    rw [hLast]
    rcases List.mem_append.mp hMem with hMem | hMem
    · have hBefore :=
        (List.pairwise_append.mp hOrder).2.2 t hMem u
          List.mem_cons_self
      exact hBefore.1.trans (hForward u (by simp))
    · rw [List.mem_singleton.mp hMem]

/- Some token ends on the last line. -/
theorem exists_endLine_eq_lastLine
    (hSome : ts ≠ []) :
    ∃ t ∈ ts, t.endLine = lastLine ts := by
  refine ⟨ts.getLast hSome, List.getLast_mem hSome, ?_⟩
  rw [lastLine, List.getLast?_eq_some_getLast hSome]
  rfl

/- The logical lines are parts of the tokens. -/
theorem sublist_of_mem_logicalLines
    (hLine : line ∈ logicalLines ts) :
    line.Sublist ts := by
  have hAll :=
    List.flatten_splitBy
      (fun _ next : Token => !next.startsLine) ts
  exact hAll ▸ List.sublist_flatten_of_mem hLine

/- Every token is on a logical line. -/
theorem exists_mem_logicalLines
    {t : Token}
    (hMem : t ∈ ts) :
    ∃ line ∈ logicalLines ts, t ∈ line := by
  have hAll :=
    List.flatten_splitBy
      (fun _ next : Token => !next.startsLine) ts
  rw [← hAll] at hMem
  exact List.mem_flatten.mp hMem

/- No logical line is empty. -/
theorem ne_nil_of_mem_logicalLines
    (hLine : line ∈ logicalLines ts) :
    line ≠ [] :=
  List.ne_nil_of_mem_splitBy hLine

/- The last line is the one that the last logical line ends on. -/
theorem le_lastLine_iff
    (hOrder : ts.Pairwise Precedes)
    (hForward : ∀ t ∈ ts, t.line ≤ t.endLine)
    {l : Nat}
    (hPositive : 1 ≤ l) :
    l ≤ lastLine ts ↔
      ∃ line ∈ logicalLines ts, l ≤ lastLine line := by
  constructor
  · intro hLe
    have hSome : ts ≠ [] := by
      rintro rfl
      simp [lastLine] at hLe
      omega
    rcases exists_endLine_eq_lastLine hSome with
      ⟨t, hMem, hEnd⟩
    rcases exists_mem_logicalLines hMem with ⟨line, hLine, ht⟩
    have hPart := sublist_of_mem_logicalLines hLine
    have hLast :=
      endLine_le_lastLine (hOrder.sublist hPart)
        (fun u hu => hForward u (hPart.mem hu)) t ht
    exact ⟨line, hLine, by omega⟩
  · rintro ⟨line, hLine, hLe⟩
    rcases exists_endLine_eq_lastLine
        (ne_nil_of_mem_logicalLines hLine) with
      ⟨t, ht, hEnd⟩
    have hLast :=
      endLine_le_lastLine hOrder hForward t
        ((sublist_of_mem_logicalLines hLine).mem ht)
    omega

/- What stands behind the end of a logical line is on later lines. -/
theorem endLine_lt_of_startsLine
    {front back : List Token}
    (hOrder : (front ++ back).Pairwise Precedes)
    (hForward : ∀ t ∈ back, t.line ≤ t.endLine)
    (hStarts : ∀ h ∈ back.head?, h.startsLine = true) :
    ∀ t ∈ front, ∀ u ∈ back, t.endLine < u.line := by
  intro t ht u hu
  rcases List.pairwise_append.mp hOrder with ⟨-, hBack, hAcross⟩
  cases back with
  | nil => cases hu
  | cons h back =>
      have hFirst :=
        (hAcross t ht h List.mem_cons_self).2 (hStarts h rfl)
      rcases List.mem_cons.mp hu with rfl | hu
      · exact hFirst
      · have hHere := hForward h List.mem_cons_self
        have hNext := (List.rel_of_pairwise_cons hBack hu).1
        omega

/- No two logical lines share a physical line. -/
theorem pairwise_logicalLines
    (hOrder : ts.Pairwise Precedes)
    (hForward : ∀ t ∈ ts, t.line ≤ t.endLine) :
    (logicalLines ts).Pairwise fun line line' =>
      ∀ t ∈ line, ∀ u ∈ line', t.endLine < u.line := by
  induction hLength : ts.length using Nat.strong_induction_on
    generalizing ts with
  | _ n ih =>
      cases ts with
      | nil => exact .nil
      | cons t ts =>
          have hSplit :
              t :: ts =
                (t :: ts.takeWhile (!·.startsLine)) ++
                  ts.dropWhile (!·.startsLine) := by
            rw [List.cons_append,
              List.takeWhile_append_dropWhile]
          have hSuffix :=
            List.dropWhile_suffix (!·.startsLine) (l := ts)
          have hLe := hSuffix.length_le
          have hLater :
              ∀ u ∈ ts.dropWhile (!·.startsLine),
                u.line ≤ u.endLine := fun u hu =>
            hForward u (List.mem_cons_of_mem t (hSuffix.mem hu))
          have hStarts :
              ∀ h ∈ (ts.dropWhile (!·.startsLine)).head?,
                h.startsLine = true := by
            intro h hHead
            have hStop :=
              List.head?_dropWhile_not (!·.startsLine) ts
            rw [Option.mem_def.mp hHead] at hStop
            simpa using hStop
          have hRest :=
            (List.pairwise_cons.mp hOrder).2.sublist
              hSuffix.sublist
          rw [hSplit] at hOrder
          rw [logicalLines_cons]
          refine
            .cons (fun line hLine u hu u' hu' => ?_)
              (ih _ (by rw [← hLength, List.length_cons]; omega)
                hRest hLater rfl)
          exact
            endLine_lt_of_startsLine hOrder hLater hStarts u hu u'
              ((sublist_of_mem_logicalLines hLine).mem hu')

end Token

end Variability
