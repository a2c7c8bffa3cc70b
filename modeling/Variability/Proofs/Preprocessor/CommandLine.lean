import Variability.Preamble
import Variability.Proofs.Preprocessor.Coupling
import Variability.Proofs.Token.Lexer

/-
  The flags of a file as lines that are read.

  Each definition is one line and asks to define its name,
  whatever its value. A definition of a macro that stays open is
  a line without effect, so it can as well be left out.

  Main declarations:
    * `Inclusion.IsPlainValue`
    * `Inclusion.definingLine`
    * `Inclusion.logicalLines_defining`
    * `Preprocessor.readLines_defining`
-/

namespace Variability

/- A mark at the start of a line makes the next token its word. -/
theorem Directive.ofLine_mark
    {t u : Token}
    {word : String}
    (hMark : t.is "#" = true)
    (hWord : u.text = word)
    (arguments : List Token) :
    ofLine (t :: u :: arguments) =
      some (ofWord word arguments) := by
  rw [ofLine, if_pos hMark, hWord]

namespace Inclusion

open Lexer

------------------------------------------------------------
-- Definitions
------------------------------------------------------------

/- A value that ends no line, escapes nothing and starts no comment. -/
structure IsPlainValue (value : String) : Prop where
  chars :
    ∀ c ∈ value.toList, c ≠ '\n' ∧ c ≠ '\r' ∧ c ≠ '\\'
  noLineComment : ¬ ['/', '/'] <:+: value.toList
  noBlockComment : ¬ ['/', '*'] <:+: value.toList

/- The characters of a definition before its line feed. -/
def definingText (name value : String) : List Char :=
  '#' :: "define".toList ++
    ' ' :: (name.toList ++ ' ' :: value.toList)

/- The tokens of a definition, wherever it stands. -/
def definingLine (name value : String) : List Token :=
  tokens true (lettersOn 0 (definingText name value))

theorem toList_defineLine (name value : String) :
    (defineLine name value).toList =
      definingText name value ++ ['\n'] := by
  simp only [defineLine, definingText, String.toList_append,
    List.append_assoc, List.cons_append]
  rfl

variable {name value : String}

theorem definingText_chars
    (hName : isIdentifier name = true)
    (hValue : IsPlainValue value) :
    ∀ c ∈ definingText name value,
      c ≠ '\n' ∧ c ≠ '\r' ∧ c ≠ '\\' := by
  have hContinues {c : Char}
      (hc : continuesIdentifier c = true) :
      c ≠ '\n' ∧ c ≠ '\r' ∧ c ≠ '\\' := by
    refine ⟨?_, ?_, ?_⟩ <;> rintro rfl <;> cases hc
  have hWord :
      ∀ c ∈ '#' :: "define".toList,
        c ≠ '\n' ∧ c ≠ '\r' ∧ c ≠ '\\' := by
    simp
  have hBlank : ' ' ≠ '\n' ∧ ' ' ≠ '\r' ∧ ' ' ≠ '\\' := by
    decide
  intro c hMem
  simp only [definingText, List.mem_append, List.mem_cons]
    at hMem
  rcases hMem with hMem | rfl | hMem | rfl | hMem
  · exact hWord c (List.mem_cons.mpr hMem)
  · exact hBlank
  · exact hContinues (continues_of_isIdentifier hName c hMem)
  · exact hBlank
  · exact hValue.chars c hMem

/- No comment starts in front of a text without slashes. -/
theorem isChain_append
    {cs ds : List Char}
    (hNone : ∀ c ∈ cs, c ≠ '/')
    (hGaps :
      ds.IsChain fun c d => c = '/' → d ≠ '/' ∧ d ≠ '*') :
    (cs ++ ds).IsChain
      fun c d => c = '/' → d ≠ '/' ∧ d ≠ '*' := by
  induction cs with
  | nil => exact hGaps
  | cons c cs ih =>
      have hRest :=
        ih fun d hd => hNone d (List.mem_cons_of_mem c hd)
      exact
        hRest.cons fun _ _ hSlash =>
          absurd hSlash (hNone c List.mem_cons_self)

theorem IsPlainValue.isChain (hValue : IsPlainValue value) :
    value.toList.IsChain
      fun c d => c = '/' → d ≠ '/' ∧ d ≠ '*' := by
  apply (List.isChain_isInfix value.toList).imp
  rintro _ d hInfix rfl
  constructor
  · rintro rfl
    exact hValue.noLineComment hInfix
  · rintro rfl
    exact hValue.noBlockComment hInfix

/- No token of a definition goes on behind its line feed. -/
theorem isPlain_definingText
    (hName : isIdentifier name = true)
    (hValue : IsPlainValue value)
    (line : Nat) :
    IsPlain (lettersOn line (definingText name value)) := by
  have hChars := definingText_chars hName hValue
  have hNone :
      ∀ c ∈ '#' :: "define".toList ++ ' ' :: name.toList ++
        [' '], c ≠ '/' := by
    intro c hMem
    simp only [List.mem_append, List.mem_cons] at hMem
    rintro rfl
    rcases hMem with ((hMem | hMem) | hMem | hMem) | hMem | hMem
    · cases hMem
    · revert hMem
      decide
    · cases hMem
    · cases continues_of_isIdentifier hName _ hMem
    · cases hMem
    · cases hMem
  apply isPlain_lettersOn
    fun c hMem => ⟨(hChars c hMem).1, (hChars c hMem).2.2⟩
  have hGaps := isChain_append hNone hValue.isChain
  simpa [definingText] using hGaps

/- A definition defines its name. -/
theorem ofLine_definingLine
    (hName : isIdentifier name = true)
    (value : String) :
    ∃ t rest,
      Directive.ofLine (definingLine name value) =
        some (.define (t :: rest)) ∧ t.text = name := by
  rcases exists_of_isIdentifier hName with
    ⟨c, cs, hChars, hOpens, hWord⟩
  have hLetters :
      ∀ l ∈ lettersOn 0 cs,
        continuesIdentifier l.char = true := by
    intro l hMem
    rcases List.mem_map.mp hMem with ⟨d, hd, rfl⟩
    exact hWord d hd
  have hNameToken :
      tokens false
          (⟨c, 0⟩ :: lettersOn 0 cs ++
            ⟨' ', 0⟩ :: lettersOn 0 value.toList) = _ :=
    tokens_word hOpens hLetters rfl false _
  have hSplit :
      lettersOn 0 (definingText name value) =
        lettersOn 0 ('#' :: "define".toList) ++
          ⟨' ', 0⟩ :: (⟨c, 0⟩ :: lettersOn 0 cs ++
            ⟨' ', 0⟩ :: lettersOn 0 value.toList) := by
    unfold definingText
    rw [hChars]
    simp [lettersOn]
  rcases tokens_directive 'd' "efine".toList rfl
      (List.all_eq_true.mp rfl) 0
      (⟨c, 0⟩ :: lettersOn 0 cs ++
        ⟨' ', 0⟩ :: lettersOn 0 value.toList) with
    ⟨t, u, hTokens, hMark, hText, -⟩
  have hLine :=
    ((congrArg (tokens true) hSplit).trans hTokens).trans
      (congrArg (t :: u :: ·) hNameToken)
  refine
    ⟨_, _,
      (congrArg Directive.ofLine hLine).trans
        (Directive.ofLine_mark hMark hText _),
      ?_⟩
  simp [toToken, lettersOn, Function.comp_def, ← hChars]

/- The tokens of a definition say nothing about where they stand. -/
theorem bare_definingLine
    (line : Nat)
    (name value : String) :
    (tokens true (lettersOn line (definingText name value))).map
        Token.bare =
      definingLine name value := by
  rw [← tokens_bare, lettersOn_bare]
  rfl

/- The logical lines of a text, wherever it stands. -/
def bareLines (text : List Char) : List (List Token) :=
  (Token.logicalLines (tokens true (splice 1 text))).map
    (·.map Token.bare)

theorem bareLines_eq
    (line : Nat)
    (text : List Char) :
    (Token.logicalLines (tokens true (splice line text))).map
        (·.map Token.bare) =
      bareLines text := by
  unfold bareLines
  rw [← Token.logicalLines_bare, ← Token.logicalLines_bare,
    ← tokens_bare, ← tokens_bare, splice_bare line 1]

/-
  Definitions are lines of their own in front of a text, by
  induction on the definitions.
-/
theorem logicalLines_defining
    {defines : List (String × String)}
    (hDefines :
      ∀ e ∈ defines,
        isIdentifier e.1 = true ∧ IsPlainValue e.2)
    (line : Nat)
    (rest : List Char) :
    (Token.logicalLines
        (tokens true
          (splice line
            (defines.flatMap
                (fun e => (defineLine e.1 e.2).toList) ++
              rest)))).map (·.map Token.bare) =
      defines.map (fun e => definingLine e.1 e.2) ++
        bareLines rest := by
  induction defines generalizing line with
  | nil => exact bareLines_eq line rest
  | cons e es ih =>
      rcases e with ⟨name, value⟩
      rcases hDefines _ List.mem_cons_self with ⟨hName, hValue⟩
      have hRest :=
        ih (fun d hd => hDefines d (List.mem_cons_of_mem _ hd))
          (line + 1)
      have hSome :
          tokens true
            (lettersOn line (definingText name value)) ≠ [] := by
        intro hNone
        rcases ofLine_definingLine hName value with ⟨t, ts, h, -⟩
        rw [← bare_definingLine line, hNone] at h
        cases h
      rw [List.flatMap_cons, toList_defineLine,
        List.append_assoc, List.append_assoc,
        List.singleton_append,
        splice_append _ (definingText_chars hName hValue),
        splice_newline,
        logicalLines_line
          (isPlain_definingText hName hValue line) rfl hSome,
        List.map_cons, hRest, bare_definingLine]
      rfl

------------------------------------------------------------
-- Forced Includes
------------------------------------------------------------

theorem toList_includeLine (p : Path) :
    (includeLine p).toList =
      '#' :: "include".toList ++
        ' ' :: '"' :: (p.text.toList ++ "\"\n".toList) := by
  simp only [includeLine, String.toList_append,
    List.append_assoc]
  rfl

/- Forced includes start with a line that includes. -/
theorem ofLine_forced
    (forced : List Path)
    {line : List Token}
    (hFirst :
      line ∈
        (bareLines
          (String.join (forced.map includeLine)).toList).head?) :
    ∃ arguments,
      Directive.ofLine line = some (.inclusion arguments) := by
  rw [String.toList_join] at hFirst
  cases forced with
  | nil =>
      simp [bareLines, splice, tokens_eq, skipGap,
        Token.logicalLines] at hFirst
  | cons p ps =>
      have hText :
          ((p :: ps).map includeLine).flatMap String.toList =
            '#' :: "include".toList ++
              ' ' :: ('"' :: (p.text.toList ++
                "\"\n".toList) ++
                  (ps.map includeLine).flatMap
                    String.toList) := by
        rw [List.map_cons, List.flatMap_cons,
          toList_includeLine, List.append_assoc]
        rfl
      rw [hText] at hFirst
      generalize
        '"' :: (p.text.toList ++ "\"\n".toList) ++
          (ps.map includeLine).flatMap String.toList = rest
        at hFirst
      have hBlank :
          splice 1 (' ' :: rest) = ⟨' ', 1⟩ :: splice 1 rest :=
        splice_append [' '] (by simp) 1 rest
      rcases tokens_directive 'i' "nclude".toList rfl
          (List.all_eq_true.mp rfl) 1 (splice 1 rest) with
        ⟨t, u, hTokens, hMark, hWord, hStarts⟩
      unfold bareLines at hFirst
      rw [splice_append ('#' :: "include".toList) (by simp),
        hBlank, List.head?_map] at hFirst
      rcases Option.map_eq_some_iff.mp hFirst with
        ⟨group, hGroup, rfl⟩
      have hLine :=
        (congrArg (List.head? ∘ Token.logicalLines)
          hTokens).symm.trans hGroup
      simp only [Function.comp_apply, Token.logicalLines_cons,
        List.takeWhile_cons, hStarts] at hLine
      cases hLine
      exact ⟨_, Directive.ofLine_mark hMark hWord _⟩

end Inclusion

namespace Preprocessor

open Inclusion

variable {x : Context}

------------------------------------------------------------
-- Reading Definitions
------------------------------------------------------------

/- Lines and what is left of them without positions. -/
theorem forall₂_alike_map_bare (lines : List (List Token)) :
    List.Forall₂ Token.Alike lines
      (lines.map (·.map Token.bare)) := by
  apply List.forall₂_map_right_iff.mpr
  apply List.forall₂_same.mpr
  intro line _
  simp [Token.Alike, Function.comp_def]

/- Only an opening asks whether it is on the first line. -/
theorem followLine_first
    {line : List Token}
    (hOther :
      ∀ word arguments,
        Directive.ofLine line ≠ some (.opening word arguments))
    (first : Bool)
    (stack : List Frame) :
    followLine x first stack line =
      followLine x false stack line := by
  unfold followLine
  cases hLine : Directive.ofLine line with
  | none => rfl
  | some d =>
      cases d with
      | opening word arguments => exact absurd hLine (hOther _ _)
      | _ => cases stack <;> rfl

/- Lines behind a first one that opens nothing. -/
theorem readLines_first
    {lines : List (List Token)}
    (hOther :
      ∀ line ∈ lines.head?, ∀ word arguments,
        Directive.ofLine line ≠ some (.opening word arguments))
    (first : Bool)
    (stack : List Frame) :
    readLines x first stack lines =
      readLines x false stack lines := by
  cases lines with
  | nil => rfl
  | cons line rest =>
      rw [readLines_cons, readLines_cons,
        followLine_first (hOther line rfl)]

/- A definition on a line of its own changes macros only. -/
theorem followLine_define
    {line arguments : List Token}
    (hLine :
      Directive.ofLine line = some (.define arguments))
    (first : Bool) :
    followLine x first [] line = do
      if x.base ≠ .zero then
        define x.settings arguments x.base
      return [] := by
  unfold followLine
  rw [hLine]
  rfl

/- A definition is one of its first token. -/
theorem Macro.parse_name
    {t : Token}
    {rest : List Token}
    {name : String}
    {m : Macro}
    (hParse : Macro.parse (t :: rest) = some (name, m)) :
    name = t.text := by
  cases rest with
  | nil => grind [Macro.parse]
  | cons u rest =>
      rw [Macro.parse] at hParse
      split at hParse
      · rcases Option.map_eq_some_iff.mp hParse with
          ⟨_, _, hMacro⟩
        exact (Prod.mk.inj hMacro).1.symm
      · exact (Prod.mk.inj (Option.some.inj hParse)).1.symm

/- Definitions of macros that stay open are skipped. -/
theorem define_free
    {s : Settings}
    {t : Token}
    (hFree : s.isFree t.text = true)
    (rest : List Token)
    (c : Condition) :
    define s (t :: rest) c = pure () := by
  unfold define
  cases hParse : Macro.parse (t :: rest) with
  | none => rfl
  | some parsed =>
      rcases parsed with ⟨name, m⟩
      rw [Macro.parse_name hParse]
      exact if_pos hFree

variable {name : String}

/- The definition of a macro that stays open has no effect. -/
theorem followLine_free
    (hName : Lexer.isIdentifier name = true)
    (hFree : x.settings.isFree name = true)
    (value : String)
    (first : Bool) :
    followLine x first [] (definingLine name value) =
      pure [] := by
  rcases ofLine_definingLine hName value with
    ⟨t, rest, hLine, rfl⟩
  rw [followLine_define hLine, define_free hFree]
  split <;> rfl

/- A definition leaves no group open. -/
theorem followLine_definingLine
    (hName : Lexer.isIdentifier name = true)
    (value : String)
    (first : Bool)
    (st : State) :
    (followLine x first [] (definingLine name value) st).1 =
      [] := by
  rcases ofLine_definingLine hName value with
    ⟨t, rest, hLine, -⟩
  rw [followLine_define hLine]
  split <;> rfl

/- What a line leaves is what the lines behind it start from. -/
theorem snd_readLines_cons
    (first : Bool)
    (stack : List Frame)
    (line : List Token)
    (rest : List (List Token))
    (st : State) :
    (readLines x first stack (line :: rest) st).2 =
      (readLines x false
        (followLine x first stack line st).1 rest
        (followLine x first stack line st).2).2 := by
  rw [readLines_cons]
  rfl

/-
  The definitions of macros that stay open can be left out, by
  induction on the definitions. What is behind them opens no
  group on its first line, so that it does not matter whether
  some definition is left.
-/
theorem readLines_defining
    {defines : List (String × String)}
    (hNames : ∀ e ∈ defines, Lexer.isIdentifier e.1 = true)
    {rest : List (List Token)}
    (hOther :
      ∀ line ∈ rest.head?, ∀ word arguments,
        Directive.ofLine line ≠ some (.opening word arguments))
    (first first' : Bool)
    (st : State) :
    (readLines x first []
        (defines.map (fun e => definingLine e.1 e.2) ++ rest)
        st).2 =
      (readLines x first' []
        ((defines.filter (!x.settings.isFree ·.1)).map
            (fun e => definingLine e.1 e.2) ++ rest) st).2 := by
  induction defines generalizing first first' st with
  | nil =>
      exact
        congrArg Prod.snd
          (congrFun
            ((readLines_first hOther first []).trans
              (readLines_first hOther first' []).symm) st)
  | cons e es ih =>
      rcases e with ⟨name, value⟩
      have hName := hNames _ List.mem_cons_self
      have hRest first first' st :=
        ih (fun e he => hNames e (List.mem_cons_of_mem _ he))
          first first' st
      rw [List.map_cons, List.cons_append, snd_readLines_cons]
      cases hFree : x.settings.isFree name with
      | true =>
          rw [followLine_free hName hFree,
            List.filter_cons_of_neg (by simp [hFree])]
          exact hRest false first' st
      | false =>
          rcases ofLine_definingLine hName value with
            ⟨t, ts, hLine, -⟩
          have hSame :=
            followLine_define (x := x) hLine first
          rw [← followLine_define (x := x) hLine first'] at hSame
          simp only [List.filter_cons, hFree, Bool.not_false,
            if_true, List.map_cons, List.cons_append]
          rw [snd_readLines_cons, hSame,
            followLine_definingLine hName]
          exact hRest _ _ _

end Preprocessor

end Variability
