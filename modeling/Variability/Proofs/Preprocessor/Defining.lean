import Variability.Proofs.Preprocessor.CommandLine
import Variability.Proofs.Preprocessor.Lifting

/-
  What a definition defines.

  A definition is object-like or function-like, as the language
  has it; its tokens do not tell whether a blank stands behind
  the name. The reader takes a parenthesis there for the start
  of a parameter list, so it finds no macro in an object-like
  definition whose body opens with a parenthesis that nothing
  closes. Every other definition defines its macro wherever its
  line is reached.

  Main declarations:
    * `Macro.IsObjectLike`, `Macro.IsFunctionLike`
    * `Macro.IsUnclosed`
    * `Preprocessor.State.Implies`
    * `Preprocessor.followLine_defines`
    * `Preprocessor.not_implies_openParenthesis`
-/

namespace Variability

------------------------------------------------------------
-- Definitions of the Language
------------------------------------------------------------

namespace Macro

/- Names with commas between them. -/
inductive IsNameList : List Token → List String → Prop where
  | one {t : Token}
      (hName : t.kind = .identifier) :
      IsNameList [t] [t.text]
  | more {t comma : Token} {ts : List Token}
      {names : List String}
      (hName : t.kind = .identifier)
      (hComma : comma.is "," = true)
      (hRest : IsNameList ts names) :
      IsNameList (t :: comma :: ts) (t.text :: names)

/-
  What stands between the parentheses of a parameter list: names,
  an ellipsis, or names and an ellipsis.
-/
inductive IsParameterList :
    List Token →
    (names : List String) →
    (variadic : Bool) →
    Prop where
  | none : IsParameterList [] [] false
  | names {ts : List Token} {names : List String}
      (hNames : IsNameList ts names) :
      IsParameterList ts names false
  | dots {dots : Token}
      (hDots : dots.is "..." = true) :
      IsParameterList [dots] [] true
  | namesDots {ts : List Token} {names : List String}
      {comma dots : Token}
      (hNames : IsNameList ts names)
      (hComma : comma.is "," = true)
      (hDots : dots.is "..." = true) :
      IsParameterList (ts ++ [comma, dots]) names true

/- Tokens are not pasted to what stands around a body. -/
def PastesInside (body : List Token) : Prop :=
  (∀ t ∈ body.head?, t.is "##" = false) ∧
    ∀ t ∈ body.getLast?, t.is "##" = false

/- Only arguments are quoted. -/
def QuotesParameters
    (parameters : List String)
    (body : List Token) : Prop :=
  ∀ before t after, body = before ++ t :: after →
    t.is "#" = true →
    ∃ u ∈ after.head?, u.kind = .identifier ∧
      u.text ∈ parameters

/-
  The tokens behind the name of an object-like macro in a
  definition. The blank in front of them is no token.
-/
structure IsObjectLike (body : List Token) : Prop where
  pastes : PastesInside body
  further : ∀ t ∈ body, t.is furtherArguments = false

/-
  The tokens behind the name of a function-like macro in a
  definition. The parenthesis follows the name at once, which
  the tokens do not tell.
-/
inductive IsFunctionLikeList : List Token → Prop where
  | intro {opening closing : Token}
      {list body : List Token}
      {names : List String}
      {variadic : Bool}
      (hOpening : opening.is "(" = true)
      (hList : IsParameterList list names variadic)
      (hClosing : closing.is ")" = true)
      (hNames : names.Nodup)
      (hNoName : furtherArguments ∉ names)
      (hPastes : PastesInside body)
      (hQuotes :
        QuotesParameters
          (if variadic then furtherArguments :: names
            else names)
          body)
      (hFurther :
        variadic = false →
          ∀ t ∈ body, t.is furtherArguments = false) :
      IsFunctionLikeList (opening :: list ++ closing :: body)

/- A parenthesis that nothing behind it closes. -/
def IsUnclosed : List Token → Prop
  | [] => False
  | t :: ts => t.is "(" = true ∧ ∀ u ∈ ts, u.is ")" = false

/- A parameter list is found exactly if some parenthesis closes it. -/
theorem parameterList_eq_none_iff (ts : List Token) :
    parameterList ts = none ↔ ∀ u ∈ ts, u.is ")" = false := by
  induction ts with
  | nil => simp [parameterList]
  | cons t ts ih =>
      rw [parameterList, List.forall_mem_cons, ← ih]
      by_cases hClose : t.is ")" = true
      · simp [hClose]
      · rw [if_neg hClose]
        cases parameterList ts with
        | none => simp [hClose]
        | some list =>
            simp only [Option.bind_eq_bind, Option.bind_some]
            split
            · simp
            · split <;> simp

/- The reader finds no macro exactly behind an unclosed parenthesis. -/
theorem parse_eq_none_iff
    (name : Token)
    (rest : List Token) :
    parse (name :: rest) = none ↔ IsUnclosed rest := by
  cases rest with
  | nil => simp [parse, IsUnclosed]
  | cons t ts =>
      unfold parse IsUnclosed
      by_cases hOpening : t.is "(" = true
      · simp only [hOpening, if_true, true_and,
          Option.map_eq_none_iff]
        exact parameterList_eq_none_iff ts
      · simp [hOpening]

/- The parameter list of a function-like macro is closed. -/
theorem IsFunctionLikeList.not_isUnclosed
    {rest : List Token}
    (hFunction : IsFunctionLikeList rest) :
    ¬ IsUnclosed rest := by
  cases hFunction with
  | @intro opening closing list body _ _ _ _ hClosing =>
      rintro ⟨-, hNone⟩
      have hFalse := hNone closing (by simp)
      rw [hClosing] at hFalse
      cases hFalse

end Macro

------------------------------------------------------------
-- Definitions That Are Followed
------------------------------------------------------------

namespace Preprocessor

variable {x : Context}
variable {st st' : State}
variable {stack : List Frame}
variable {c : Condition}
variable {hash word name : Token}
variable {rest : List Token}

/- Where a condition holds, a macro is defined. -/
def State.Implies
    (st : State)
    (c : Condition)
    (name : String) : Prop :=
  let asked := st.definitions.whetherDefined name st.space
  ∀ a, asked.2.manager.eval c a = true →
    asked.2.manager.eval asked.1 a = true

/- Two states in which the same was said about a macro. -/
structure SaysSame (st st' : State) (name : String) : Prop where
  decisions_eq :
    Dict.find? name st'.definitions =
      Dict.find? name st.definitions
  status_eq :
    ∀ a,
      Definitions.status st'.space a st'.definitions name =
        Definitions.status st.space a st.definitions name

/- Whether a macro is defined where a condition holds, by its status. -/
theorem State.Sound.implies_of_status
    (hSound : st.Sound)
    (hc : st.space.manager.IsLive c)
    {name : String}
    (hStatus :
      ∀ a, st.space.manager.eval c a = true →
        Definitions.status st.space a st.definitions name =
          .defined) :
    st.Implies c name := by
  rcases
    Definitions.ensures_whetherDefined hSound.isLive name
      st.space hSound.space (.refl _) with
    ⟨hSound', hGrows, hMeans⟩
  intro a hHolds
  rw [hGrows.eval_eq hSound.space hSound' hc] at hHolds
  rw [hMeans.eval_self hSound',
    status_grows hSound.space hSound' hGrows hSound.isLive,
    hStatus a hHolds]

/- What a recorded decision leaves. -/
theorem snd_decide
    (name : String)
    (definition : Option Macro)
    (c : Condition)
    (st : State) :
    (decide name definition c st).2 =
      { st with
        space :=
          (st.definitions.record name definition c st.space).2
        definitions :=
          (st.definitions.record name definition c
            st.space).1 } := rfl

/- A decision about a macro says nothing about another one. -/
theorem saysSame_decide
    (hSound : st.Sound)
    (hc : st.space.manager.IsLive c)
    {name other : String}
    (hOther : other ≠ name)
    (definition : Option Macro) :
    SaysSame st (decide name definition c st).2 other where
  decisions_eq := by
    rw [snd_decide]
    exact Dict.find?_insert _ name other _ |>.trans
      (if_neg hOther)
  status_eq := by
    intro a
    rcases
      Definitions.ensures_record hSound.isLive hc definition
        st.space hSound.space (.refl _) with
      ⟨hSound', hGrows, hRecorded⟩
    rw [snd_decide]
    refine
      (hRecorded.status_eq _ hSound' (.refl _) a other).trans
        ?_
    rw [if_neg (fun h => hOther h.1),
      status_grows hSound.space hSound' hGrows hSound.isLive]

/- A macro is defined where the condition of its definition holds. -/
theorem implies_decide
    (hSound : st.Sound)
    (hc : st.space.manager.IsLive c)
    (name : String)
    (m : Macro) :
    (decide name (some m) c st).2.Implies c name := by
  rcases
    Definitions.ensures_record hSound.isLive hc (some m)
      st.space hSound.space (.refl _) with
    ⟨hSound', hGrows, hRecorded⟩
  have hState : (decide name (some m) c st).2.Sound :=
    ⟨hSound', hRecorded.isLive⟩
  apply hState.implies_of_status (hGrows.isLive hc)
  intro a hHolds
  refine
    (hRecorded.status_eq _ hSound' (.refl _) a name).trans ?_
  rw [if_pos ⟨rfl, hHolds⟩]
  rfl

/- The line of a definition that is reached. -/
theorem followLine_defining
    (hHash : hash.is "#" = true)
    (hWord : word.text = "define")
    (hReached : current x.base stack ≠ .zero)
    (first : Bool)
    (st : State) :
    followLine x first stack (hash :: word :: name :: rest) st =
      (stack,
        (define x.settings (name :: rest)
          (current x.base stack) st).2) := by
  have hLine :
      Directive.ofLine (hash :: word :: name :: rest) =
        some (.define (name :: rest)) := by
    simp [Directive.ofLine, hHash, Directive.ofWord, hWord]
  unfold followLine
  rw [hLine]
  refine (run_effect x _ stack (.define (name :: rest)) st).trans
    ?_
  rw [if_neg hReached]
  rfl

/- A definition that the reader understands is recorded. -/
theorem define_of_parse
    {s : Settings}
    (hFree : s.isFree name.text = false)
    {m : Macro}
    {key : String}
    (hParse : Macro.parse (name :: rest) = some (key, m)) :
    define s (name :: rest) c = decide name.text (some m) c := by
  unfold define
  rw [hParse]
  dsimp only
  rw [Macro.parse_name hParse, hFree]
  rfl

/-
  What the line of a definition leaves if it is reached under a
  condition.
-/
structure Defines
    (stack : List Frame)
    (c : Condition)
    (st : State)
    (name : String)
    (rest : List Token)
    (out : List Frame × State) : Prop where
  stack_eq : out.1 = stack
  others : ∀ other, other ≠ name → SaysSame st out.2 other
  function :
    Macro.IsFunctionLikeList rest → out.2.Implies c name
  /- Only an unclosed parenthesis keeps a macro from its definition. -/
  implies_iff :
    out.2.Implies c name ↔
      (Macro.IsUnclosed rest → st.Implies c name)
  unchanged : Macro.IsUnclosed rest → out.2 = st

/-
  Wherever the line of a definition is reached its macro is
  defined behind it, and nothing else is said about any macro.
  Behind an unclosed parenthesis the line has no effect.
-/
theorem followLine_defines
    (hSound : st.Sound)
    (hLive : st.space.manager.IsLive (current x.base stack))
    (hReached : current x.base stack ≠ .zero)
    (hHash : hash.is "#" = true)
    (hWord : word.text = "define")
    (hFree : x.settings.isFree name.text = false)
    (rest : List Token)
    (first : Bool) :
    Defines stack (current x.base stack) st name.text rest
      (followLine x first stack (hash :: word :: name :: rest)
        st) := by
  rw [followLine_defining hHash hWord hReached]
  cases hParse : Macro.parse (name :: rest) with
  | none =>
      have hUnclosed :=
        (Macro.parse_eq_none_iff name rest).mp hParse
      have hRun (c : Condition) :
          define x.settings (name :: rest) c = pure () := by
        unfold define
        rw [hParse]
      rw [hRun]
      exact
        { stack_eq := rfl
          others := fun _ _ => ⟨rfl, fun _ => rfl⟩
          function := fun hFunction =>
            absurd hUnclosed hFunction.not_isUnclosed
          implies_iff :=
            ⟨fun hImplies _ => hImplies, fun h => h hUnclosed⟩
          unchanged := fun _ => rfl }
  | some parsed =>
      rcases parsed with ⟨key, m⟩
      have hClosed : ¬ Macro.IsUnclosed rest := by
        rw [← Macro.parse_eq_none_iff name, hParse]
        simp
      rw [define_of_parse hFree hParse]
      have hImplies := implies_decide hSound hLive name.text m
      exact
        { stack_eq := rfl
          others := fun _ hOther =>
            saysSame_decide hSound hLive hOther _
          function := fun _ => hImplies
          implies_iff :=
            ⟨fun _ h => absurd h hClosed, fun _ => hImplies⟩
          unchanged := fun h => absurd h hClosed }

/- A token of the first line of a text. -/
def onFirstLine (kind : TokenKind) (text : String) : Token :=
  ⟨kind, text, 1, 1, text = "#"⟩

/- A definition of a macro without a body so far. -/
def definingTokens (name : String) : List Token :=
  [ onFirstLine .punctuation "#",
    onFirstLine .identifier "define",
    onFirstLine .identifier name ]

/- A file without inclusions in which no macro stays open. -/
def closedContext : Context where
  settings := ⟨default, [], [], 0, fun _ => false⟩
  path := ⟨"a.c"⟩
  base := .one
  follow := fun _ _ => pure ()

theorem sound_start : (State.start .empty).Sound :=
  ⟨Space.Reached.empty.sound, fun _ _ hd => by cases hd⟩

theorem isLive_one_start :
    (State.start .empty).space.manager.IsLive .one :=
  sound_start.space.manager.reduced.isLive_one

/- The parameter list and the body of a macro of two arguments. -/
def greater : List Token :=
  [ onFirstLine .punctuation "(",
    onFirstLine .identifier "a",
    onFirstLine .punctuation ",",
    onFirstLine .identifier "b",
    onFirstLine .punctuation ")",
    onFirstLine .identifier "a",
    onFirstLine .punctuation ">",
    onFirstLine .identifier "b" ]

theorem followLine_defines_greater :
    Token.logicalLines
        (Token.tokenize "#define GREATER(a, b) a > b") =
      [definingTokens "GREATER" ++ greater] ∧
    (State.start .empty).Sound ∧
    (State.start .empty).space.manager.IsLive .one ∧
    (.one : Condition) ≠ .zero ∧
    closedContext.settings.isFree "GREATER" = false ∧
    Defines [] .one (.start .empty) "GREATER" greater
      (followLine closedContext true []
        (definingTokens "GREATER" ++ greater)
        (.start .empty)) := by
  have hLive :
      (State.start .empty).space.manager.IsLive
        (current closedContext.base []) := isLive_one_start
  have hReached : current closedContext.base [] ≠ .zero := by
    decide
  have hHash :
      (onFirstLine .punctuation "#").is "#" = true := rfl
  have hWord :
      (onFirstLine .identifier "define").text = "define" := rfl
  have hFree :
      closedContext.settings.isFree
          (onFirstLine .identifier "GREATER").text =
        false := rfl
  exact
    ⟨by decide +kernel, sound_start, hLive, hReached, hFree,
      followLine_defines sound_start hLive hReached hHash hWord
        hFree greater true⟩

/-
  A parenthesis can be the whole body of an object-like macro,
  but the macro is not defined behind its definition: whether it
  is stays a matter of its own atom.
-/
theorem not_implies_openParenthesis :
    Token.logicalLines (Token.tokenize "#define LPAREN (") =
      [definingTokens "LPAREN" ++
        [onFirstLine .punctuation "("]] ∧
    Macro.IsObjectLike [onFirstLine .punctuation "("] ∧
    (State.start .empty).Sound ∧
    (State.start .empty).space.manager.IsLive .one ∧
    (.one : Condition) ≠ .zero ∧
    closedContext.settings.isFree "LPAREN" = false ∧
    ¬ (followLine closedContext true []
        (definingTokens "LPAREN" ++
          [onFirstLine .punctuation "("])
        (.start .empty)).2.Implies .one "LPAREN" := by
  have hOne : (.one : Condition) ≠ .zero := by decide
  have hObject :
      Macro.IsObjectLike [onFirstLine .punctuation "("] := by
    constructor
    · exact ⟨by simp [onFirstLine, Token.is],
        by simp [onFirstLine, Token.is]⟩
    · simp [onFirstLine, Token.is, Macro.furtherArguments]
  refine
    ⟨by decide +kernel, hObject, sound_start, isLive_one_start,
      hOne, rfl, ?_⟩
  have hRun :
      (followLine closedContext true []
          (definingTokens "LPAREN" ++
            [onFirstLine .punctuation "("])
          (.start .empty)).2 = .start .empty := by
    rfl
  rw [hRun]
  intro hImplies
  have hAsked :=
    Definitions.ensures_whetherDefined sound_start.isLive
      "LPAREN" (State.start .empty).space sound_start.space
      (.refl _)
  have hHolds :=
    hImplies (fun _ => false) (Diagram.Manager.eval_one _ _)
  rw [hAsked.2.2.eval_self hAsked.1] at hHolds
  cases hHolds

end Preprocessor

end Variability
