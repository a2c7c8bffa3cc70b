import Mathlib.Data.List.SplitBy
import Variability.Macro
import Variability.Preprocessor.Directive

/-
  Tokens without the lines that they stand on.

  Nothing that a directive says depends on where its tokens
  stand: taking the positions off the tokens and then reading a
  macro, substituting arguments or looking for a directive gives
  the same as doing so first.

  Main declarations:
    * `Token.bare`, `Token.Alike`
    * `Token.logicalLines_bare`
    * `Macro.bare`
    * `Macro.substitute_bare`
    * `Directive.ofLine_bare`
-/

namespace Variability

------------------------------------------------------------
-- Tokens
------------------------------------------------------------

namespace Token

/- A token that does not say where it stands. -/
def bare (t : Token) : Token :=
  { t with line := 0, endLine := 0 }

/- Tokens that differ at most in where they stand. -/
def Alike (ts us : List Token) : Prop :=
  ts.map bare = us.map bare

@[simp] theorem bare_kind (t : Token) :
    t.bare.kind = t.kind := rfl

@[simp] theorem bare_text (t : Token) :
    t.bare.text = t.text := rfl

@[simp] theorem bare_startsLine (t : Token) :
    t.bare.startsLine = t.startsLine := rfl

@[simp] theorem is_bare (t : Token) (text : String) :
    t.bare.is text = t.is text := rfl

@[simp] theorem bare_bare (t : Token) :
    t.bare.bare = t.bare := rfl

theorem mark_bare (t : Token) (text : String) :
    t.bare.mark text = (t.mark text).bare := rfl

@[simp] theorem spell_bare (ts : List Token) :
    spell (ts.map bare) = spell ts := by
  simp [spell, Function.comp_def]

theorem Alike.spell_eq
    {ts us : List Token}
    (hAlike : Alike ts us) :
    spell ts = spell us := by
  rw [← spell_bare ts, ← spell_bare us, hAlike]

theorem Alike.text_eq
    {t u : Token}
    {ts us : List Token}
    (hAlike : Alike (t :: ts) (u :: us)) :
    t.text = u.text := by
  have hText :=
    congrArg Token.text (List.cons.inj hAlike).1
  exact hText

------------------------------------------------------------
-- Logical Lines
------------------------------------------------------------

/- A chain of tokens none of which but the first may start a line. -/
theorem isChain_cons
    {t : Token}
    {ts : List Token}
    (hStarts : ∀ u ∈ ts, u.startsLine = false) :
    (t :: ts).IsChain fun _ next => !next.startsLine := by
  apply (List.isChain_isInfix (t :: ts)).imp_of_mem_tail_imp
  intro _ u _ hMem _
  simp [hStarts u hMem]

/- A logical line goes on to the next token that starts one. -/
theorem logicalLines_cons
    (t : Token)
    (ts : List Token) :
    logicalLines (t :: ts) =
      (t :: ts.takeWhile (!·.startsLine)) ::
        logicalLines (ts.dropWhile (!·.startsLine)) := by
  have hLine :
      (t :: ts.takeWhile (!·.startsLine)).IsChain
        fun _ next => !next.startsLine := by
    apply isChain_cons
    intro u hMem
    simpa using
      List.all_eq_true.mp List.all_takeWhile u hMem
  have hNext :
      ∀ u ∈ (ts.dropWhile (!·.startsLine)).head?,
        u.startsLine = true := by
    intro u hMem
    have hStop := List.head?_dropWhile_not (!·.startsLine) ts
    rw [Option.mem_def.mp hMem] at hStop
    simpa using hStop
  conv_lhs =>
    rw [← List.takeWhile_append_dropWhile
      (p := (!·.startsLine)) (l := ts)]
  unfold logicalLines
  rw [← List.cons_append, List.splitBy_append,
    List.splitBy_of_isChain (List.cons_ne_nil t _) hLine,
    List.singleton_append]
  intro _ _ u hMem
  simp [hNext u hMem]

/- Where lines end does not depend on where they stand. -/
theorem logicalLines_bare (ts : List Token) :
    logicalLines (ts.map bare) =
      (logicalLines ts).map (·.map bare) := by
  induction hLength : ts.length using Nat.strong_induction_on
    generalizing ts with
  | _ n ih =>
      cases ts with
      | nil => rfl
      | cons t ts =>
          have hLe :=
            (List.dropWhile_suffix (!·.startsLine)
              (l := ts)).length_le
          have hRest :=
            ih _ (by rw [← hLength, List.length_cons]; omega)
              (ts.dropWhile (!·.startsLine)) rfl
          rw [List.map_cons, logicalLines_cons,
            logicalLines_cons, List.takeWhile_map,
            List.dropWhile_map]
          exact congrArg _ hRest

end Token

open Token

------------------------------------------------------------
-- Macros
------------------------------------------------------------

namespace Macro

/- A macro that does not say where its body stands. -/
def bare (m : Macro) : Macro :=
  { m with body := m.body.map Token.bare }

/- Macros that differ at most in where they stand. -/
structure Alike (m m' : Macro) : Prop where
  bare_eq : m.bare = m'.bare

theorem Alike.body
    {m m' : Macro}
    (hAlike : m.Alike m') :
    Token.Alike m.body m'.body := by
  have hBody := congrArg Macro.body hAlike.bare_eq
  exact hBody

theorem Alike.isFunctionLike_eq
    {m m' : Macro}
    (hAlike : m.Alike m') :
    m.isFunctionLike = m'.isFunctionLike := by
  have hParameters := congrArg isFunctionLike hAlike.bare_eq
  exact hParameters

theorem parameterList_bare (ts : List Token) :
    parameterList (ts.map Token.bare) =
      (parameterList ts).map fun (names, variadic, body) =>
        (names, variadic, body.map Token.bare) := by
  induction ts with
  | nil => rfl
  | cons t ts ih =>
      simp only [List.map_cons, parameterList, is_bare,
        bare_text, ih]
      by_cases hClose : t.is ")" = true
      · simp [hClose]
      · simp only [hClose, Bool.false_eq_true, if_false]
        cases parameterList ts with
        | none => rfl
        | some read =>
            by_cases hComma : t.is "," = true
            · simp [hComma]
            · by_cases hDots : t.is "..." = true
              · simp [hComma, hDots]
              · simp [hComma, hDots]

/- What a definition says does not depend on where it stands. -/
theorem parse_bare (ts : List Token) :
    parse (ts.map Token.bare) =
      (parse ts).map fun (name, m) => (name, m.bare) := by
  cases ts with
  | nil => rfl
  | cons name rest =>
      cases rest with
      | nil => rfl
      | cons t rest =>
          simp only [List.map_cons, parse, is_bare,
            bare_text]
          by_cases hOpen : t.is "(" = true
          · simp only [hOpen, if_true, parameterList_bare,
              Option.map_map]
            rfl
          · simp [hOpen, bare]

theorem any_isSpellingOperator_bare (ts : List Token) :
    (ts.map Token.bare).any isSpellingOperator =
      ts.any isSpellingOperator := by
  rw [List.any_map]
  rfl

theorem map_intersperse
    {α β : Type}
    (f : α → β)
    (x : α)
    (xs : List α) :
    (xs.intersperse x).map f =
      (xs.map f).intersperse (f x) := by
  induction xs with
  | nil => rfl
  | cons y ys ih =>
      cases ys with
      | nil => rfl
      | cons z zs =>
          simp only [List.map_cons,
            List.intersperse_cons_cons] at ih ⊢
          rw [ih]

theorem replacement_bare
    (parameters : List String)
    (variadic : Bool)
    (arguments : List (List Token))
    (t : Token) :
    replacement parameters variadic
        (arguments.map (·.map Token.bare)) t.bare =
      (replacement parameters variadic arguments t).map
        Token.bare := by
  unfold replacement
  rw [bare_kind, bare_text]
  by_cases hKind : t.kind = .identifier
  · simp only [hKind, if_true]
    cases parameters.idxOf? t.text with
    | none => rfl
    | some i =>
        by_cases hFurther :
            variadic = true ∧ i + 1 = parameters.length
        · have hMark :
              [t.bare.mark ","] =
                [t.mark ","].map Token.bare := rfl
          simp only [hFurther, and_self, if_true]
          rw [hMark, ← List.map_drop, List.map_flatten,
            map_intersperse]
        · simp only [hFurther, if_false, List.map_append,
            List.map_cons, List.map_nil, mark_bare,
            List.getD_eq_getElem?_getD, List.getElem?_map]
          cases arguments[i]? <;> rfl
  · simp [hKind]

/- Substitution takes the positions of bodies and arguments along. -/
theorem substitute_bare
    (m : Macro)
    (arguments : List (List Token)) :
    m.bare.substitute (arguments.map (·.map Token.bare)) =
      (m.substitute arguments).map (·.map Token.bare) := by
  unfold substitute bare
  cases m.parameters with
  | none => rfl
  | some parameters =>
      simp only [Option.bind_eq_bind, Option.bind_some,
        any_isSpellingOperator_bare, List.length_map]
      by_cases hSpelling :
          m.body.any isSpellingOperator = true
      · simp [hSpelling]
      by_cases hAccepts :
          accepts parameters m.variadic
            arguments.length = true
      · simp only [hSpelling, hAccepts, if_true,
          Bool.false_eq_true, if_false, Option.map_some,
          List.flatMap_map, List.map_flatMap,
          replacement_bare]
      · simp [hSpelling, hAccepts]

end Macro

------------------------------------------------------------
-- Directives
------------------------------------------------------------

namespace Directive

/- A directive that does not say where its tokens stand. -/
def bare : Directive → Directive
  | .opening word arguments =>
      .opening word (arguments.map Token.bare)
  | .alternative word arguments =>
      .alternative word (arguments.map Token.bare)
  | .otherwise => .otherwise
  | .closing => .closing
  | .define arguments => .define (arguments.map Token.bare)
  | .undefine arguments =>
      .undefine (arguments.map Token.bare)
  | .inclusion arguments =>
      .inclusion (arguments.map Token.bare)
  | .once => .once
  | .other => .other

theorem ofWord_bare
    (word : String)
    (arguments : List Token) :
    ofWord word (arguments.map Token.bare) =
      (ofWord word arguments).bare := by
  have hOnce :
      (arguments.map Token.bare).head?.any (·.is "once") =
        arguments.head?.any (·.is "once") := by
    cases arguments <;> rfl
  unfold ofWord
  rw [hOnce]
  split <;> first
    | rfl
    | skip
  split <;> rfl

/- What a line asks for does not depend on where it stands. -/
theorem ofLine_bare (line : List Token) :
    ofLine (line.map Token.bare) =
      (ofLine line).map bare := by
  cases line with
  | nil => rfl
  | cons t rest =>
      simp only [List.map_cons, ofLine, is_bare]
      by_cases hMark : t.is "#" = true
      · simp only [hMark, if_true]
        cases rest with
        | nil => rfl
        | cons word arguments =>
            simp only [List.map_cons, bare_text,
              ofWord_bare, Option.map_some]
      · simp [hMark]

end Directive

namespace Test

/- A test that does not say where its tokens stand. -/
def bare : Test → Test
  | .expression tokens => .expression (tokens.map Token.bare)
  | .definedness name positive => .definedness name positive
  | .unnamed text => .unnamed text

theorem ofWord_bare
    (word : String)
    (arguments : List Token) :
    ofWord word (arguments.map Token.bare) =
      (ofWord word arguments).bare := by
  unfold ofWord
  by_cases hWord : word = "if" ∨ word = "elif"
  · simp only [hWord, if_true]
    rfl
  · simp only [hWord, if_false, spell_bare]
    cases arguments with
    | nil => rfl
    | cons t rest =>
        by_cases hKind : t.kind = .identifier <;>
          simp [Option.filter, hKind, bare]

end Test

namespace IncludeName

/- The file that is named does not depend on where it is named. -/
theorem ofTokens?_bare (tokens : List Token) :
    ofTokens? (tokens.map Token.bare) =
      ofTokens? tokens := by
  match tokens with
  | [] => rfl
  | [t] => rfl
  | t :: u :: rest =>
      simp only [List.map_cons, ofTokens?, is_bare]
      have hLast :
          (u.bare :: rest.map Token.bare).getLast?.any
              (·.is ">") =
            (u :: rest).getLast?.any (·.is ">") := by
        rw [← List.map_cons, List.getLast?_map,
          Option.any_map]
        rfl
      have hTexts :
          (u.bare :: rest.map Token.bare).dropLast.map
              (·.text) =
            (u :: rest).dropLast.map (·.text) := by
        rw [← List.map_cons, ← List.map_dropLast,
          List.map_map]
        rfl
      rw [hLast, hTexts]
      rfl

end IncludeName

end Variability
