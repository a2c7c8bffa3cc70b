import Variability.Expression
import Variability.Proofs.Token.Position

/-
  Expressions are read without regard to positions.

  Reading tokens whose positions were taken off gives the same
  tree with the positions of its argument lists taken off. The
  induction is that of the reader, one statement for each of its
  functions.

  Main declarations:
    * `Expression.bare`
    * `Expression.Reading.IsBare`
    * `Expression.read_bare`
-/

namespace Variability

open Token

namespace Expression

/- An expression that does not say where its arguments stand. -/
def bare : Expression → Expression
  | .number v => .number v
  | .defined name => .defined name
  | .builtin text => .builtin text
  | .reference name => .reference name
  | .call name arguments text =>
      .call name (arguments.map (·.map (·.map Token.bare))) text
  | .sign op e text => .sign op (bare e) text
  | .operation op l r text =>
      .operation op (bare l) (bare r) text
  | .connective op l r => .connective op (bare l) (bare r)
  | .conditional test yes no =>
      .conditional (bare test) (bare yes) (bare no)
  | .excess e => .excess (bare e)
  | .malformed => .malformed

------------------------------------------------------------
-- Argument Lists
------------------------------------------------------------

theorem consToken_bare
    (t : Token)
    (arguments : List (List Token)) :
    consToken t.bare (arguments.map (·.map Token.bare)) =
      (consToken t arguments).map (·.map Token.bare) := by
  cases arguments <;> rfl

/- Arguments and what follows them without positions. -/
def bareList
    (out : List (List Token) × List Token) :
    List (List Token) × List Token :=
  (out.1.map (·.map Token.bare), out.2.map Token.bare)

theorem argumentsWithin_bare
    (depth : Nat)
    (s : List Token) :
    argumentsWithin depth (s.map Token.bare) =
      (argumentsWithin depth s).map bareList := by
  have hStep
      {out : Option (List (List Token) × List Token)}
      {f : List (List Token) → List (List Token)}
      {g : List (List Token) → List (List Token)}
      (hBare :
        ∀ arguments,
          g (arguments.map (·.map Token.bare)) =
            (f arguments).map (·.map Token.bare)) :
      (out.map bareList).map (fun x => (g x.1, x.2)) =
        (out.map fun x => (f x.1, x.2)).map bareList := by
    cases out with
    | none => rfl
    | some out => simp [bareList, hBare]
  induction s generalizing depth with
  | nil => simp [argumentsWithin]
  | cons t s ih =>
      simp only [List.map_cons]
      unfold argumentsWithin
      rw [is_bare, is_bare, is_bare]
      by_cases hClose : t.is ")" = true
      · rw [if_pos hClose, if_pos hClose]
        cases depth with
        | zero => rfl
        | succ depth =>
            dsimp only
            rw [ih depth]
            exact hStep (consToken_bare t)
      rw [if_neg hClose, if_neg hClose]
      by_cases hComma : t.is "," = true ∧ depth = 0
      · rw [if_pos hComma, if_pos hComma, ih depth]
        exact hStep fun _ => rfl
      · rw [if_neg hComma, if_neg hComma]
        dsimp only
        rw [ih]
        exact hStep (consToken_bare t)

theorem argumentList_bare (s : List Token) :
    argumentList (s.map Token.bare) =
      (argumentList s).map bareList := by
  cases s with
  | nil => rfl
  | cons t s =>
      simp only [List.map_cons, argumentList, is_bare,
        argumentsWithin_bare]
      by_cases hOpen : t.is "(" = true
      · simp only [hOpen, if_true]
        cases argumentsWithin 0 s with
        | none => rfl
        | some out =>
            rcases out with ⟨arguments, rest⟩
            have hEmpty :
                arguments.map (·.map Token.bare) = [[]] ↔
                  arguments = [[]] := by
              simp [List.map_eq_cons_iff]
            by_cases hNone : arguments = [[]]
            · simp [bareList, hNone]
            · simp [bareList, hNone, hEmpty]
      · simp [hOpen]

@[simp] theorem textBefore_bare (s rest : List Token) :
    textBefore (s.map Token.bare) (rest.map Token.bare) =
      textBefore s rest := by
  unfold textBefore
  rw [List.length_map, List.length_map, ← List.map_take,
    spell_bare]

------------------------------------------------------------
-- Reading
------------------------------------------------------------

variable {s s' : List Token}
variable {takesArguments : String → Bool}

/- A reading of the same with all positions taken off. -/
structure Reading.IsBare
    (r : Reading s)
    (r' : Reading s') : Prop where
  expression_eq : r'.expression = r.expression.bare
  rest_eq : r'.rest = r.rest.map Token.bare

namespace Reading.IsBare

theorem stop (s s' : List Token) :
    (stop s).IsBare (stop s') :=
  ⟨rfl, rfl⟩

/- What holds of the parts of two readings holds of the readings. -/
@[elab_as_elim]
theorem parts
    {motive : Reading s → Reading s' → Prop}
    {r : Reading s}
    {r' : Reading s'}
    (hBare : r.IsBare r')
    (hParts :
      ∀ e rest hLength hLength',
        motive ⟨e, rest, hLength⟩
          ⟨e.bare, rest.map Token.bare, hLength'⟩) :
    motive r r' := by
  rcases r with ⟨e, rest, hLength⟩
  rcases r' with ⟨e', rest', hLength'⟩
  rcases hBare with ⟨hEq, hRest⟩
  dsimp only at hEq hRest
  subst hEq hRest
  exact hParts e rest hLength hLength'

theorem ite
    {p : Prop}
    [Decidable p]
    {q r : Reading s}
    {q' r' : Reading s'}
    (hThen : p → q.IsBare q')
    (hElse : ¬ p → r.IsBare r') :
    (if p then q else r).IsBare (if p then q' else r') := by
  by_cases hp : p
  · rw [if_pos hp, if_pos hp]
    exact hThen hp
  · rw [if_neg hp, if_neg hp]
    exact hElse hp

end Reading.IsBare

theorem readDefined_bare (s : List Token) :
    (readDefined s).IsBare (readDefined (s.map Token.bare)) := by
  match s with
  | [] => exact ⟨rfl, rfl⟩
  | [t] | [t, u] | t :: u :: close :: rest =>
      apply Reading.IsBare.ite
      · intro _
        first
          | exact .stop _ _
          | exact .ite (fun _ => ⟨rfl, rfl⟩)
              fun _ => .stop _ _
      · exact fun _ =>
          .ite (fun _ => ⟨rfl, rfl⟩) fun _ => .stop _ _

theorem readBuiltin_bare
    (t : Token)
    (s : List Token) :
    (readBuiltin t s).IsBare
      (readBuiltin t.bare (s.map Token.bare)) := by
  have hList := argumentList_bare s
  unfold readBuiltin
  split
  · rename_i arguments rest hRead
    rw [hRead, Option.map_some] at hList
    split
    · rename_i arguments' rest' hRead'
      rw [hRead', Option.some.injEq] at hList
      have hRest : rest' = rest.map Token.bare :=
        congrArg Prod.snd hList
      subst hRest
      constructor
      · simp [bare]
      · rfl
    · rename_i hNone
      rw [hNone] at hList
      cases hList
  · rename_i hRead
    rw [hRead, Option.map_none] at hList
    split
    · rename_i hSome
      rw [hSome] at hList
      cases hList
    · exact .stop _ _

theorem readReference_bare
    (t : Token)
    (s : List Token) :
    (readReference takesArguments t s).IsBare
      (readReference takesArguments t.bare
        (s.map Token.bare)) := by
  have hList := argumentList_bare s
  have hHead :
      (s.map Token.bare).head?.any (·.is "(") =
        s.head?.any (·.is "(") := by
    cases s <;> rfl
  unfold readReference
  rw [hHead, bare_text]
  apply Reading.IsBare.ite
  · intro _
    split
    · rename_i arguments rest hRead
      rw [hRead, Option.map_some] at hList
      split
      · rename_i arguments' rest' hRead'
        rw [hRead', Option.some.injEq] at hList
        have hArguments :
            arguments' = arguments.map (·.map Token.bare) :=
          congrArg Prod.fst hList
        have hRest : rest' = rest.map Token.bare :=
          congrArg Prod.snd hList
        subst hArguments
        subst hRest
        constructor
        · simp [bare]
        · rfl
      · rename_i hNone
        rw [hNone] at hList
        cases hList
    · rename_i hRead
      rw [hRead, Option.map_none] at hList
      split
      · rename_i hSome
        rw [hSome] at hList
        cases hList
      · exact ⟨rfl, rfl⟩
  · exact fun _ => ⟨rfl, rfl⟩

theorem join?_bare
    {level : Level}
    {sign : String}
    {join : Expression → Expression → String → Expression}
    (hJoin : level.join? sign = some join)
    (l r : Expression)
    (text : String) :
    join l.bare r.bare text = (join l r text).bare := by
  cases level with
  | connective op sign' =>
      simp only [Level.join?] at hJoin
      split at hJoin
      · cases hJoin
        rfl
      · cases hJoin
  | operators table =>
      rcases Option.map_eq_some_iff.mp hJoin with
        ⟨op, _, rfl⟩
      rfl

theorem signOf_bare (t : Token) :
    signOf t.bare = signOf t := rfl

/- Taking a longer reading does not change what is read. -/
theorem Reading.IsBare.weaken
    {u u' : List Token}
    {r : Reading s}
    {r' : Reading s'}
    (hBare : r.IsBare r')
    (hLength : s.length ≤ u.length)
    (hLength' : s'.length ≤ u'.length) :
    (r.weaken hLength).IsBare (r'.weaken hLength') :=
  ⟨hBare.expression_eq, hBare.rest_eq⟩

mutual

theorem readPrimary_bare
    (takesArguments : String → Bool)
    (s : List Token) :
    (readPrimary takesArguments s).IsBare
      (readPrimary takesArguments (s.map Token.bare)) := by
  match s with
  | [] =>
      unfold readPrimary
      exact .stop _ _
  | t :: rest =>
      have hWhole := readWhole_bare takesArguments rest
      rw [List.map_cons]
      unfold readPrimary
      simp only [bare_kind, bare_text, is_bare]
      cases hKind : t.kind with
      | number =>
          cases numberValue? t.text with
          | none => exact .stop _ _
          | some v => exact ⟨rfl, rfl⟩
      | character =>
          cases characterValue? t.text with
          | none => exact .stop _ _
          | some v => exact ⟨rfl, rfl⟩
      | identifier =>
          apply Reading.IsBare.ite
          · exact fun _ => (readDefined_bare rest).weaken _ _
          · intro _
            apply Reading.IsBare.ite
            · exact fun _ =>
                (readBuiltin_bare t rest).weaken _ _
            · exact fun _ =>
                (readReference_bare t rest).weaken _ _
      | punctuation =>
          apply Reading.IsBare.ite
          · intro _
            refine hWhole.parts ?_
            intro e behind hLength hLength'
            cases behind with
            | nil => exact ⟨rfl, rfl⟩
            | cons close behind =>
                exact
                  .ite (fun _ => ⟨rfl, rfl⟩)
                    fun _ => ⟨rfl, rfl⟩
          · exact fun _ => .stop _ _
      | string | other => exact .stop _ _
  termination_by (s.length, 0)

theorem readSigned_bare
    (takesArguments : String → Bool)
    (s : List Token) :
    (readSigned takesArguments s).IsBare
      (readSigned takesArguments (s.map Token.bare)) := by
  match s with
  | [] =>
      unfold readSigned
      exact .stop _ _
  | t :: rest =>
      have hSigned := readSigned_bare takesArguments rest
      have hPrimary :=
        readPrimary_bare takesArguments (t :: rest)
      rw [List.map_cons] at hPrimary ⊢
      unfold readSigned
      dsimp only
      rw [signOf_bare]
      cases signOf t with
      | none => exact hPrimary
      | some op =>
          dsimp only
          refine hSigned.parts ?_
          intro e behind hLength hLength'
          constructor
          · dsimp only
            rw [← List.map_cons, textBefore_bare]
            rfl
          · rfl
  termination_by (s.length, 1)

theorem readOperation_bare
    (takesArguments : String → Bool)
    (levels : List Level)
    (s : List Token) :
    (readOperation takesArguments levels s).IsBare
      (readOperation takesArguments levels
        (s.map Token.bare)) := by
  match levels with
  | [] =>
      unfold readOperation
      exact readSigned_bare takesArguments s
  | level :: tighter =>
      have hFirst :=
        readOperation_bare takesArguments tighter s
      unfold readOperation
      dsimp only
      refine hFirst.parts ?_
      intro e rest hLength hLength'
      exact
        readFurther_bare takesArguments level tighter s e
          rest hLength hLength'
  termination_by (s.length, 2 * levels.length + 2)
  decreasing_by
    · exact Prod.Lex.right _ (by simp)
    · exact Prod.Lex.right _ (by simp only [List.length_cons]; omega)
    · rcases Nat.lt_or_eq_of_le hLength with hlt | heq
      · exact Prod.Lex.left _ _ hlt
      · rw [heq]
        exact Prod.Lex.right _ (by simp only [List.length_cons]; omega)

theorem readFurther_bare
    (takesArguments : String → Bool)
    (level : Level)
    (tighter : List Level)
    (s : List Token)
    (e : Expression)
    (rest : List Token)
    (hLength : rest.length ≤ s.length)
    (hLength' :
      (rest.map Token.bare).length ≤
        (s.map Token.bare).length) :
    (readFurther takesArguments level tighter s e rest
        hLength).IsBare
      (readFurther takesArguments level tighter
        (s.map Token.bare) e.bare (rest.map Token.bare)
        hLength') := by
  match rest with
  | [] =>
      unfold readFurther
      exact ⟨rfl, rfl⟩
  | t :: rest =>
      have hNext :=
        readOperation_bare takesArguments tighter rest
      simp only [List.map_cons] at hLength' ⊢
      unfold readFurther
      simp only [bare_text]
      cases hJoin : level.join? t.text with
      | none => exact ⟨rfl, rfl⟩
      | some join =>
          dsimp only
          refine hNext.parts ?_
          intro e' behind hBehind hBehind'
          dsimp only
          rw [textBefore_bare, join?_bare hJoin]
          exact
            readFurther_bare takesArguments level tighter s
              (join e e' (textBefore s behind)) behind _ _
  termination_by (rest.length, 2 * tighter.length + 3)

theorem readWhole_bare
    (takesArguments : String → Bool)
    (s : List Token) :
    (readWhole takesArguments s).IsBare
      (readWhole takesArguments (s.map Token.bare)) := by
  have hTest := readOperation_bare takesArguments levels s
  unfold readWhole
  refine hTest.parts ?_
  intro test rest hLength hLength'
  match rest with
  | [] => exact ⟨rfl, rfl⟩
  | t :: rest =>
      apply Reading.IsBare.ite
      · intro _
        have hYes := readWhole_bare takesArguments rest
        refine hYes.parts ?_
        intro yes behind hYesLength hYesLength'
        match behind with
        | [] => exact ⟨rfl, rfl⟩
        | colon :: behind =>
            apply Reading.IsBare.ite
            · intro _
              have hNo :=
                readWhole_bare takesArguments behind
              refine hNo.parts ?_
              intro no last hNoLength hNoLength'
              exact ⟨rfl, rfl⟩
            · exact fun _ => ⟨rfl, rfl⟩
      · exact fun _ => ⟨rfl, rfl⟩
  termination_by (s.length, 2 * levels.length + 3)
  decreasing_by
    · exact Prod.Lex.right _ (by simp)
    · exact Prod.Lex.left _ _ (by grind)
    · exact Prod.Lex.left _ _ (by grind)

end

/- What is read does not depend on where the tokens stand. -/
theorem read_bare
    (takesArguments : String → Bool)
    (s : List Token) :
    read takesArguments (s.map Token.bare) =
      (read takesArguments s).bare := by
  have hWhole := readWhole_bare takesArguments s
  unfold read
  refine hWhole.parts ?_
  intro e rest hLength hLength'
  cases rest <;> rfl

end Expression

end Variability
