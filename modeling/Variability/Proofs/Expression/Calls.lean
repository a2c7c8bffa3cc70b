import Variability.Expression

/-
  Which macros an expression calls.

  The reader takes a parenthesis behind a name for an argument
  list only where it was told that the name takes arguments. So
  every call of an expression that was read is one of a macro
  that takes arguments.

  Main declarations:
    * `Expression.CallsOnly`
    * `Expression.callsOnly_read`
-/

namespace Variability

namespace Expression

/- An expression that calls only macros that take arguments. -/
inductive CallsOnly
    (takesArguments : String → Bool) :
    Expression → Prop where
  | number (v : Int64) : CallsOnly takesArguments (.number v)
  | defined (name : String) :
      CallsOnly takesArguments (.defined name)
  | builtin (text : String) :
      CallsOnly takesArguments (.builtin text)
  | reference (name : String) :
      CallsOnly takesArguments (.reference name)
  | call {name : String}
      (arguments : Option (List (List Token)))
      (text : String)
      (hTakes : takesArguments name = true) :
      CallsOnly takesArguments (.call name arguments text)
  | sign {x : Expression}
      (op : Sign)
      (text : String)
      (hOperand : CallsOnly takesArguments x) :
      CallsOnly takesArguments (.sign op x text)
  | operation {l r : Expression}
      (op : Operator)
      (text : String)
      (hLeft : CallsOnly takesArguments l)
      (hRight : CallsOnly takesArguments r) :
      CallsOnly takesArguments (.operation op l r text)
  | connective {l r : Expression}
      (op : Connective)
      (hLeft : CallsOnly takesArguments l)
      (hRight : CallsOnly takesArguments r) :
      CallsOnly takesArguments (.connective op l r)
  | conditional {test yes no : Expression}
      (hTest : CallsOnly takesArguments test)
      (hYes : CallsOnly takesArguments yes)
      (hNo : CallsOnly takesArguments no) :
      CallsOnly takesArguments (.conditional test yes no)
  | excess {x : Expression}
      (hInside : CallsOnly takesArguments x) :
      CallsOnly takesArguments (.excess x)
  | malformed : CallsOnly takesArguments .malformed

variable {takesArguments : String → Bool}

------------------------------------------------------------
-- Single Operands
------------------------------------------------------------

theorem callsOnly_readDefined (s : List Token) :
    CallsOnly takesArguments (readDefined s).expression := by
  unfold readDefined
  repeat' split
  all_goals first
    | exact .defined _
    | exact .malformed

theorem callsOnly_readBuiltin
    (t : Token)
    (s : List Token) :
    CallsOnly takesArguments (readBuiltin t s).expression := by
  unfold readBuiltin
  split
  · exact .builtin _
  · exact .malformed

theorem callsOnly_readReference
    (t : Token)
    (s : List Token) :
    CallsOnly takesArguments
      (readReference takesArguments t s).expression := by
  unfold readReference
  split
  · rename_i hCalls
    split
    · exact .call _ _ hCalls.1
    · exact .call _ _ hCalls.1
  · exact .reference _

/- Joining operands calls nothing more. -/
theorem callsOnly_join
    {level : Level}
    {sign : String}
    {join : Expression → Expression → String → Expression}
    (hJoin : level.join? sign = some join)
    {l r : Expression}
    (hLeft : CallsOnly takesArguments l)
    (hRight : CallsOnly takesArguments r)
    (text : String) :
    CallsOnly takesArguments (join l r text) := by
  cases level with
  | connective op sign' =>
      simp only [Level.join?] at hJoin
      split at hJoin
      · cases hJoin
        exact .connective op hLeft hRight
      · cases hJoin
  | operators table =>
      rcases Option.map_eq_some_iff.mp hJoin with
        ⟨op, _, rfl⟩
      exact .operation op text hLeft hRight

------------------------------------------------------------
-- Expressions
------------------------------------------------------------

mutual

theorem callsOnly_readPrimary (s : List Token) :
    CallsOnly takesArguments
      (readPrimary takesArguments s).expression := by
  match s with
  | [] =>
      unfold readPrimary
      exact .malformed
  | t :: rest =>
      have hWhole := callsOnly_readWhole rest
      unfold readPrimary
      cases hKind : t.kind with
      | number =>
          cases numberValue? t.text with
          | none => exact .malformed
          | some v => exact .number v
      | character =>
          cases characterValue? t.text with
          | none => exact .malformed
          | some v => exact .number v
      | identifier =>
          dsimp only
          split
          · exact callsOnly_readDefined rest
          split
          · exact callsOnly_readBuiltin t rest
          · exact callsOnly_readReference t rest
      | punctuation =>
          dsimp only
          split
          · split
            · rename_i hRead
              rw [hRead] at hWhole
              split
              · exact hWhole
              · exact .excess hWhole
            · rename_i hRead
              rw [hRead] at hWhole
              exact .excess hWhole
          · exact .malformed
      | string | other => exact .malformed
  termination_by (s.length, 0)

theorem callsOnly_readSigned (s : List Token) :
    CallsOnly takesArguments
      (readSigned takesArguments s).expression := by
  match s with
  | [] =>
      unfold readSigned
      exact .malformed
  | t :: rest =>
      have hSigned := callsOnly_readSigned rest
      have hPrimary := callsOnly_readPrimary (t :: rest)
      unfold readSigned
      dsimp only
      cases signOf t with
      | none => exact hPrimary
      | some op => exact .sign op _ hSigned
  termination_by (s.length, 1)

theorem callsOnly_readOperation
    (lower : List Level)
    (s : List Token) :
    CallsOnly takesArguments
      (readOperation takesArguments lower s).expression := by
  match lower with
  | [] =>
      unfold readOperation
      exact callsOnly_readSigned s
  | level :: tighter =>
      have hFirst := callsOnly_readOperation tighter s
      unfold readOperation
      exact
        callsOnly_readFurther level tighter s _ _
          (readOperation takesArguments tighter s).length_rest
          hFirst
  termination_by (s.length, 2 * lower.length + 2)
  decreasing_by
    · exact Prod.Lex.right _ (by simp)
    · apply Prod.Lex.right
      simp only [List.length_cons]
      omega
    · rcases Nat.lt_or_eq_of_le
          (readOperation takesArguments tighter s).length_rest
        with hlt | heq
      · exact Prod.Lex.left _ _ hlt
      · rw [heq]
        apply Prod.Lex.right
        simp only [List.length_cons]
        omega

theorem callsOnly_readFurther
    (level : Level)
    (tighter : List Level)
    (s : List Token)
    (x : Expression)
    (rest : List Token)
    (hLength : rest.length ≤ s.length)
    (hOperand : CallsOnly takesArguments x) :
    CallsOnly takesArguments
      (readFurther takesArguments level tighter s x rest
        hLength).expression := by
  match rest with
  | [] =>
      unfold readFurther
      exact hOperand
  | t :: rest =>
      have hNext := callsOnly_readOperation tighter rest
      unfold readFurther
      dsimp only
      split
      · exact hOperand
      · rename_i join hJoin
        have hBehind :=
          (readOperation takesArguments tighter rest).length_rest
        exact
          callsOnly_readFurther level tighter s _ _ _
            (callsOnly_join hJoin hOperand hNext _)
  termination_by (rest.length, 2 * tighter.length + 3)

theorem callsOnly_readWhole (s : List Token) :
    CallsOnly takesArguments
      (readWhole takesArguments s).expression := by
  have hTest := callsOnly_readOperation levels s
  unfold readWhole
  split
  · rename_i hRead
    rw [hRead] at hTest
    exact hTest
  · rename_i test t rest hLength hRead
    rw [hRead] at hTest
    split
    · have hYes := callsOnly_readWhole rest
      split
      · rename_i hRead'
        rw [hRead'] at hYes
        exact .conditional hTest hYes .malformed
      · rename_i yes colon behind hLength' hRead'
        rw [hRead'] at hYes
        split
        · have hNo := callsOnly_readWhole behind
          exact .conditional hTest hYes hNo
        · exact .conditional hTest hYes .malformed
    · exact hTest
  termination_by (s.length, 2 * levels.length + 3)
  decreasing_by
    · exact Prod.Lex.right _ (by simp)
    · exact Prod.Lex.left _ _ (by grind)
    · exact Prod.Lex.left _ _ (by grind)

end

/- What is read calls only macros that take arguments. -/
theorem callsOnly_read (s : List Token) :
    CallsOnly takesArguments (read takesArguments s) := by
  have hWhole :
      CallsOnly takesArguments
        (readWhole takesArguments s).expression :=
    callsOnly_readWhole s
  unfold read
  split
  · rename_i hRead
    rw [hRead] at hWhole
    exact hWhole
  · rename_i hRead
    rw [hRead] at hWhole
    exact .excess hWhole

end Expression

end Variability
