import Variability.Proofs.Expression.Unsplit
import Variability.Proofs.Expression.Parsing

/-
  Expressions in front of other tokens.

  Where the reader finds an expression without anything missing
  and without calls, it finds the same one when other tokens
  follow, unless these join in. What it has read is unsplit. The
  induction is that of the reader.

  Main declarations:
    * `Expression.isOver`
    * `Expression.Extends`
    * `Expression.readPrimary_extends`
    * `Expression.readWhole_extends`
-/

namespace Variability

namespace Expression

open Grammar

/-
  Whether nothing is missing in an expression, it does not call
  macros, and its names are of some kind.
-/
def isOver (p : String → Bool) : Expression → Bool
  | .number _ | .defined _ | .builtin _ => true
  | .reference name => p name
  | .call .. | .excess _ | .malformed => false
  | .sign _ e _ => e.isOver p
  | .operation _ l r _ | .connective _ l r =>
      l.isOver p && r.isOver p
  | .conditional test yes no =>
      test.isOver p && (yes.isOver p && no.isOver p)

------------------------------------------------------------
-- Extension
------------------------------------------------------------

variable {s ts us rest : List Token}
variable {t : Token}

/- Whether identifiers are spelled like identifiers. -/
def HasNames (s : List Token) : Prop :=
  ∀ t ∈ s, t.kind = .identifier →
    Lexer.isIdentifier t.text = true

/- What stands in front of a rest is unsplit. -/
def Leaves (s rest : List Token) : Prop :=
  ∃ used, s = used ++ rest ∧ IsUnsplit used

/-
  What stands in front of a rest is unsplit, and it is found
  again when other tokens follow, whatever other names take
  arguments.
-/
structure Extends
    (p : String → Bool)
    (At : List Token → Prop)
    (s rest : List Token)
    (Found : (String → Bool) → List Token → Prop) :
    Prop where
  leaves : Leaves s rest
  found :
    ∀ takesArguments : String → Bool,
      (∀ name, p name = true → takesArguments name = false) →
        ∀ tail, At tail → Found takesArguments tail

/- What follows does not join in. -/
def Stops (rest tail : List Token) : Prop :=
  rest = [] → Ends 0 tail

variable {p : String → Bool}
variable {e : Expression}

theorem Leaves.refl (s : List Token) : Leaves s s :=
  ⟨[], rfl, isUnsplit_nil⟩

theorem Leaves.trans
    (hFirst : Leaves s us)
    (hSecond : Leaves us rest) :
    Leaves s rest := by
  rcases hFirst with ⟨used, rfl, hUnsplit⟩
  rcases hSecond with ⟨used', rfl, hUnsplit'⟩
  exact
    ⟨used ++ used', (List.append_assoc ..).symm,
      hUnsplit.append hUnsplit'⟩

theorem Leaves.cons
    (hLeaves : Leaves s rest)
    (ht : IsUnsplit [t]) :
    Leaves (t :: s) rest := by
  rcases hLeaves with ⟨used, rfl, hUnsplit⟩
  exact ⟨t :: used, rfl, ht.append hUnsplit⟩

theorem Leaves.eq_nil
    (hLeaves : Leaves s rest)
    (hNil : s = []) :
    rest = [] := by
  rcases hLeaves with ⟨used, rfl, -⟩
  exact (List.append_eq_nil_iff.mp hNil).2

/- What follows stops the reader earlier if it does so later. -/
theorem Stops.of_leaves
    {tail : List Token}
    (hStops : Stops rest tail)
    (hLeaves : Leaves s rest) :
    Stops s tail :=
  fun hNil => hStops (hLeaves.eq_nil hNil)

theorem HasNames.tail
    (hNames : HasNames (t :: s)) :
    HasNames s :=
  fun u hu => hNames u (List.mem_cons_of_mem t hu)

theorem HasNames.behind
    (hNames : HasNames s)
    (hLeaves : Leaves s rest) :
    HasNames rest := by
  rcases hLeaves with ⟨used, rfl, -⟩
  exact fun t ht => hNames t (List.mem_append_right used ht)

theorem textBefore_extended
    (hLeaves : Leaves s rest)
    (tail : List Token) :
    textBefore (s ++ tail) (rest ++ tail) =
      textBefore s rest := by
  rcases hLeaves with ⟨used, rfl, -⟩
  rw [List.append_assoc, textBefore_append, textBefore_append]

/- A name is not a mark. -/
theorem not_mem_of_isIdentifier
    {name : String}
    {marks : List String}
    (hName : Lexer.isIdentifier name = true)
    (hMarks :
      ∀ mark ∈ marks, Lexer.isIdentifier mark = false) :
    name ∉ marks := by
  intro hMem
  rw [hMarks name hMem] at hName
  cases hName

theorem HasNames.isUnsplit
    (hNames : HasNames s)
    (ht : t ∈ s)
    (hKind : t.kind = .identifier) :
    IsUnsplit [t] :=
  isUnsplit_singleton
    (not_mem_of_isIdentifier (hNames t ht hKind) (by decide))

theorem gives_of_eq
    {r : Reading s}
    {hLength : rest.length ≤ s.length}
    (hEq : r = ⟨e, rest, hLength⟩) :
    Gives r e rest := by
  rw [hEq]
  exact ⟨rfl, rfl⟩

theorem eq_of_gives_mk
    {e' : Expression}
    {hLength : us.length ≤ s.length}
    (hGives : Gives (s := s) ⟨e', us, hLength⟩ e rest) :
    e' = e ∧ us = rest :=
  ⟨hGives.expression_eq, hGives.rest_eq⟩

theorem gives_weaken_iff
    {r : Reading s}
    {hLength : s.length ≤ us.length} :
    Gives (r.weaken hLength) e rest ↔ Gives r e rest :=
  ⟨fun h => ⟨h.expression_eq, h.rest_eq⟩,
    fun h => ⟨h.expression_eq, h.rest_eq⟩⟩

/- Nothing is read where the reader stops. -/
theorem not_gives_stop
    (hGives : Gives (stop s) e rest) :
    e.isOver p ≠ true := by
  rcases hGives with ⟨rfl, -⟩
  exact Bool.false_ne_true

theorem readDefined_extends
    (hNames : HasNames s)
    (hGives : Gives (readDefined s) e rest)
    (hOver : e.isOver p = true) :
    Leaves s rest ∧
      ∀ tail,
        Gives (readDefined (s ++ tail)) e (rest ++ tail) := by
  cases s with
  | nil => exact absurd hOver (not_gives_stop hGives)
  | cons t s =>
      rw [readDefined.eq_def] at hGives
      dsimp only at hGives
      by_cases hOpen : t.is "(" = true
      · rw [if_pos hOpen] at hGives
        rcases s with _ | ⟨u, _ | ⟨close, s⟩⟩
        · exact absurd hOver (not_gives_stop hGives)
        · exact absurd hOver (not_gives_stop hGives)
        dsimp only at hGives
        by_cases hName : u.kind = .identifier ∧ close.is ")"
        · rw [if_pos hName] at hGives
          rcases hGives with ⟨rfl, rfl⟩
          have hUnsplit :=
            IsUnsplit.parentheses hOpen
              (hNames.isUnsplit (by simp) hName.1) hName.2
          refine ⟨⟨_, rfl, hUnsplit⟩, fun tail => ?_⟩
          simp only [List.cons_append]
          rw [readDefined.eq_def]
          dsimp only
          rw [if_pos hOpen, if_pos hName]
          exact ⟨rfl, rfl⟩
        · rw [if_neg hName] at hGives
          exact absurd hOver (not_gives_stop hGives)
      · rw [if_neg hOpen] at hGives
        by_cases hName : t.kind = .identifier
        · rw [if_pos hName] at hGives
          rcases hGives with ⟨rfl, rfl⟩
          refine
            ⟨⟨[t], rfl,
              hNames.isUnsplit List.mem_cons_self hName⟩,
              fun tail => ?_⟩
          rw [List.cons_append, readDefined.eq_def]
          dsimp only
          rw [if_neg hOpen, if_pos hName]
          exact ⟨rfl, rfl⟩
        · rw [if_neg hName] at hGives
          exact absurd hOver (not_gives_stop hGives)

theorem readBuiltin_extends
    (hGives : Gives (readBuiltin t s) e rest)
    (hOver : e.isOver p = true) :
    Leaves s rest ∧
      ∀ tail,
        Gives (readBuiltin t (s ++ tail)) e
          (rest ++ tail) := by
  unfold readBuiltin at hGives
  split at hGives
  · rename_i arguments behind hRead
    rcases hGives with ⟨rfl, rfl⟩
    rcases exists_isUnsplit_of_argumentList hRead with
      ⟨hSplit, hAgain⟩
    refine ⟨hSplit, fun tail => ?_⟩
    unfold readBuiltin
    split
    · rename_i arguments' behind' hRead'
      rw [hAgain tail] at hRead'
      cases hRead'
      exact
        ⟨congrArg (Expression.builtin <| t.text ++ " " ++ ·)
          (textBefore_extended hSplit tail), rfl⟩
    · rename_i hNone
      rw [hAgain tail] at hNone
      cases hNone
  · exact absurd hOver (not_gives_stop hGives)

theorem isUnsplit_of_is
    {mark : String}
    (ht : t.is mark = true)
    (hMark : mark ∉ ["(", ")", ","]) :
    IsUnsplit [t] := by
  have hText : t.text = mark := beq_iff_eq.mp ht
  exact isUnsplit_singleton (hText ▸ hMark)

theorem isUnsplit_of_numberValue?
    {v : Int64}
    (hValue : numberValue? t.text = some v) :
    IsUnsplit [t] := by
  have hNone :
      ∀ text ∈ ["(", ")", ","], numberValue? text = none := by
    decide
  apply isUnsplit_singleton
  intro hMem
  rw [hNone t.text hMem] at hValue
  cases hValue

theorem isUnsplit_of_characterValue?
    {v : Int64}
    (hValue : characterValue? t.text = some v) :
    IsUnsplit [t] := by
  have hNone :
      ∀ text ∈ ["(", ")", ","],
        characterValue? text = none := by
    decide
  apply isUnsplit_singleton
  intro hMem
  rw [hNone t.text hMem] at hValue
  cases hValue

theorem isUnsplit_of_signOf
    {op : Sign}
    (hSign : signOf t = some op) :
    IsUnsplit [t] := by
  apply isUnsplit_singleton
  intro hMem
  unfold signOf at hSign
  split at hSign <;> rename_i hText <;>
    first
      | (rw [hText] at hMem
         exact absurd hMem (by decide))
      | cases hSign

/- Marks that join operands neither open nor end arguments. -/
theorem isUnsplit_of_join?
    {level : Level}
    {j : Expression → Expression → String → Expression}
    (hLevel : level ∈ levels)
    (hJoin : level.join? t.text = some j) :
    IsUnsplit [t] := by
  have hNone :
      ∀ level ∈ levels, ∀ text ∈ ["(", ")", ","],
        (level.join? text).isNone = true := by
    decide
  apply isUnsplit_singleton
  intro hMem
  have hAbsent := hNone level hLevel t.text hMem
  rw [hJoin] at hAbsent
  cases hAbsent

theorem isOver_join?
    {level : Level}
    {sign text : String}
    {l r : Expression}
    {j : Expression → Expression → String → Expression}
    (hJoin : level.join? sign = some j) :
    (j l r text).isOver p = (l.isOver p && r.isOver p) := by
  cases level with
  | connective op sign' =>
      simp only [Level.join?] at hJoin
      split at hJoin
      · cases hJoin
        rfl
      · cases hJoin
  | operators table =>
      rcases Option.map_eq_some_iff.mp hJoin with ⟨op, -, rfl⟩
      rfl

/- Nothing is missing in the first of several operands. -/
theorem isOver_of_readFurther
    {takesArguments : String → Bool}
    {level : Level}
    {tighter : List Level}
    (s rest : List Token)
    (e : Expression)
    (hLength : rest.length ≤ s.length)
    (hOver :
      (readFurther takesArguments level tighter s e rest
        hLength).expression.isOver p = true) :
    e.isOver p = true := by
  match rest with
  | [] =>
      rw [readFurther.eq_def] at hOver
      exact hOver
  | t :: rest =>
      rw [readFurther.eq_def] at hOver
      dsimp only at hOver
      cases hJoin : level.join? t.text with
      | none =>
          simp only [hJoin] at hOver
          exact hOver
      | some j =>
          simp only [hJoin] at hOver
          have hJoined :=
            isOver_of_readFurther s _ _ _ hOver
          rw [isOver_join? hJoin, Bool.and_eq_true] at hJoined
          exact hJoined.1
  termination_by rest.length
  decreasing_by
    have := (readOperation takesArguments tighter rest).length_rest
    simp only [List.length_cons]
    omega

/- What is read alone is found again. -/
theorem extends_of_alone
    (hUnsplit : IsUnsplit [t])
    (hAlone :
      ∀ takesArguments : String → Bool,
        (∀ name, p name = true →
          takesArguments name = false) →
          ∀ rest,
            Gives (readPrimary takesArguments (t :: rest)) e
              rest)
    (s : List Token) :
    Extends p (fun _ => True) (t :: s) s
      fun takesArguments tail =>
        Gives (readPrimary takesArguments (t :: s ++ tail)) e
          (s ++ tail) where
  leaves := (Leaves.refl s).cons hUnsplit
  found takesArguments hPlain tail _ :=
    hAlone takesArguments hPlain (s ++ tail)

/- What is found again behind a name is so with the name. -/
theorem extends_of_behind
    (reader : (us : List Token) → Reading us)
    (hUnsplit : IsUnsplit [t])
    (hBehind :
      Leaves s rest ∧
        ∀ tail, Gives (reader (s ++ tail)) e (rest ++ tail))
    (hReader :
      ∀ (takesArguments : String → Bool) {us vs : List Token},
        Gives (reader us) e vs →
          Gives (readPrimary takesArguments (t :: us)) e vs) :
    Extends p (fun _ => True) (t :: s) rest
      fun takesArguments tail =>
        Gives (readPrimary takesArguments (t :: s ++ tail)) e
          (rest ++ tail) where
  leaves := hBehind.1.cons hUnsplit
  found takesArguments _ tail _ :=
    hReader takesArguments (hBehind.2 tail)

theorem readPrimary_extends_of_identifier
    (hNames : HasNames (t :: s))
    (hKind : t.kind = .identifier)
    (hGives :
      Gives (readPrimary (fun _ => false) (t :: s)) e rest)
    (hOver : e.isOver p = true) :
    Extends p (fun _ => True) (t :: s) rest
      fun takesArguments tail =>
        Gives (readPrimary takesArguments (t :: s ++ tail)) e
          (rest ++ tail) := by
  have hUnsplit := hNames.isUnsplit List.mem_cons_self hKind
  rw [readPrimary.eq_def] at hGives
  by_cases hDefined : t.is "defined" = true
  · simp only [hKind, hDefined, if_true] at hGives
    refine
      extends_of_behind readDefined hUnsplit
        (readDefined_extends hNames.tail
          (gives_weaken_iff.mp hGives) hOver) ?_
    intro takesArguments us vs hAgain
    rw [readPrimary.eq_def]
    simp only [hKind, hDefined, if_true]
    exact gives_weaken_iff.mpr hAgain
  rw [Bool.not_eq_true] at hDefined
  by_cases hBuiltin : builtins.contains t.text = true
  · simp only [hKind, hDefined, hBuiltin, Bool.false_eq_true,
      if_false, if_true] at hGives
    refine
      extends_of_behind (readBuiltin t) hUnsplit
        (readBuiltin_extends (gives_weaken_iff.mp hGives)
          hOver) ?_
    intro takesArguments us vs hAgain
    rw [readPrimary.eq_def]
    simp only [hKind, hDefined, hBuiltin, Bool.false_eq_true,
      if_false, if_true]
    exact gives_weaken_iff.mpr hAgain
  rw [Bool.not_eq_true] at hBuiltin
  simp only [hKind, hDefined, hBuiltin, Reading.weaken,
    readReference, Bool.false_eq_true, false_and,
    if_false] at hGives
  rcases hGives with ⟨rfl, rfl⟩
  exact
    extends_of_alone hUnsplit
      (fun takesArguments hPlain =>
        gives_reference hKind hDefined hBuiltin
          (hPlain t.text hOver)) s

/- What an expression in parentheses is, if it is closed. -/
theorem exists_of_gives_parentheses
    (hKind : t.kind = .punctuation)
    (hGives :
      Gives (readPrimary (fun _ => false) (t :: s)) e rest)
    (hOver : e.isOver p = true) :
    t.is "(" = true ∧
      ∃ close : Token, close.is ")" = true ∧
        Gives (readWhole (fun _ => false) s) e
          (close :: rest) := by
  rw [readPrimary.eq_def] at hGives
  by_cases hOpen : t.is "(" = true
  · refine ⟨hOpen, ?_⟩
    rcases hWhole : readWhole (fun _ => false) s with
      ⟨e', behind, hLength⟩
    simp only [hKind, hOpen, if_true, hWhole] at hGives
    cases behind with
    | nil =>
        rcases hGives with ⟨rfl, -⟩
        cases hOver
    | cons close behind =>
        dsimp only at hGives
        by_cases hClose : close.is ")" = true
        · rw [if_pos hClose] at hGives
          rcases eq_of_gives_mk hGives with ⟨rfl, rfl⟩
          exact ⟨close, hClose, rfl, rfl⟩
        · rw [if_neg hClose] at hGives
          rcases hGives with ⟨rfl, -⟩
          cases hOver
  · simp only [hKind, hOpen, Bool.false_eq_true,
      if_false] at hGives
    exact absurd hOver (not_gives_stop hGives)

/- What a whole expression is: an operation, or a choice. -/
theorem cases_of_gives_readWhole
    (hGives : Gives (readWhole (fun _ => false) s) e rest)
    (hOver : e.isOver p = true) :
    Gives (readOperation (fun _ => false) levels s) e rest ∧
        (∀ t ∈ rest.head?, t.is "?" = false) ∨
      ∃ test yes no question us colon vs,
        e = .conditional test yes no ∧
          Gives (readOperation (fun _ => false) levels s) test
            (question :: us) ∧
          question.is "?" = true ∧
          Gives (readWhole (fun _ => false) us) yes
            (colon :: vs) ∧
          colon.is ":" = true ∧
          Gives (readWhole (fun _ => false) vs) no rest := by
  rcases hFirst :
      readOperation (fun _ => false) levels s with
    ⟨test, behind, hLength⟩
  rw [readWhole.eq_def] at hGives
  simp only [hFirst] at hGives
  rcases behind with _ | ⟨t, behind⟩
  · rcases eq_of_gives_mk hGives with ⟨rfl, rfl⟩
    exact .inl ⟨⟨rfl, rfl⟩, fun t ht => by cases ht⟩
  dsimp only at hGives
  by_cases hQuestion : t.is "?" = true
  · rw [if_pos hQuestion] at hGives
    rcases hYes : readWhole (fun _ => false) behind with
      ⟨yes, _ | ⟨colon, behind'⟩, hLength'⟩
    · simp only [hYes] at hGives
      rcases eq_of_gives_mk hGives with ⟨rfl, -⟩
      simp [isOver] at hOver
    simp only [hYes] at hGives
    by_cases hColon : colon.is ":" = true
    · rw [if_pos hColon] at hGives
      rcases hNo : readWhole (fun _ => false) behind' with
        ⟨no, behind'', hLength''⟩
      simp only [hNo] at hGives
      rcases eq_of_gives_mk hGives with ⟨rfl, rfl⟩
      exact
        .inr
          ⟨test, yes, no, t, behind, colon, behind', rfl,
            ⟨rfl, rfl⟩, hQuestion, gives_of_eq hYes, hColon,
            gives_of_eq hNo⟩
    · rw [if_neg hColon] at hGives
      rcases eq_of_gives_mk hGives with ⟨rfl, -⟩
      simp [isOver] at hOver
  · rw [if_neg hQuestion] at hGives
    rcases eq_of_gives_mk hGives with ⟨rfl, rfl⟩
    refine .inl ⟨⟨rfl, rfl⟩, ?_⟩
    rintro u ⟨⟩
    exact Bool.not_eq_true _ ▸ hQuestion

mutual

theorem readPrimary_extends
    (p : String → Bool)
    (s rest : List Token)
    (e : Expression)
    (hNames : HasNames s)
    (hGives : Gives (readPrimary (fun _ => false) s) e rest)
    (hOver : e.isOver p = true) :
    Extends p (fun _ => True) s rest fun takesArguments tail =>
      Gives (readPrimary takesArguments (s ++ tail)) e
        (rest ++ tail) := by
  match s with
  | [] =>
      rw [readPrimary.eq_def] at hGives
      exact absurd hOver (not_gives_stop hGives)
  | t :: s =>
      cases hKind : t.kind with
      | number =>
          rw [readPrimary.eq_def] at hGives
          simp only [hKind] at hGives
          cases hValue : numberValue? t.text with
          | none =>
              simp only [hValue] at hGives
              exact absurd hOver (not_gives_stop hGives)
          | some v =>
              simp only [hValue] at hGives
              rcases hGives with ⟨rfl, rfl⟩
              exact
                extends_of_alone
                  (isUnsplit_of_numberValue? hValue)
                  (fun _ _ => gives_number hKind hValue) s
      | character =>
          rw [readPrimary.eq_def] at hGives
          simp only [hKind] at hGives
          cases hValue : characterValue? t.text with
          | none =>
              simp only [hValue] at hGives
              exact absurd hOver (not_gives_stop hGives)
          | some v =>
              simp only [hValue] at hGives
              rcases hGives with ⟨rfl, rfl⟩
              exact
                extends_of_alone
                  (isUnsplit_of_characterValue? hValue)
                  (fun _ _ => gives_character hKind hValue) s
      | identifier =>
          exact
            readPrimary_extends_of_identifier hNames hKind
              hGives hOver
      | punctuation =>
          rcases
              exists_of_gives_parentheses hKind hGives
                hOver with
            ⟨hOpen, close, hClose, hWhole⟩
          have hInside :=
            readWhole_extends p s _ _ hNames.tail hWhole hOver
          constructor
          · rcases hInside.leaves with ⟨used, rfl, hUnsplit⟩
            exact
              ⟨_, by simp, hUnsplit.parentheses hOpen hClose⟩
          · intro takesArguments hPlain tail _
            exact
              gives_parentheses hKind hOpen
                (hInside.found takesArguments hPlain tail
                  fun h => by cases h)
                hClose
      | string | other =>
          rw [readPrimary.eq_def] at hGives
          simp only [hKind] at hGives
          exact absurd hOver (not_gives_stop hGives)
  termination_by (s.length, 0)

theorem readSigned_extends
    (p : String → Bool)
    (s rest : List Token)
    (e : Expression)
    (hNames : HasNames s)
    (hGives : Gives (readSigned (fun _ => false) s) e rest)
    (hOver : e.isOver p = true) :
    Extends p (fun _ => True) s rest fun takesArguments tail =>
      Gives (readSigned takesArguments (s ++ tail)) e
        (rest ++ tail) := by
  match s with
  | [] =>
      rw [readSigned.eq_def] at hGives
      exact absurd hOver (not_gives_stop hGives)
  | t :: s =>
      rw [readSigned.eq_def] at hGives
      dsimp only at hGives
      cases hSign : signOf t with
      | none =>
          simp only [hSign] at hGives
          have hPrimary :=
            readPrimary_extends p (t :: s) rest e hNames hGives
              hOver
          refine ⟨hPrimary.leaves, ?_⟩
          intro takesArguments hPlain tail hAt
          have hFound :=
            hPrimary.found takesArguments hPlain tail hAt
          rw [List.cons_append] at hFound ⊢
          rw [readSigned.eq_def]
          simp only [hSign]
          exact hFound
      | some op =>
          rcases hRead : readSigned (fun _ => false) s with
            ⟨e', behind, hLength⟩
          simp only [hSign, hRead] at hGives
          rcases eq_of_gives_mk hGives with ⟨rfl, rfl⟩
          have hOperand :=
            readSigned_extends p s _ _ hNames.tail
              (gives_of_eq hRead) hOver
          have hLeaves :=
            hOperand.leaves.cons (isUnsplit_of_signOf hSign)
          refine ⟨hLeaves, ?_⟩
          intro takesArguments hPlain tail hAt
          rcases
              (hOperand.found takesArguments hPlain tail
                hAt).exists_eq with
            ⟨hLength', hEq⟩
          rw [List.cons_append, readSigned.eq_def]
          simp only [hSign, hEq]
          exact
            ⟨congrArg (Expression.sign op e')
              (textBefore_extended hLeaves tail), rfl⟩
  termination_by (s.length, 1)

theorem readOperation_extends
    (p : String → Bool)
    (lower : List Level)
    (hLevels : lower ⊆ levels)
    (s rest : List Token)
    (e : Expression)
    (hNames : HasNames s)
    (hGives :
      Gives (readOperation (fun _ => false) lower s) e rest)
    (hOver : e.isOver p = true) :
    Extends p (Stops rest) s rest fun takesArguments tail =>
      Gives (readOperation takesArguments lower (s ++ tail)) e
        (rest ++ tail) := by
  match lower with
  | [] =>
      rw [readOperation.eq_def] at hGives
      have hSigned :=
        readSigned_extends p s rest e hNames hGives hOver
      refine ⟨hSigned.leaves, ?_⟩
      intro takesArguments hPlain tail _
      rw [readOperation.eq_def]
      exact hSigned.found takesArguments hPlain tail trivial
  | level :: tighter =>
      have hTighter : tighter ⊆ levels :=
        List.subset_of_cons_subset hLevels
      rcases hFirst :
          readOperation (fun _ => false) tighter s with
        ⟨e₁, behind, hLength⟩
      rw [readOperation.eq_def] at hGives
      simp only [hFirst] at hGives
      have hOver₁ : e₁.isOver p = true := by
        rw [← hGives.expression_eq] at hOver
        exact isOver_of_readFurther _ _ _ _ hOver
      have hExtends :=
        readOperation_extends p tighter hTighter s behind e₁
          hNames (gives_of_eq hFirst) hOver₁
      have hFurther :=
        readFurther_extends p level tighter
          (hLevels List.mem_cons_self) hTighter s behind rest
          e₁ e hLength hNames hExtends.leaves hGives hOver
      refine ⟨hExtends.leaves.trans hFurther.leaves, ?_⟩
      intro takesArguments hPlain tail hStops
      rcases
          (hExtends.found takesArguments hPlain tail
            (hStops.of_leaves hFurther.leaves)).exists_eq with
        ⟨hLength', hEq⟩
      rw [readOperation.eq_def]
      simp only [hEq]
      exact
        hFurther.found takesArguments hPlain tail hStops
          hLength'
  termination_by (s.length, 2 * lower.length + 2)
  decreasing_by
    · exact Prod.Lex.right _ (by simp)
    · exact Prod.Lex.right _ (by simp only [List.length_cons]; omega)
    · rcases Nat.lt_or_eq_of_le hLength with hlt | heq
      · exact Prod.Lex.left _ _ hlt
      · rw [heq]
        exact Prod.Lex.right _ (by simp only [List.length_cons]; omega)

theorem readFurther_extends
    (p : String → Bool)
    (level : Level)
    (tighter : List Level)
    (hLevel : level ∈ levels)
    (hTighter : tighter ⊆ levels)
    (s behind rest : List Token)
    (e₁ e : Expression)
    (hLength : behind.length ≤ s.length)
    (hNames : HasNames s)
    (hLeaves : Leaves s behind)
    (hGives :
      Gives
        (readFurther (fun _ => false) level tighter s e₁ behind
          hLength)
        e rest)
    (hOver : e.isOver p = true) :
    Extends p (Stops rest) behind rest
      fun takesArguments tail =>
        ∀ hLength',
          Gives
            (readFurther takesArguments level tighter
              (s ++ tail) e₁ (behind ++ tail) hLength')
            e (rest ++ tail) := by
  match behind with
  | [] =>
      rw [readFurther.eq_def] at hGives
      rcases eq_of_gives_mk hGives with ⟨rfl, rfl⟩
      refine ⟨.refl _, ?_⟩
      intro takesArguments _ tail hStops hLength'
      rw [readFurther.eq_def]
      cases tail with
      | nil => exact ⟨rfl, rfl⟩
      | cons t tail =>
          have hJoin := (hStops rfl t rfl).1 level hLevel
          rw [Option.isNone_iff_eq_none] at hJoin
          simp only [List.nil_append, hJoin]
          exact ⟨rfl, rfl⟩
  | t :: behind =>
      rw [readFurther.eq_def] at hGives
      dsimp only at hGives
      cases hJoin : level.join? t.text with
      | none =>
          simp only [hJoin] at hGives
          rcases eq_of_gives_mk hGives with ⟨rfl, rfl⟩
          refine ⟨.refl _, ?_⟩
          intro takesArguments _ tail _ hLength'
          rw [readFurther.eq_def]
          simp only [List.cons_append, hJoin]
          exact ⟨rfl, rfl⟩
      | some j =>
          rcases hNext :
              readOperation (fun _ => false) tighter behind with
            ⟨e₂, behind', hLength₂⟩
          simp only [hJoin, hNext] at hGives
          have hNames' := hNames.behind hLeaves
          have hJoined :
              (j e₁ e₂ (textBefore s behind')).isOver p =
                true := by
            rw [← hGives.expression_eq] at hOver
            exact isOver_of_readFurther _ _ _ _ hOver
          rw [isOver_join? hJoin, Bool.and_eq_true] at hJoined
          have hOperand :=
            readOperation_extends p tighter hTighter behind
              behind' e₂ hNames'.tail (gives_of_eq hNext)
              hJoined.2
          have hMark :=
            hOperand.leaves.cons
              (isUnsplit_of_join? hLevel hJoin)
          have hFurther :=
            readFurther_extends p level tighter hLevel hTighter
              s behind' rest _ e _ hNames
              (hLeaves.trans hMark) hGives hOver
          refine ⟨hMark.trans hFurther.leaves, ?_⟩
          intro takesArguments hPlain tail hStops hLength'
          rcases
              (hOperand.found takesArguments hPlain tail
                (hStops.of_leaves hFurther.leaves)).exists_eq
            with ⟨hLength₂', hEq⟩
          rw [readFurther.eq_def]
          simp only [List.cons_append, hJoin, hEq,
            textBefore_extended (hLeaves.trans hMark)]
          exact
            hFurther.found takesArguments hPlain tail hStops _
  termination_by (behind.length, 2 * tighter.length + 3)

theorem readWhole_extends
    (p : String → Bool)
    (s rest : List Token)
    (e : Expression)
    (hNames : HasNames s)
    (hGives : Gives (readWhole (fun _ => false) s) e rest)
    (hOver : e.isOver p = true) :
    Extends p (Stops rest) s rest fun takesArguments tail =>
      Gives (readWhole takesArguments (s ++ tail)) e
        (rest ++ tail) := by
  rcases cases_of_gives_readWhole hGives hOver with
    ⟨hTest, hNot⟩ |
      ⟨test, yes, no, question, us, colon, vs, rfl, hTest,
        hQuestion, hYes, hColon, hNo⟩
  · have hExtends :=
      readOperation_extends p levels (List.Subset.refl _) s _ _
        hNames hTest hOver
    refine ⟨hExtends.leaves, ?_⟩
    intro takesArguments hPlain tail hStops
    apply
      gives_readWhole
        (hExtends.found takesArguments hPlain tail hStops)
    cases rest with
    | nil =>
        exact fun t ht =>
          beq_eq_false_iff_ne.mpr ((hStops rfl t ht).2 rfl)
    | cons t rest => exact hNot
  · simp only [isOver, Bool.and_eq_true] at hOver
    rcases hOver with ⟨hOver, hOver', hOver''⟩
    have hExtends :=
      readOperation_extends p levels (List.Subset.refl _) s _ _
        hNames hTest hOver
    have hNames' := (hNames.behind hExtends.leaves).tail
    have hShort : us.length < s.length := hTest.length_le
    have hShorter : vs.length < s.length :=
      (Nat.lt_of_succ_le hYes.length_le).trans hShort
    have hThen :=
      readWhole_extends p us _ _ hNames' hYes hOver'
    have hElse :=
      readWhole_extends p vs _ _
        (hNames'.behind hThen.leaves).tail hNo hOver''
    constructor
    · have hBehind :=
        hThen.leaves.trans
          (hElse.leaves.cons
            (isUnsplit_of_is hColon (by decide)))
      exact
        hExtends.leaves.trans
          (hBehind.cons
            (isUnsplit_of_is hQuestion (by decide)))
    · intro takesArguments hPlain tail hStops
      exact
        gives_readWhole_conditional
          (hExtends.found takesArguments hPlain tail
            fun h => by cases h)
          hQuestion
          (hThen.found takesArguments hPlain tail
            fun h => by cases h)
          hColon
          (hElse.found takesArguments hPlain tail hStops)
  termination_by (s.length, 2 * levels.length + 3)
  decreasing_by
    all_goals first
      | exact Prod.Lex.right _ (by simp)
      | exact Prod.Lex.left _ _ hShort
      | exact Prod.Lex.left _ _ hShorter

end

end Expression

end Variability
