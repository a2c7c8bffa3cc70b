import Variability.Proofs.Expression.Extension
import Variability.Proofs.Macro.Splicing

/-
  Reading tokens in which a name was replaced.

  Where a name was replaced by operands, the reader finds the
  expression that these are read as in the place of the name,
  and otherwise the same. The induction is that of the reader:
  it stands in front of the name exactly when it stands in front
  of an operand.

  Main declarations:
    * `Inlining.IsRead`
    * `Inlining.Mirrors`
    * `Inlining.mirrors_read`
-/

namespace Variability

open Expression
open Grammar

/- The marks that the reader looks for around an operand. -/
def Expression.marks : List String :=
  ["!", "~", "-", "+", "*", "/", "%", "<<", ">>", "<", ">",
   "<=", ">=", "==", "!=", "&", "^", "|", "&&", "||", "?",
   ":", ")"]

/- The signs of a level. -/
def Expression.Level.signs : Level → List String
  | .connective _ text => [text]
  | .operators table => table.map (·.1)

theorem Expression.Level.mem_signs_of_join?
    {level : Level}
    {text : String}
    {j : Expression → Expression → String → Expression}
    (hJoin : level.join? text = some j) :
    text ∈ level.signs := by
  cases level with
  | connective op text' =>
      unfold Level.join? at hJoin
      dsimp only at hJoin
      split at hJoin
      · rename_i hText
        exact List.mem_singleton.mpr hText
      · cases hJoin
  | operators table =>
      rcases Option.map_eq_some_iff.mp hJoin with
        ⟨op, hLookup, -⟩
      rcases List.lookup_eq_some_iff.mp hLookup with
        ⟨before, behind, rfl, -⟩
      have hMem : (text, op) ∈ before ++ (text, op) :: behind :=
        List.mem_append_right _ List.mem_cons_self
      exact List.mem_map.mpr ⟨_, hMem, rfl⟩

theorem Expression.mem_marks_of_join?
    {level : Level}
    {text : String}
    {j : Expression → Expression → String → Expression}
    (hLevel : level ∈ levels)
    (hJoin : level.join? text = some j) :
    text ∈ marks := by
  have hSigns :
      ∀ level ∈ levels, ∀ text ∈ level.signs, text ∈ marks := by
    decide
  exact
    hSigns level hLevel text (Level.mem_signs_of_join? hJoin)

theorem Expression.mem_marks_of_signOf
    {t : Token}
    {op : Sign}
    (hSign : signOf t = some op) :
    t.text ∈ marks := by
  unfold signOf at hSign
  split at hSign <;> rename_i hText <;>
    first
      | (rw [hText]
         decide)
      | cases hSign

namespace Inlining

/-
  The name of an inlining is a plain one, and its operands are
  read as an expression wherever they stand.
-/
structure IsRead
    (i : Inlining)
    (takesArguments : String → Bool)
    (tree : Expression) : Prop extends i.IsProper where
  ne_defined : i.name ≠ "defined"
  not_builtin : i.name ∉ builtins
  takes_name : takesArguments i.name = false
  head :
    ∀ us, i.Operand us → ∀ t ∈ us.head?, t.text ∉ marks
  gives :
    ∀ us, i.Operand us → ∀ tail,
      Gives (readPrimary takesArguments (us ++ tail)) tree tail
  calls_of_takes :
    ∀ name, takesArguments name = true →
      i.isCallable name = true
  calls_builtin : ∀ name ∈ builtins, i.isCallable name = true

/-
  The second expression is the first one with another in the
  place of a name, inside the arguments of calls too.
-/
inductive Mirrors
    (i : Inlining)
    (takesArguments : String → Bool)
    (tree : Expression) :
    Expression → Expression → Prop where
  | number (v : Int64) :
      i.Mirrors takesArguments tree (.number v) (.number v)
  | defined (name : String) :
      i.Mirrors takesArguments tree (.defined name)
        (.defined name)
  | builtin (text text' : String) :
      i.Mirrors takesArguments tree (.builtin text)
        (.builtin text')
  | reference (name : String) :
      i.Mirrors takesArguments tree (.reference name)
        (.reference name)
  | inlined :
      i.Mirrors takesArguments tree (.reference i.name) tree
  | call {name text text' : String}
      {as as' : List (List Token)}
      (hTakes : takesArguments name = true)
      (hArguments : List.Forall₂ (i.Spliced false) as as') :
      i.Mirrors takesArguments tree (.call name (some as) text)
        (.call name (some as') text')
  | unclosedCall (name text text' : String) :
      i.Mirrors takesArguments tree (.call name none text)
        (.call name none text')
  | sign {op : Sign} {e e' : Expression}
      {text text' : String}
      (hOperand : i.Mirrors takesArguments tree e e') :
      i.Mirrors takesArguments tree (.sign op e text)
        (.sign op e' text')
  | operation {op : Operator} {l r l' r' : Expression}
      {text text' : String}
      (hLeft : i.Mirrors takesArguments tree l l')
      (hRight : i.Mirrors takesArguments tree r r') :
      i.Mirrors takesArguments tree (.operation op l r text)
        (.operation op l' r' text')
  | connective {op : Connective} {l r l' r' : Expression}
      (hLeft : i.Mirrors takesArguments tree l l')
      (hRight : i.Mirrors takesArguments tree r r') :
      i.Mirrors takesArguments tree (.connective op l r)
        (.connective op l' r')
  | conditional {test yes no test' yes' no' : Expression}
      (hTest : i.Mirrors takesArguments tree test test')
      (hYes : i.Mirrors takesArguments tree yes yes')
      (hNo : i.Mirrors takesArguments tree no no') :
      i.Mirrors takesArguments tree
        (.conditional test yes no)
        (.conditional test' yes' no')
  | excess {e e' : Expression}
      (hInside : i.Mirrors takesArguments tree e e') :
      i.Mirrors takesArguments tree (.excess e) (.excess e')
  | malformed :
      i.Mirrors takesArguments tree .malformed .malformed

variable {i : Inlining}
variable {takesArguments : String → Bool}
variable {tree : Expression}
variable {called : Bool}
variable {s s' : List Token}

/- A reading of the same with the name replaced. -/
structure ReadsAlike
    (i : Inlining)
    (takesArguments : String → Bool)
    (tree : Expression)
    (r : Reading s)
    (r' : Reading s') : Prop where
  expression :
    i.Mirrors takesArguments tree r.expression r'.expression
  rest : i.Spliced false r.rest r'.rest

namespace ReadsAlike

theorem stop (s s' : List Token) :
    i.ReadsAlike takesArguments tree (stop s) (stop s') :=
  ⟨.malformed, .nil⟩

/- What holds of the parts of two readings holds of the readings. -/
@[elab_as_elim]
theorem parts
    {motive : Reading s → Reading s' → Prop}
    {r : Reading s}
    {r' : Reading s'}
    (hAlike : i.ReadsAlike takesArguments tree r r')
    (hParts :
      ∀ e e' rest rest' hLength hLength',
        i.Mirrors takesArguments tree e e' →
          i.Spliced false rest rest' →
            motive ⟨e, rest, hLength⟩ ⟨e', rest', hLength'⟩) :
    motive r r' := by
  rcases r with ⟨e, rest, hLength⟩
  rcases r' with ⟨e', rest', hLength'⟩
  exact
    hParts e e' rest rest' hLength hLength' hAlike.expression
      hAlike.rest

theorem of_gives
    {r : Reading s}
    {r' : Reading s'}
    {e e' : Expression}
    {rest rest' : List Token}
    (hGives : Gives r e rest)
    (hGives' : Gives r' e' rest')
    (hMirrors : i.Mirrors takesArguments tree e e')
    (hRest : i.Spliced false rest rest') :
    i.ReadsAlike takesArguments tree r r' := by
  constructor
  · rwa [hGives.expression_eq, hGives'.expression_eq]
  · rwa [hGives.rest_eq, hGives'.rest_eq]

theorem ite
    {p : Prop}
    [Decidable p]
    {q r : Reading s}
    {q' r' : Reading s'}
    (hThen : p → i.ReadsAlike takesArguments tree q q')
    (hElse : ¬ p → i.ReadsAlike takesArguments tree r r') :
    i.ReadsAlike takesArguments tree (if p then q else r)
      (if p then q' else r') := by
  by_cases hp : p
  · rw [if_pos hp, if_pos hp]
    exact hThen hp
  · rw [if_neg hp, if_neg hp]
    exact hElse hp

theorem weaken
    {u u' : List Token}
    {r : Reading s}
    {r' : Reading s'}
    (hAlike : i.ReadsAlike takesArguments tree r r')
    (hLength : s.length ≤ u.length)
    (hLength' : s'.length ≤ u'.length) :
    i.ReadsAlike takesArguments tree (r.weaken hLength)
      (r'.weaken hLength') :=
  ⟨hAlike.expression, hAlike.rest⟩

end ReadsAlike

/-
  A mark is where it was after replacing, and where there was
  none there is none.
-/
theorem Spliced.cons_cases
    {t : Token}
    (hRead : i.IsRead takesArguments tree)
    (hSpliced : i.Spliced called (t :: s) s') :
    (∃ u, s' = t :: u ∧ (t.text ∈ marks → i.Spliced false s u)) ∨
      t.text ∉ marks ∧
        ∃ t' u, s' = t' :: u ∧ t'.text ∉ marks := by
  have hName {name : String} {t : Token} (ht : IsName name t) :
      t.text ∉ marks := by
    rw [ht.text_eq]
    exact not_mem_of_isIdentifier ht.isIdentifier (by decide)
  cases hSpliced with
  | defined hWord ht hRest =>
      exact .inl ⟨_, rfl, fun h => absurd h (hName hWord)⟩
  | definedWithin hWord hOpen ht hClose hRest =>
      exact .inl ⟨_, rfl, fun h => absurd h (hName hWord)⟩
  | @replaced _ us _ s' ht hOperand hRest =>
      refine .inr ⟨hName ht, ?_⟩
      cases us with
      | nil => exact absurd rfl (hRead.ne_nil [] hOperand)
      | cons t' us =>
          exact
            ⟨t', us ++ s', rfl,
              hRead.head _ hOperand t' rfl⟩
  | kept hWord hRest =>
      exact .inl ⟨_, rfl, fun _ => hRest.loosen⟩

theorem is_eq_false
    {t : Token}
    {mark : String}
    (ht : t.text ∉ marks)
    (hMark : mark ∈ marks) :
    t.is mark = false := by
  apply beq_eq_false_iff_ne.mpr
  rintro rfl
  exact ht hMark

theorem signOf_eq_none_of_not_mem
    {t : Token}
    (ht : t.text ∉ marks) :
    signOf t = none := by
  cases hSign : signOf t with
  | none => rfl
  | some op => exact absurd (mem_marks_of_signOf hSign) ht

theorem join?_eq_none
    {level : Level}
    {text : String}
    (hLevel : level ∈ levels)
    (hText : text ∉ marks) :
    level.join? text = none := by
  cases hJoin : level.join? text with
  | none => rfl
  | some j =>
      exact absurd (mem_marks_of_join? hLevel hJoin) hText

theorem mirrors_join?
    {level : Level}
    {l r l' r' : Expression}
    {sign text text' : String}
    {j : Expression → Expression → String → Expression}
    (hJoin : level.join? sign = some j)
    (hLeft : i.Mirrors takesArguments tree l l')
    (hRight : i.Mirrors takesArguments tree r r') :
    i.Mirrors takesArguments tree (j l r text)
      (j l' r' text') := by
  cases level with
  | connective op sign' =>
      unfold Level.join? at hJoin
      dsimp only at hJoin
      split at hJoin
      · cases hJoin
        exact .connective hLeft hRight
      · cases hJoin
  | operators table =>
      rcases Option.map_eq_some_iff.mp hJoin with ⟨op, -, rfl⟩
      exact .operation hLeft hRight

/- The head of tokens behind a callable name stays. -/
theorem Spliced.head?_eq
    (hSpliced : i.Spliced true s s') :
    s'.head? = s.head? := by
  cases hSpliced <;> rfl

theorem readBuiltin_alike
    {t : Token}
    (hRead : i.IsRead takesArguments tree)
    (hSpliced : i.Spliced true s s') :
    i.ReadsAlike takesArguments tree (readBuiltin t s)
      (readBuiltin t s') := by
  have hList := hSpliced.argumentList hRead.toIsProper
  unfold readBuiltin
  split
  · rename_i as rest hArguments
    rw [hArguments] at hList
    split
    · rename_i as' rest' hArguments'
      rw [hArguments'] at hList
      cases hList with
      | some hLists => exact ⟨.builtin _ _, hLists.2⟩
    · rename_i hNone
      rw [hNone] at hList
      cases hList
  · rename_i hNone
    rw [hNone] at hList
    split
    · rename_i hSome
      rw [hSome] at hList
      cases hList
    · exact .stop _ _

theorem readReference_alike
    {t : Token}
    (hRead : i.IsRead takesArguments tree)
    (hKind : t.kind = .identifier)
    (hSpliced : i.Spliced (i.calls t) s s') :
    i.ReadsAlike takesArguments tree
      (readReference takesArguments t s)
      (readReference takesArguments t s') := by
  by_cases hTakes : takesArguments t.text = true
  · have hCalls : i.calls t = true := by
      simp [calls, hKind, hRead.calls_of_takes t.text hTakes]
    rw [hCalls] at hSpliced
    have hList := hSpliced.argumentList hRead.toIsProper
    unfold readReference
    rw [hSpliced.head?_eq]
    split
    · split
      · rename_i as rest hArguments
        rw [hArguments] at hList
        split
        · rename_i as' rest' hArguments'
          rw [hArguments'] at hList
          cases hList with
          | some hLists => exact ⟨.call hTakes hLists.1, hLists.2⟩
        · rename_i hNone
          rw [hNone] at hList
          cases hList
      · rename_i hNone
        rw [hNone] at hList
        split
        · rename_i hSome
          rw [hSome] at hList
          cases hList
        · exact ⟨.unclosedCall _ _ _, .nil⟩
    · exact ⟨.reference _, hSpliced.loosen⟩
  · unfold readReference
    simp only [hTakes, Bool.false_eq_true, false_and, if_false]
    exact ⟨.reference _, hSpliced.loosen⟩

/- A token that is kept is read in the same way. -/
theorem readPrimary_alike_of_kept
    {t : Token}
    (hRead : i.IsRead takesArguments tree)
    (hWord : t.kind = .identifier → t.text ≠ "defined")
    (hRest : i.Spliced (i.calls t) s s')
    (hWhole :
      i.ReadsAlike takesArguments tree
        (readWhole takesArguments s)
        (readWhole takesArguments s')) :
    i.ReadsAlike takesArguments tree
      (readPrimary takesArguments (t :: s))
      (readPrimary takesArguments (t :: s')) := by
  rw [readPrimary.eq_def, readPrimary.eq_def]
  dsimp only
  cases hKind : t.kind with
  | number =>
      cases numberValue? t.text with
      | none => exact .stop _ _
      | some v => exact ⟨.number v, hRest.loosen⟩
  | character =>
      cases characterValue? t.text with
      | none => exact .stop _ _
      | some v => exact ⟨.number v, hRest.loosen⟩
  | identifier =>
      have hDefined : t.is "defined" = false :=
        beq_eq_false_iff_ne.mpr (hWord hKind)
      simp only [hDefined, Bool.false_eq_true, if_false]
      apply ReadsAlike.ite
      · intro hBuiltin
        have hCalls : i.calls t = true := by
          have hMem : t.text ∈ builtins := by
            simpa using hBuiltin
          simp [calls, hKind, hRead.calls_builtin _ hMem]
        rw [hCalls] at hRest
        exact (readBuiltin_alike hRead hRest).weaken _ _
      · exact fun _ =>
          (readReference_alike hRead hKind hRest).weaken _ _
  | punctuation =>
      apply ReadsAlike.ite
      · intro _
        refine hWhole.parts ?_
        intro e e' rest rest' hLength hLength' hMirrors hBehind
        cases rest with
        | nil =>
            cases hBehind
            exact ⟨.excess hMirrors, .nil⟩
        | cons close rest =>
            rcases hBehind.cons_cases hRead with
              ⟨u, rfl, hMark⟩ | ⟨hNone, t', u, rfl, hNone'⟩
            · apply ReadsAlike.ite
              · intro hClose
                have hText : close.text = ")" :=
                  beq_iff_eq.mp hClose
                exact
                  ⟨hMirrors, hMark (by rw [hText]; decide)⟩
              · exact fun _ => ⟨.excess hMirrors, .nil⟩
            · have hMem : ")" ∈ marks := by decide
              simp only [is_eq_false hNone hMem,
                is_eq_false hNone' hMem, Bool.false_eq_true,
                if_false]
              exact ⟨.excess hMirrors, .nil⟩
      · exact fun _ => .stop _ _
  | string | other => exact .stop _ _

mutual

theorem readPrimary_alike
    (hRead : i.IsRead takesArguments tree)
    (called : Bool)
    (s s' : List Token)
    (hSpliced : i.Spliced called s s') :
    i.ReadsAlike takesArguments tree
      (readPrimary takesArguments s)
      (readPrimary takesArguments s') := by
  cases hSpliced with
  | nil =>
      rw [readPrimary.eq_def]
      exact .stop _ _
  | @defined _ name word t s s' hWord ht hRest =>
      have hGives (s : List Token) :
          Gives (readPrimary takesArguments (word :: t :: s))
            (.defined name) s :=
        (isPrimary_defined hWord ht s).1
      exact
        .of_gives (hGives s) (hGives s') (.defined _) hRest
  | @definedWithin _ name word opening t closing s s' hWord
      hOpen ht hClose hRest =>
      have hGives (s : List Token) :
          Gives
            (readPrimary takesArguments
              (word :: opening :: t :: closing :: s))
            (.defined name) s :=
        (isPrimary_definedWithin hWord hOpen ht hClose s).1
      exact
        .of_gives (hGives s) (hGives s') (.defined _) hRest
  | @replaced t us s s' ht hOperand hRest =>
      have hGives :
          Gives (readPrimary takesArguments (t :: s))
            (.reference i.name) s :=
        (isPrimary_reference ht hRead.ne_defined
          hRead.not_builtin hRead.takes_name s).1
      exact
        .of_gives hGives (hRead.gives us hOperand s') .inlined
          hRest
  | @kept _ t s s' hWord hRest =>
      exact
        readPrimary_alike_of_kept hRead hWord hRest
          (readWhole_alike hRead (i.calls t) s s' hRest)
  termination_by (s.length, 0)

theorem readSigned_alike
    (hRead : i.IsRead takesArguments tree)
    (called : Bool)
    (s s' : List Token)
    (hSpliced : i.Spliced called s s') :
    i.ReadsAlike takesArguments tree
      (readSigned takesArguments s)
      (readSigned takesArguments s') := by
  have hPrimary := readPrimary_alike hRead called s s' hSpliced
  match s with
  | [] =>
      cases hSpliced
      rw [readSigned.eq_def]
      exact .stop _ _
  | t :: s =>
      rcases hSpliced.cons_cases hRead with
        ⟨u, rfl, hMark⟩ | ⟨hNone, t', u, rfl, hNone'⟩
      · rw [readSigned.eq_def, readSigned.eq_def]
        dsimp only
        cases hSign : signOf t with
        | none => exact hPrimary
        | some op =>
            have hSigned :=
              readSigned_alike hRead false s u
                (hMark (mem_marks_of_signOf hSign))
            dsimp only
            refine hSigned.parts ?_
            intro e e' rest rest' hLength hLength' hMirrors hRest
            exact ⟨.sign hMirrors, hRest⟩
      · rw [readSigned.eq_def, readSigned.eq_def]
        simp only [signOf_eq_none_of_not_mem hNone,
          signOf_eq_none_of_not_mem hNone']
        exact hPrimary
  termination_by (s.length, 1)

theorem readOperation_alike
    (hRead : i.IsRead takesArguments tree)
    (lower : List Level)
    (hLevels : lower ⊆ levels)
    (called : Bool)
    (s s' : List Token)
    (hSpliced : i.Spliced called s s') :
    i.ReadsAlike takesArguments tree
      (readOperation takesArguments lower s)
      (readOperation takesArguments lower s') := by
  match lower with
  | [] =>
      rw [readOperation.eq_def, readOperation.eq_def]
      exact readSigned_alike hRead called s s' hSpliced
  | level :: tighter =>
      have hTighter : tighter ⊆ levels :=
        List.subset_of_cons_subset hLevels
      have hFirst :=
        readOperation_alike hRead tighter hTighter called s s'
          hSpliced
      rw [readOperation.eq_def, readOperation.eq_def]
      dsimp only
      refine hFirst.parts ?_
      intro e e' rest rest' hLength hLength' hMirrors hRest
      exact
        readFurther_alike hRead level tighter
          (hLevels List.mem_cons_self) hTighter s s' e e' rest
          rest' hLength hLength' hMirrors hRest
  termination_by (s.length, 2 * lower.length + 2)
  decreasing_by
    · exact Prod.Lex.right _ (by simp)
    · exact Prod.Lex.right _ (by simp only [List.length_cons]; omega)
    · rcases Nat.lt_or_eq_of_le hLength with hlt | heq
      · exact Prod.Lex.left _ _ hlt
      · rw [heq]
        exact Prod.Lex.right _ (by simp only [List.length_cons]; omega)

theorem readFurther_alike
    (hRead : i.IsRead takesArguments tree)
    (level : Level)
    (tighter : List Level)
    (hLevel : level ∈ levels)
    (hTighter : tighter ⊆ levels)
    (s s' : List Token)
    (e e' : Expression)
    (rest rest' : List Token)
    (hLength : rest.length ≤ s.length)
    (hLength' : rest'.length ≤ s'.length)
    (hMirrors : i.Mirrors takesArguments tree e e')
    (hRest : i.Spliced false rest rest') :
    i.ReadsAlike takesArguments tree
      (readFurther takesArguments level tighter s e rest
        hLength)
      (readFurther takesArguments level tighter s' e' rest'
        hLength') := by
  match rest with
  | [] =>
      cases hRest
      rw [readFurther.eq_def, readFurther.eq_def]
      exact ⟨hMirrors, .nil⟩
  | t :: rest =>
      rcases hRest.cons_cases hRead with
        ⟨u, rfl, hMark⟩ | ⟨hNone, t', u, rfl, hNone'⟩
      · rw [readFurther.eq_def, readFurther.eq_def]
        dsimp only
        cases hJoin : level.join? t.text with
        | none => exact ⟨hMirrors, hRest⟩
        | some j =>
            have hNext :=
              readOperation_alike hRead tighter hTighter false
                rest u (hMark (mem_marks_of_join? hLevel hJoin))
            dsimp only
            refine hNext.parts ?_
            intro f f' behind behind' hBehind hBehind' hOperand
              hFurther
            exact
              readFurther_alike hRead level tighter hLevel
                hTighter s s' _ _ behind behind' _ _
                (mirrors_join? hJoin hMirrors hOperand) hFurther
      · rw [readFurther.eq_def, readFurther.eq_def]
        simp only [join?_eq_none hLevel hNone,
          join?_eq_none hLevel hNone']
        exact ⟨hMirrors, hRest⟩
  termination_by (rest.length, 2 * tighter.length + 3)

theorem readWhole_alike
    (hRead : i.IsRead takesArguments tree)
    (called : Bool)
    (s s' : List Token)
    (hSpliced : i.Spliced called s s') :
    i.ReadsAlike takesArguments tree
      (readWhole takesArguments s)
      (readWhole takesArguments s') := by
  have hTest :=
    readOperation_alike hRead levels (List.Subset.refl _) called
      s s' hSpliced
  rw [readWhole.eq_def, readWhole.eq_def]
  refine hTest.parts ?_
  intro test test' rest rest' hLength hLength' hMirrors hRest
  match rest with
  | [] =>
      cases hRest
      exact ⟨hMirrors, .nil⟩
  | t :: rest =>
      rcases hRest.cons_cases hRead with
        ⟨u, rfl, hMark⟩ | ⟨hNone, t', u, rfl, hNone'⟩
      · apply ReadsAlike.ite
        · intro hQuestion
          have hText : t.text = "?" := beq_iff_eq.mp hQuestion
          have hYes :=
            readWhole_alike hRead false rest u
              (hMark (by rw [hText]; decide))
          refine hYes.parts ?_
          intro yes yes' behind behind' hBehind hBehind'
            hMirrors' hRest'
          match behind with
          | [] =>
              cases hRest'
              exact
                ⟨.conditional hMirrors hMirrors' .malformed,
                  .nil⟩
          | colon :: behind =>
              rcases hRest'.cons_cases hRead with
                ⟨v, rfl, hMark'⟩ |
                  ⟨hOther, t', v, rfl, hOther'⟩
              · apply ReadsAlike.ite
                · intro hColon
                  have hText : colon.text = ":" :=
                    beq_iff_eq.mp hColon
                  have hNo :=
                    readWhole_alike hRead false behind v
                      (hMark' (by rw [hText]; decide))
                  refine hNo.parts ?_
                  intro no no' last last' hLast hLast'
                    hMirrors'' hRest''
                  exact
                    ⟨.conditional hMirrors hMirrors' hMirrors'',
                      hRest''⟩
                · exact fun _ =>
                    ⟨.conditional hMirrors hMirrors' .malformed,
                      .nil⟩
              · have hMem : ":" ∈ marks := by decide
                simp only [is_eq_false hOther hMem,
                  is_eq_false hOther' hMem,
                  Bool.false_eq_true, if_false]
                exact
                  ⟨.conditional hMirrors hMirrors' .malformed,
                    .nil⟩
        · exact fun _ => ⟨hMirrors, hRest⟩
      · have hMem : "?" ∈ marks := by decide
        simp only [is_eq_false hNone hMem,
          is_eq_false hNone' hMem, Bool.false_eq_true, if_false]
        exact ⟨hMirrors, hRest⟩
  termination_by (s.length, 2 * levels.length + 3)
  decreasing_by
    · exact Prod.Lex.right _ (by simp)
    · exact Prod.Lex.left _ _ (by grind)
    · exact Prod.Lex.left _ _ (by grind)

end

/- What is read shows the name replaced in the same places. -/
theorem mirrors_read
    (hRead : i.IsRead takesArguments tree)
    (hSpliced : i.Spliced called s s') :
    i.Mirrors takesArguments tree
      (Expression.read takesArguments s)
      (Expression.read takesArguments s') := by
  have hWhole := readWhole_alike hRead called s s' hSpliced
  unfold Expression.read
  refine hWhole.parts ?_
  intro e e' rest rest' hLength hLength' hMirrors hRest
  have hNil := hRest.eq_nil_iff hRead.toIsProper
  cases rest <;> cases rest' <;> simp at hNil
  · exact hMirrors
  · exact .excess hMirrors

end Inlining

end Variability
