import Variability.Proofs.Expression.Integers

/-
  Expressions are read as the grammar has them.

  Whatever tree some tokens write, the reader finds it in them,
  at the level at which they write it and up to the first token
  that does not join in. The induction is on the way in which
  the tree is written; operators of one level are read in turn
  from the left, so for these levels it is shown what the reader
  goes on with.

  Main declarations:
    * `Grammar.ReadAs`
    * `Grammar.Writes.exists_isRead`
    * `Grammar.Writes.readAs`
-/

namespace Variability

namespace Grammar

open Expression

------------------------------------------------------------
-- Trees
------------------------------------------------------------

/- Whether the reader takes the leaves of a tree for what they are. -/
def Tree.Readable (takesArguments : String → Bool) :
    Tree → Prop
  | .literal l => l.value < 2 ^ 64
  | .character text => (characterValue? text).isSome = true
  | .defined _ => True
  | .reference name =>
      name ≠ "defined" ∧ name ∉ builtins ∧
        takesArguments name = false
  | .sign _ t => t.Readable takesArguments
  | .operation _ l r | .connective _ l r =>
      l.Readable takesArguments ∧ r.Readable takesArguments
  | .conditional test yes no =>
      test.Readable takesArguments ∧
        yes.Readable takesArguments ∧
        no.Readable takesArguments

/-
  What a tree is read as. A node that may have no value carries
  a text in which it is written.
-/
inductive ReadAs : Tree → Expression → Prop where
  | literal (l : Literal) :
      ReadAs (.literal l) (.number (Int64.ofNat l.value))
  | character {text : String} {v : Int64}
      (hValue : characterValue? text = some v) :
      ReadAs (.character text) (.number v)
  | defined (name : String) :
      ReadAs (.defined name) (.defined name)
  | reference (name : String) :
      ReadAs (.reference name) (.reference name)
  | sign {op : Sign} {t : Tree} {e : Expression}
      {level : Nat} {ts : List Token}
      (hWrites : Writes level (.sign op t) ts)
      (hRead : ReadAs t e) :
      ReadAs (.sign op t) (.sign op e (Token.spell ts))
  | operation {op : Operator} {l r : Tree}
      {e f : Expression} {level : Nat} {ts : List Token}
      (hWrites : Writes level (.operation op l r) ts)
      (hLeft : ReadAs l e)
      (hRight : ReadAs r f) :
      ReadAs (.operation op l r)
        (.operation op e f (Token.spell ts))
  | connective (op : Connective) {l r : Tree}
      {e f : Expression}
      (hLeft : ReadAs l e)
      (hRight : ReadAs r f) :
      ReadAs (.connective op l r) (.connective op e f)
  | conditional {test yes no : Tree} {e f g : Expression}
      (hTest : ReadAs test e)
      (hYes : ReadAs yes f)
      (hNo : ReadAs no g) :
      ReadAs (.conditional test yes no) (.conditional e f g)

------------------------------------------------------------
-- Readings
------------------------------------------------------------

variable {takesArguments : String → Bool}
variable {s ts rest : List Token}
variable {t : Token}
variable {tree : Tree}
variable {e : Expression}
variable {p : Nat}

/- A reading with a certain result. -/
structure Gives
    (r : Reading s)
    (e : Expression)
    (rest : List Token) : Prop where
  expression_eq : r.expression = e
  rest_eq : r.rest = rest

theorem Gives.length_le
    {r : Reading s}
    (hGives : Gives r e rest) :
    rest.length ≤ s.length := by
  rw [← hGives.rest_eq]
  exact r.length_rest

theorem Gives.exists_eq
    {r : Reading s}
    (hGives : Gives r e rest) :
    ∃ hLength, r = ⟨e, rest, hLength⟩ := by
  rcases r with ⟨e', rest', hLength⟩
  rcases hGives with ⟨hEq, hRest⟩
  dsimp only at hEq hRest
  subst hEq hRest
  exact ⟨hLength, rfl⟩

/- The tokens in front of a rest are those that were added. -/
theorem textBefore_append (ts rest : List Token) :
    textBefore (ts ++ rest) rest = Token.spell ts := by
  unfold textBefore
  rw [List.length_append, Nat.add_sub_cancel,
    List.take_left]

/- What follows does not join in at a level or a tighter one. -/
def Ends (p : Nat) (rest : List Token) : Prop :=
  ∀ t ∈ rest.head?,
    (∀ level ∈ levels.drop (p - 1),
      (level.join? t.text).isNone = true) ∧
      (p = 0 → t.text ≠ "?")

theorem ends_nil (p : Nat) : Ends p [] := by
  intro t ht
  cases ht

theorem Ends.mono
    {q : Nat}
    (hEnds : Ends p rest)
    (hLe : p ≤ q) :
    Ends q rest := by
  intro t ht
  rcases hEnds t ht with ⟨hLevels, hQuestion⟩
  refine ⟨?_, fun hZero => hQuestion (by omega)⟩
  intro level hLevel
  apply hLevels level
  have hDrop :
      levels.drop (q - 1) =
        (levels.drop (p - 1)).drop (q - 1 - (p - 1)) := by
    rw [List.drop_drop]
    congr 1
    omega
  rw [hDrop] at hLevel
  exact List.mem_of_mem_drop hLevel

/- A closing parenthesis and a colon end everything. -/
theorem ends_of_mark
    {text : String}
    (ht : IsMark text t)
    (hText : text = ")" ∨ text = ":") :
    Ends 0 (t :: rest) := by
  intro u hu
  cases hu
  rw [ht.text_eq]
  rcases hText with rfl | rfl <;>
    exact ⟨by decide, fun _ => by decide⟩

theorem ends_question
    (ht : IsMark "?" t) :
    Ends 1 (t :: rest) := by
  intro u hu
  cases hu
  rw [ht.text_eq]
  exact ⟨by decide, fun h => by cases h⟩

/- The mark of an operator ends what binds tighter. -/
theorem ends_operator
    {op : Operator}
    (ht : IsMark op.mark t) :
    Ends (op.level + 1) (t :: rest) := by
  intro u hu
  cases hu
  rw [ht.text_eq]
  refine ⟨?_, fun h => by cases h⟩
  cases op <;> decide

theorem ends_connective
    {op : Connective}
    (ht : IsMark op.mark t) :
    Ends (op.level + 1) (t :: rest) := by
  intro u hu
  cases hu
  rw [ht.text_eq]
  refine ⟨?_, fun h => by cases h⟩
  cases op <;> decide

------------------------------------------------------------
-- Levels
------------------------------------------------------------

/- Tokens that are read as an operand of a level. -/
def IsOperand
    (takesArguments : String → Bool)
    (p : Nat)
    (ts : List Token)
    (e : Expression) : Prop :=
  ∀ rest, Ends p rest →
    Gives
      (readOperation takesArguments (levels.drop (p - 1))
        (ts ++ rest))
      e rest

/-
  Tokens behind which the reader looks for more operands of a
  level, whatever follows that does not bind tighter.
-/
def IsChain
    (takesArguments : String → Bool)
    (p : Nat)
    (ts : List Token)
    (e : Expression) : Prop :=
  ∀ s rest, s = ts ++ rest → Ends (p + 1) rest →
    ∃ level tighter hLength,
      levels.drop (p - 1) = level :: tighter ∧
        readOperation takesArguments (level :: tighter) s =
          readFurther takesArguments level tighter s e rest
            hLength

/- Tokens that are read as a number, a name or in parentheses. -/
def IsPrimary
    (takesArguments : String → Bool)
    (ts : List Token)
    (e : Expression) : Prop :=
  ∀ rest,
    Gives (readPrimary takesArguments (ts ++ rest)) e rest ∧
      ∀ t ∈ (ts ++ rest).head?, signOf t = none

/- Tokens that are read as an expression at a level. -/
def IsRead
    (takesArguments : String → Bool) :
    Nat → List Token → Expression → Prop
  | 0, ts, e =>
      ∀ rest, Ends 0 rest →
        Gives (readWhole takesArguments (ts ++ rest)) e rest
  | 11, ts, e => IsOperand takesArguments 11 ts e
  | 12, ts, e => IsPrimary takesArguments ts e
  | p, ts, e => IsChain takesArguments p ts e

/- A chain ends where no operator of its level follows. -/
theorem IsChain.isOperand
    (hChain : IsChain takesArguments p ts e) :
    IsOperand takesArguments p ts e := by
  intro rest hEnds
  rcases hChain _ rest rfl (hEnds.mono (Nat.le_succ p)) with
    ⟨level, tighter, hLength, hLevels, hRead⟩
  rw [hLevels, hRead]
  unfold readFurther
  cases rest with
  | nil => exact ⟨rfl, rfl⟩
  | cons t rest =>
      have hJoin := (hEnds t rfl).1 level (by simp [hLevels])
      rw [Option.isNone_iff_eq_none] at hJoin
      simp only [hJoin]
      exact ⟨rfl, rfl⟩

theorem IsPrimary.isOperand
    (hPrimary : IsPrimary takesArguments ts e) :
    IsOperand takesArguments 11 ts e := by
  intro rest _
  rcases hPrimary rest with ⟨hGives, hSign⟩
  have hLevels : levels.drop (11 - 1) = [] := rfl
  rw [hLevels]
  unfold readOperation readSigned
  generalize ts ++ rest = s at hGives hSign
  cases s with
  | nil =>
      unfold readPrimary at hGives
      exact hGives
  | cons t s =>
      simp only [hSign t rfl]
      exact hGives

theorem IsRead.isOperand
    (hPos : 0 < p)
    (hLe : p ≤ 11)
    (hRead : IsRead takesArguments p ts e) :
    IsOperand takesArguments p ts e := by
  unfold IsRead at hRead
  split at hRead
  · cases hPos
  · exact hRead
  · omega
  · exact IsChain.isOperand hRead

/- An operand of a tighter level starts a chain. -/
theorem IsOperand.isChain
    (hPos : 0 < p)
    (hLe : p ≤ 10)
    (hOperand : IsOperand takesArguments (p + 1) ts e) :
    IsChain takesArguments p ts e := by
  rintro _ rest rfl hEnds
  have hLt : p - 1 < levels.length := by
    change p - 1 < 10
    omega
  have hLevels :
      levels.drop (p - 1) =
        levels[p - 1] :: levels.drop (p + 1 - 1) := by
    rw [List.drop_eq_getElem_cons hLt]
    congr 2
    omega
  rcases (hOperand rest hEnds).exists_eq with
    ⟨hLength, hRead⟩
  refine ⟨_, _, hLength, hLevels, ?_⟩
  rw [readOperation, hRead]

------------------------------------------------------------
-- Primaries
------------------------------------------------------------

/- A token that does not start like a sign is none. -/
theorem signOf_eq_none
    (hHead :
      ∀ c ∈ t.text.toList.head?, c ∉ ['!', '-', '+', '~']) :
    signOf t = none := by
  unfold signOf
  split <;> rename_i hText
  all_goals first
    | rfl
    | (rw [hText] at hHead
       exact absurd (hHead _ rfl) (by decide))

/- Numbers, characters and plain names are read alone. -/
theorem gives_number
    {v : Int64}
    (hKind : t.kind = .number)
    (hValue : numberValue? t.text = some v)
    (rest : List Token) :
    Gives (readPrimary takesArguments (t :: rest)) (.number v)
      rest := by
  unfold readPrimary
  simp only [hKind, hValue]
  exact ⟨rfl, rfl⟩

theorem gives_character
    {v : Int64}
    (hKind : t.kind = .character)
    (hValue : characterValue? t.text = some v)
    (rest : List Token) :
    Gives (readPrimary takesArguments (t :: rest)) (.number v)
      rest := by
  unfold readPrimary
  simp only [hKind, hValue]
  exact ⟨rfl, rfl⟩

theorem gives_reference
    (hKind : t.kind = .identifier)
    (hDefined : t.is "defined" = false)
    (hBuiltin : builtins.contains t.text = false)
    (hPlain : takesArguments t.text = false)
    (rest : List Token) :
    Gives (readPrimary takesArguments (t :: rest))
      (.reference t.text) rest := by
  unfold readPrimary
  simp only [hKind, hDefined, hBuiltin, Reading.weaken,
    readReference, hPlain, Bool.false_eq_true, if_false,
    false_and]
  exact ⟨rfl, rfl⟩

theorem gives_parentheses
    {opening closing : Token}
    (hKind : opening.kind = .punctuation)
    (hOpen : opening.is "(" = true)
    (hInside :
      Gives (readWhole takesArguments s) e (closing :: rest))
    (hClose : closing.is ")" = true) :
    Gives (readPrimary takesArguments (opening :: s)) e
      rest := by
  rcases hInside.exists_eq with ⟨hLength, hRead⟩
  unfold readPrimary
  simp only [hKind, hOpen, if_true, hRead, hClose]
  exact ⟨rfl, rfl⟩

theorem isPrimary_literal
    {l : Literal}
    (ht : IsLiteral l t)
    (hValue : l.value < 2 ^ 64) :
    IsPrimary takesArguments [t]
      (.number (Int64.ofNat l.value)) := by
  intro rest
  constructor
  · apply gives_number ht.kind_eq
    rw [ht.text_eq]
    exact l.numberValue?_text hValue
  · intro u hu
    cases hu
    apply signOf_eq_none
    rw [ht.text_eq]
    rcases l.head?_text with ⟨c, hc, hAlphanum⟩
    rw [hc]
    intro d hd
    cases hd
    intro hMem
    fin_cases hMem <;> cases hAlphanum

/- A character constant begins with its quote. -/
theorem head?_of_characterValue?
    {text : String}
    {v : Int64}
    (hValue : characterValue? text = some v) :
    text.toList.head? = some '\'' := by
  unfold characterValue? at hValue
  split at hValue
  · rename_i hText
    rw [hText]
    rfl
  · cases hValue

theorem isPrimary_character
    {text : String}
    {v : Int64}
    (ht : IsCharacter text t)
    (hValue : characterValue? text = some v) :
    IsPrimary takesArguments [t] (.number v) := by
  intro rest
  constructor
  · apply gives_character ht.kind_eq
    rw [ht.text_eq]
    exact hValue
  · intro u hu
    cases hu
    apply signOf_eq_none
    rw [ht.text_eq, head?_of_characterValue? hValue]
    intro d hd
    cases hd
    decide

/- A name does not start like a mark. -/
theorem IsName.head
    {name : String}
    (ht : IsName name t) :
    ∀ c ∈ t.text.toList.head?,
      c ∉ ['!', '-', '+', '~', '('] := by
  rcases Lexer.exists_of_isIdentifier ht.isIdentifier with
    ⟨c, cs, hChars, hOpens, -⟩
  rw [ht.text_eq, hChars]
  intro d hd
  cases hd
  intro hMem
  fin_cases hMem <;> cases hOpens

theorem IsName.signOf_eq
    {name : String}
    (ht : IsName name t) :
    signOf t = none := by
  apply signOf_eq_none
  intro c hc hMem
  exact ht.head c hc (List.mem_append_left ['('] hMem)

theorem IsName.is_open
    {name : String}
    (ht : IsName name t) :
    t.is "(" = false := by
  unfold Token.is
  rw [beq_eq_false_iff_ne]
  intro hText
  have hHead := ht.head
  rw [hText] at hHead
  exact hHead '(' rfl (by decide)

theorem is_of_text_eq
    {text : String}
    (hText : t.text = text) :
    t.is text = true :=
  beq_iff_eq.mpr hText

theorem isPrimary_defined
    {name : String}
    {word : Token}
    (hWord : IsName "defined" word)
    (ht : IsName name t) :
    IsPrimary takesArguments [word, t] (.defined name) := by
  intro rest
  constructor
  · rw [List.cons_append, List.singleton_append]
    unfold readPrimary
    simp only [hWord.kind_eq, is_of_text_eq hWord.text_eq,
      if_true, Reading.weaken, readDefined, ht.is_open,
      ht.kind_eq, ht.text_eq, Bool.false_eq_true, if_false]
    exact ⟨rfl, rfl⟩
  · intro u hu
    cases hu
    exact hWord.signOf_eq

theorem isPrimary_definedWithin
    {name : String}
    {word opening closing : Token}
    (hWord : IsName "defined" word)
    (hOpen : IsMark "(" opening)
    (ht : IsName name t)
    (hClose : IsMark ")" closing) :
    IsPrimary takesArguments [word, opening, t, closing]
      (.defined name) := by
  intro rest
  constructor
  · simp only [List.cons_append, List.nil_append]
    unfold readPrimary
    simp only [hWord.kind_eq, is_of_text_eq hWord.text_eq,
      if_true, Reading.weaken, readDefined,
      is_of_text_eq hOpen.text_eq, ht.kind_eq, ht.text_eq,
      is_of_text_eq hClose.text_eq, and_self]
    exact ⟨rfl, rfl⟩
  · intro u hu
    cases hu
    exact hWord.signOf_eq

theorem isPrimary_reference
    {name : String}
    (ht : IsName name t)
    (hDefined : name ≠ "defined")
    (hBuiltin : name ∉ builtins)
    (hPlain : takesArguments name = false) :
    IsPrimary takesArguments [t] (.reference name) := by
  intro rest
  have hWord : t.is "defined" = false := by
    unfold Token.is
    rw [ht.text_eq]
    exact beq_eq_false_iff_ne.mpr hDefined
  have hOther : builtins.contains name = false := by
    simpa using hBuiltin
  constructor
  · rw [← ht.text_eq] at hOther hPlain ⊢
    exact
      gives_reference ht.kind_eq hWord hOther hPlain rest
  · intro u hu
    cases hu
    exact ht.signOf_eq

theorem isPrimary_parentheses
    {opening closing : Token}
    (hOpen : IsMark "(" opening)
    (hInside : IsRead takesArguments 0 ts e)
    (hClose : IsMark ")" closing) :
    IsPrimary takesArguments (opening :: (ts ++ [closing]))
      e := by
  intro rest
  constructor
  · rw [List.cons_append, List.append_assoc,
      List.singleton_append]
    exact
      gives_parentheses hOpen.kind_eq
        (is_of_text_eq hOpen.text_eq)
        (hInside _ (ends_of_mark hClose (.inl rfl)))
        (is_of_text_eq hClose.text_eq)
  · intro u hu
    cases hu
    apply signOf_eq_none
    rw [hOpen.text_eq]
    intro c hc
    cases hc
    decide

------------------------------------------------------------
-- Operators
------------------------------------------------------------

theorem isRead_sign
    {op : Sign}
    {mark : Token}
    (hMark : IsMark op.mark mark)
    (hOperand : IsRead takesArguments 11 ts e) :
    IsRead takesArguments 11 (mark :: ts)
      (.sign op e (Token.spell (mark :: ts))) := by
  have hSign : signOf mark = some op := by
    unfold signOf
    rw [hMark.text_eq]
    cases op <;> rfl
  intro rest hEnds
  rcases (hOperand rest hEnds).exists_eq with
    ⟨hLength, hRead⟩
  have hLevels : levels.drop (11 - 1) = [] := rfl
  rw [hLevels] at hRead ⊢
  rw [readOperation] at hRead
  rw [List.cons_append, readOperation, readSigned]
  simp only [hSign, hRead]
  have hText := textBefore_append (mark :: ts) rest
  rw [List.cons_append] at hText
  exact ⟨congrArg (Expression.sign op e) hText, rfl⟩

/- The reader goes on behind an operand that a sign joins. -/
theorem isChain_join
    {us : List Token}
    {mark : Token}
    {f : Expression}
    {j : Expression → Expression → String → Expression}
    (hPos : 0 < p)
    (hLe : p ≤ 10)
    (hJoin :
      ∀ level ∈ levels[p - 1]?,
        level.join? mark.text = some j)
    (hEnds : ∀ rest, Ends (p + 1) (mark :: rest))
    (hLeft : IsChain takesArguments p ts e)
    (hRight : IsOperand takesArguments (p + 1) us f) :
    IsChain takesArguments p (ts ++ mark :: us)
      (j e f (Token.spell (ts ++ mark :: us))) := by
  intro s rest hs hRest
  have hSplit : s = ts ++ mark :: (us ++ rest) := by
    simp [hs]
  rcases hLeft s _ hSplit (hEnds _) with
    ⟨level, tighter, hLength, hLevels, hRead⟩
  rcases (hRight rest hRest).exists_eq with
    ⟨hLength', hNext⟩
  have hLevel : levels[p - 1]? = some level := by
    rw [← List.head?_drop, hLevels]
    rfl
  have hTighter : levels.drop (p + 1 - 1) = tighter := by
    have hDrop : (levels.drop (p - 1)).drop 1 = tighter := by
      rw [hLevels]
      rfl
    rw [← hDrop, List.drop_drop]
    congr 1
    omega
  rw [hTighter] at hNext
  have hText :
      textBefore s rest =
        Token.spell (ts ++ mark :: us) := by
    rw [hs, textBefore_append]
  have hBehind : rest.length ≤ s.length := by
    rw [hs, List.length_append]
    omega
  refine ⟨level, tighter, hBehind, hLevels, ?_⟩
  rw [hRead, readFurther]
  simp only [hJoin level hLevel, hNext, hText]

theorem isRead_of_isChain
    (hPos : 0 < p)
    (hLe : p ≤ 10)
    (hChain : IsChain takesArguments p ts e) :
    IsRead takesArguments p ts e := by
  unfold IsRead
  split
  · cases hPos
  · omega
  · omega
  · exact hChain

theorem IsRead.isChain
    (hPos : 0 < p)
    (hLe : p ≤ 10)
    (hRead : IsRead takesArguments p ts e) :
    IsChain takesArguments p ts e := by
  unfold IsRead at hRead
  split at hRead
  · cases hPos
  · omega
  · omega
  · exact hRead

theorem isRead_operation
    {op : Operator}
    {us : List Token}
    {mark : Token}
    {f : Expression}
    (hLeft : IsRead takesArguments op.level ts e)
    (hMark : IsMark op.mark mark)
    (hRight : IsRead takesArguments (op.level + 1) us f) :
    IsRead takesArguments op.level (ts ++ mark :: us)
      (.operation op e f
        (Token.spell (ts ++ mark :: us))) := by
  have hBounds : 0 < op.level ∧ op.level ≤ 10 := by
    cases op <;> decide
  apply isRead_of_isChain hBounds.1 hBounds.2
  apply isChain_join hBounds.1 hBounds.2
  · intro level hLevel
    rw [hMark.text_eq]
    cases op <;> cases hLevel <;> rfl
  · exact fun _ => ends_operator hMark
  · exact hLeft.isChain hBounds.1 hBounds.2
  · exact hRight.isOperand (by omega) (by omega)

theorem isRead_connective
    {op : Connective}
    {us : List Token}
    {mark : Token}
    {f : Expression}
    (hLeft : IsRead takesArguments op.level ts e)
    (hMark : IsMark op.mark mark)
    (hRight : IsRead takesArguments (op.level + 1) us f) :
    IsRead takesArguments op.level (ts ++ mark :: us)
      (.connective op e f) := by
  have hBounds : 0 < op.level ∧ op.level ≤ 10 := by
    cases op <;> decide
  apply isRead_of_isChain hBounds.1 hBounds.2
  apply isChain_join
    (j := fun l r _ => .connective op l r) hBounds.1
    hBounds.2
  · intro level hLevel
    rw [hMark.text_eq]
    cases op <;> cases hLevel <;> rfl
  · exact fun _ => ends_connective hMark
  · exact hLeft.isChain hBounds.1 hBounds.2
  · exact hRight.isOperand (by omega) (by omega)

/- A whole expression ends where no choice follows. -/
theorem gives_readWhole
    (hGives :
      Gives (readOperation takesArguments levels s) e rest)
    (hNot : ∀ t ∈ rest.head?, t.is "?" = false) :
    Gives (readWhole takesArguments s) e rest := by
  rcases hGives.exists_eq with ⟨hLength, hRead⟩
  rw [readWhole, hRead]
  cases rest with
  | nil => exact ⟨rfl, rfl⟩
  | cons t rest =>
      simp only [hNot t rfl, Bool.false_eq_true, if_false]
      exact ⟨rfl, rfl⟩

theorem gives_readWhole_conditional
    {us vs : List Token}
    {question colon : Token}
    {f g : Expression}
    (hTest :
      Gives (readOperation takesArguments levels s) e
        (question :: us))
    (hQuestion : question.is "?" = true)
    (hYes :
      Gives (readWhole takesArguments us) f (colon :: vs))
    (hColon : colon.is ":" = true)
    (hNo : Gives (readWhole takesArguments vs) g rest) :
    Gives (readWhole takesArguments s) (.conditional e f g)
      rest := by
  rcases hTest.exists_eq with ⟨hLength, hReadTest⟩
  rcases hYes.exists_eq with ⟨hLength', hReadYes⟩
  rcases hNo.exists_eq with ⟨hLength'', hReadNo⟩
  rw [readWhole, hReadTest]
  simp only [hQuestion, if_true, hReadYes, hColon, hReadNo]
  exact ⟨rfl, rfl⟩

/- A whole expression that does not choose. -/
theorem isRead_whole
    (hOperand : IsOperand takesArguments 1 ts e) :
    IsRead takesArguments 0 ts e := by
  intro rest hEnds
  exact
    gives_readWhole (hOperand rest (hEnds.mono (Nat.zero_le 1)))
      fun t ht => beq_eq_false_iff_ne.mpr ((hEnds t ht).2 rfl)

theorem isRead_conditional
    {us vs : List Token}
    {question colon : Token}
    {f g : Expression}
    (hTest : IsRead takesArguments 1 ts e)
    (hQuestion : IsMark "?" question)
    (hYes : IsRead takesArguments 0 us f)
    (hColon : IsMark ":" colon)
    (hNo : IsRead takesArguments 0 vs g) :
    IsRead takesArguments 0
      (ts ++ question :: (us ++ colon :: vs))
      (.conditional e f g) := by
  intro rest hEnds
  have hOperand :=
    hTest.isOperand Nat.one_pos (by decide : 1 ≤ 11)
  have hSplit :
      ts ++ question :: (us ++ colon :: vs) ++ rest =
        ts ++ question ::
          (us ++ colon :: (vs ++ rest)) := by
    simp
  rw [hSplit]
  exact
    gives_readWhole_conditional
      (hOperand _ (ends_question hQuestion))
      (is_of_text_eq hQuestion.text_eq)
      (hYes _ (ends_of_mark hColon (.inr rfl)))
      (is_of_text_eq hColon.text_eq) (hNo rest hEnds)

------------------------------------------------------------
-- Whole Expressions
------------------------------------------------------------

namespace Writes

theorem level_le
    (hWrites : Writes p tree ts) :
    p ≤ 12 := by
  induction hWrites with
  | @operation op => cases op <;> decide
  | @connective op => cases op <;> decide
  | tighter _ ih => omega
  | _ => decide

/-
  What writes a tree is read as it, by induction on the way of
  writing. From a level to a looser one the reader comes by not
  finding any sign of the looser level.
-/
theorem exists_isRead
    (hWrites : Writes p tree ts)
    (hReadable : tree.Readable takesArguments) :
    ∃ e, ReadAs tree e ∧ IsRead takesArguments p ts e := by
  induction hWrites with
  | literal ht =>
      exact ⟨_, .literal _, isPrimary_literal ht hReadable⟩
  | character ht =>
      rcases Option.isSome_iff_exists.mp hReadable with
        ⟨v, hValue⟩
      exact
        ⟨_, .character hValue, isPrimary_character ht hValue⟩
  | defined hWord ht =>
      exact ⟨_, .defined _, isPrimary_defined hWord ht⟩
  | definedWithin hWord hOpen ht hClose =>
      exact
        ⟨_, .defined _,
          isPrimary_definedWithin hWord hOpen ht hClose⟩
  | reference ht =>
      rcases hReadable with ⟨hDefined, hBuiltin, hPlain⟩
      exact
        ⟨_, .reference _,
          isPrimary_reference ht hDefined hBuiltin hPlain⟩
  | parentheses hOpen _ hClose ih =>
      rcases ih hReadable with ⟨e, hAs, hRead⟩
      exact
        ⟨e, hAs, isPrimary_parentheses hOpen hRead hClose⟩
  | sign hMark hOperand ih =>
      rcases ih hReadable with ⟨e, hAs, hRead⟩
      exact
        ⟨_, .sign (.sign hMark hOperand) hAs,
          isRead_sign hMark hRead⟩
  | operation hLeft hMark hRight ihLeft ihRight =>
      rcases ihLeft hReadable.1 with ⟨e, hAs, hRead⟩
      rcases ihRight hReadable.2 with ⟨f, hAs', hRead'⟩
      exact
        ⟨_, .operation (.operation hLeft hMark hRight) hAs
            hAs',
          isRead_operation hRead hMark hRead'⟩
  | connective hLeft hMark hRight ihLeft ihRight =>
      rcases ihLeft hReadable.1 with ⟨e, hAs, hRead⟩
      rcases ihRight hReadable.2 with ⟨f, hAs', hRead'⟩
      exact
        ⟨_, .connective _ hAs hAs',
          isRead_connective hRead hMark hRead'⟩
  | conditional hTest hQuestion hYes hColon hNo ihTest ihYes
      ihNo =>
      rcases hReadable with ⟨hFirst, hSecond, hThird⟩
      rcases ihTest hFirst with ⟨e, hAs, hRead⟩
      rcases ihYes hSecond with ⟨f, hAs', hRead'⟩
      rcases ihNo hThird with ⟨g, hAs'', hRead''⟩
      exact
        ⟨_, .conditional hAs hAs' hAs'',
          isRead_conditional hRead hQuestion hRead' hColon
            hRead''⟩
  | @tighter level tree ts hTighter ih =>
      rcases ih hReadable with ⟨e, hAs, hRead⟩
      refine ⟨e, hAs, ?_⟩
      have hLe := hTighter.level_le
      rcases Nat.eq_zero_or_pos level with rfl | hPos
      · exact
          isRead_whole
            (hRead.isOperand Nat.one_pos (by decide))
      · rcases Nat.lt_or_ge level 11 with hLt | hGe
        · apply isRead_of_isChain hPos (by omega)
          apply IsOperand.isChain hPos (by omega)
          exact hRead.isOperand (by omega) (by omega)
        · have hLevel : level = 11 := by omega
          subst hLevel
          exact IsPrimary.isOperand hRead

/- All tokens that write a tree are read as the tree. -/
theorem readAs
    (hWrites : Writes 0 tree ts)
    (hReadable : tree.Readable takesArguments) :
    ReadAs tree (Expression.read takesArguments ts) := by
  rcases hWrites.exists_isRead hReadable with
    ⟨e, hAs, hRead⟩
  have hGives := hRead [] (ends_nil 0)
  rw [List.append_nil] at hGives
  rcases hGives.exists_eq with ⟨hLength, hEq⟩
  unfold Expression.read
  rw [hEq]
  exact hAs

end Writes

end Grammar

end Variability
