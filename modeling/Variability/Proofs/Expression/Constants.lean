import Variability.Proofs.Expression.Typed

/-
  Constant conditions of expressions of integers.

  An operation that cannot be carried out becomes an atom that
  carries its text, and so does what is done with the result.
  If every such text is given the truth that its tree has, the
  condition has the truth of the whole tree. A condition that is
  constant has it whatever truth the texts are given.

  Main declarations:
    * `Grammar.Writes.constant_eq_of_spell_eq`
    * `Grammar.Writes.constant_condition`
    * `Grammar.Writes.typed_condition`
-/

namespace Variability

open Expression

namespace Grammar

variable {p q : Nat}
variable {tree tree' : Tree}
variable {ts us : List Token}
variable {t : Token}
variable {f : Expression}

------------------------------------------------------------
-- Texts
------------------------------------------------------------

/- The kind of a token of an expression of integers. -/
def kindOf (text : String) : TokenKind :=
  if text.toList.head?.any Char.isAlphanum then .number
  else .punctuation

/- A token that its text alone tells, without a blank in it. -/
structure IsClear (t : Token) : Prop where
  kind_eq : t.kind = kindOf t.text
  noBlank : ' ' ∉ t.text.toList

theorem IsMark.isClear
    {text : String}
    (ht : IsMark text t)
    (hKind : kindOf text = .punctuation)
    (hBlank : ' ' ∉ text.toList) :
    IsClear t where
  kind_eq := by rw [ht.kind_eq, ht.text_eq, hKind]
  noBlank := by rw [ht.text_eq]; exact hBlank

theorem Literal.noBlank (l : Literal) :
    ' ' ∉ l.text.toList := by
  have hDigit (d : Digit l.radix.base) : ' ' ≠ d.char :=
    d.forall_char (fun _ c => ' ' ≠ c) (by decide)
      l.radix.base_le
  have hSuffix :
      ∀ suffix ∈ suffixes, ' ' ∉ suffix.toList := by
    simp [suffixes]
  have hMark :
      ∀ radix : Radix, ∀ capital,
        ' ' ∉ radix.mark capital := by
    intro radix capital
    cases radix <;> cases capital <;> decide
  unfold Literal.text Literal.digits
  rw [String.toList_ofList]
  simp only [List.mem_append, List.mem_cons,
    List.mem_flatMap, not_or, not_exists, not_and]
  refine
    ⟨⟨hMark _ _, hDigit _, ?_⟩, hSuffix _ l.suffix_mem⟩
  rintro ⟨separated, d⟩ -
  cases separated <;> simp [hDigit d]

theorem IsLiteral.isClear
    {l : Literal}
    (ht : IsLiteral l t) :
    IsClear t where
  kind_eq := by
    rcases l.head?_text with ⟨c, hc, hAlphanum⟩
    rw [ht.kind_eq, ht.text_eq, kindOf, hc]
    simp [hAlphanum]
  noBlank := by
    rw [ht.text_eq]
    exact l.noBlank

namespace Writes

/- The tokens of an expression of integers are clear. -/
theorem isClear
    (hWrites : Writes p tree ts)
    (hIntegral : tree.IsIntegral) :
    ∀ t ∈ ts, IsClear t := by
  induction hWrites with
  | literal ht =>
      intro u hu
      rw [List.mem_singleton.mp hu]
      exact ht.isClear
  | character _ => cases hIntegral
  | defined _ _ => cases hIntegral
  | definedWithin _ _ _ _ => cases hIntegral
  | reference _ => cases hIntegral
  | parentheses hOpen _ hClose ih =>
      intro u hu
      simp only [List.mem_cons, List.mem_append,
        List.not_mem_nil, or_false] at hu
      rcases hu with rfl | hu | rfl
      · exact hOpen.isClear (by decide) (by decide)
      · exact ih hIntegral u hu
      · exact hClose.isClear (by decide) (by decide)
  | @sign op _ _ _ hMark _ ih =>
      intro u hu
      rcases List.mem_cons.mp hu with rfl | hu
      · apply hMark.isClear <;> cases op <;> decide
      · exact ih hIntegral u hu
  | @operation op _ _ _ _ _ _ hMark _ ihLeft ihRight =>
      intro u hu
      simp only [List.mem_append, List.mem_cons] at hu
      rcases hu with hu | rfl | hu
      · exact ihLeft hIntegral.1 u hu
      · apply hMark.isClear <;> cases op <;> decide
      · exact ihRight hIntegral.2 u hu
  | @connective op _ _ _ _ _ _ hMark _ ihLeft ihRight =>
      intro u hu
      simp only [List.mem_append, List.mem_cons] at hu
      rcases hu with hu | rfl | hu
      · exact ihLeft hIntegral.1 u hu
      · apply hMark.isClear <;> cases op <;> decide
      · exact ihRight hIntegral.2 u hu
  | conditional _ hQuestion _ hColon _ ihTest ihYes ihNo =>
      intro u hu
      simp only [List.mem_append, List.mem_cons] at hu
      rcases hu with hu | rfl | hu | rfl | hu
      · exact ihTest hIntegral.1 u hu
      · exact hQuestion.isClear (by decide) (by decide)
      · exact ihYes hIntegral.2.1 u hu
      · exact hColon.isClear (by decide) (by decide)
      · exact ihNo hIntegral.2.2 u hu
  | tighter _ ih => exact ih hIntegral

/- Nothing is not a way to write a tree. -/
theorem ne_nil
    (hWrites : Writes p tree ts) :
    ts ≠ [] := by
  induction hWrites with
  | tighter _ ih => exact ih
  | _ => simp

/- Where the tokens stand does not matter for what they write. -/
theorem map_tokenOf
    (hWrites : Writes p tree ts) :
    Writes p tree (ts.map fun t => tokenOf t.kind t.text) := by
  induction hWrites with
  | literal ht => exact .literal ⟨ht.kind_eq, ht.text_eq⟩
  | character ht => exact .character ⟨ht.kind_eq, ht.text_eq⟩
  | defined hWord ht =>
      exact
        .defined
          ⟨hWord.kind_eq, hWord.text_eq, hWord.isIdentifier⟩
          ⟨ht.kind_eq, ht.text_eq, ht.isIdentifier⟩
  | definedWithin hWord hOpen ht hClose =>
      exact
        .definedWithin
          ⟨hWord.kind_eq, hWord.text_eq, hWord.isIdentifier⟩
          ⟨hOpen.kind_eq, hOpen.text_eq⟩
          ⟨ht.kind_eq, ht.text_eq, ht.isIdentifier⟩
          ⟨hClose.kind_eq, hClose.text_eq⟩
  | reference ht =>
      exact .reference ⟨ht.kind_eq, ht.text_eq, ht.isIdentifier⟩
  | parentheses hOpen _ hClose ih =>
      rw [List.map_cons, List.map_append]
      exact
        .parentheses ⟨hOpen.kind_eq, hOpen.text_eq⟩ ih
          ⟨hClose.kind_eq, hClose.text_eq⟩
  | sign hMark _ ih =>
      exact .sign ⟨hMark.kind_eq, hMark.text_eq⟩ ih
  | operation _ hMark _ ihLeft ihRight =>
      rw [List.map_append, List.map_cons]
      exact
        .operation ihLeft ⟨hMark.kind_eq, hMark.text_eq⟩
          ihRight
  | connective _ hMark _ ihLeft ihRight =>
      rw [List.map_append, List.map_cons]
      exact
        .connective ihLeft ⟨hMark.kind_eq, hMark.text_eq⟩
          ihRight
  | conditional _ hQuestion _ hColon _ ihTest ihYes ihNo =>
      rw [List.map_append, List.map_cons, List.map_append,
        List.map_cons]
      exact
        .conditional ihTest
          ⟨hQuestion.kind_eq, hQuestion.text_eq⟩ ihYes
          ⟨hColon.kind_eq, hColon.text_eq⟩ ihNo
  | tighter _ ih => exact .tighter ih

end Writes

/- A text without blanks in its words tells the words. -/
theorem map_text_eq_of_spell_eq
    (hClear : ∀ t ∈ ts, IsClear t)
    (hClear' : ∀ t ∈ us, IsClear t)
    (hNonempty : ts ≠ [])
    (hNonempty' : us ≠ [])
    (hSpell : Token.spell ts = Token.spell us) :
    ts.map (·.text) = us.map (·.text) := by
  have hSplit {vs : List Token}
      (hClear : ∀ t ∈ vs, IsClear t)
      (hNonempty : vs ≠ []) :
      (Token.spell vs).toList.splitOn ' ' =
        vs.map (·.text.toList) := by
    unfold Token.spell
    rw [String.toList_intercalate, List.map_map]
    apply List.splitOn_intercalate
    · intro cs hcs
      rcases List.mem_map.mp hcs with ⟨t, ht, rfl⟩
      exact (hClear t ht).noBlank
    · simpa using hNonempty
  have hLists :
      ts.map (·.text.toList) = us.map (·.text.toList) := by
    rw [← hSplit hClear hNonempty, hSpell,
      hSplit hClear' hNonempty']
  have hBack := congrArg (List.map String.ofList) hLists
  simpa [Function.comp_def] using hBack

------------------------------------------------------------
-- Words of Trees
------------------------------------------------------------

theorem Tree.IsIntegral.isConstant
    (hIntegral : tree.IsIntegral) :
    tree.isConstant = true := by
  induction tree with
  | literal l => rfl
  | character text => cases hIntegral
  | defined name => cases hIntegral
  | reference name => cases hIntegral
  | sign op t ih => exact ih hIntegral
  | operation op l r ihl ihr | connective op l r ihl ihr =>
      rw [Tree.isConstant, ihl hIntegral.1, ihr hIntegral.2]
      rfl
  | conditional test yes no ihTest ihYes ihNo =>
      rw [Tree.isConstant, ihTest hIntegral.1,
        ihYes hIntegral.2.1, ihNo hIntegral.2.2]
      rfl

theorem Tree.IsIntegral.readable
    (hIntegral : tree.IsIntegral)
    (takesArguments : String → Bool) :
    tree.Readable takesArguments := by
  induction tree with
  | literal l =>
      have hType : InType l.isUnsigned l.value := hIntegral
      unfold InType at hType
      change l.value < 2 ^ 64
      split at hType <;> omega
  | character text => cases hIntegral
  | defined name => cases hIntegral
  | reference name => cases hIntegral
  | sign op t ih => exact ih hIntegral
  | operation op l r ihl ihr | connective op l r ihl ihr =>
      exact ⟨ihl hIntegral.1, ihr hIntegral.2⟩
  | conditional test yes no ihTest ihYes ihNo =>
      exact
        ⟨ihTest hIntegral.1, ihYes hIntegral.2.1,
          ihNo hIntegral.2.2⟩

/- What a constant is read as has its value without any macro. -/
theorem ReadAs.toInt_valueIn
    (hRead : ReadAs tree f)
    (hConstant : tree.isConstant = true) :
    (f.valueIn fun _ => none).toInt = tree.constant := by
  induction hRead with
  | literal l => exact Int64.toInt_ofNat'
  | @character text v hValue =>
      change v.toInt =
        ((characterValue? text).getD 0).toInt
      rw [hValue]
      rfl
  | defined name => cases hConstant
  | reference name => cases hConstant
  | sign _ _ ih =>
      rw [valueIn, Sign.toInt_apply, ih hConstant]
      rfl
  | @operation op l r _ _ _ _ _ _ _ ihl ihr =>
      rw [Tree.isConstant, Bool.and_eq_true] at hConstant
      have hValue :
          (Tree.operation op l r).constant =
            (op.value? l.constant r.constant).getD 0 := rfl
      rw [valueIn, hValue, ← ihl hConstant.1,
        ← ihr hConstant.2, ← Operator.toInt_compute?,
        Operator.apply]
      cases op.compute? _ _ <;> rfl
  | connective op _ _ ihl ihr =>
      rw [Tree.isConstant, Bool.and_eq_true] at hConstant
      rw [valueIn, Connective.toInt_apply, ihl hConstant.1,
        ihr hConstant.2]
      rfl
  | @conditional test yes no _ _ _ _ _ _ ihTest ihYes ihNo =>
      rw [Tree.isConstant, Bool.and_eq_true,
        Bool.and_eq_true] at hConstant
      have hValue :
          (Tree.conditional test yes no).constant =
            if test.constant ≠ 0 then yes.constant
            else no.constant := rfl
      rw [valueIn, hValue, ← ihTest hConstant.1.1,
        ← ihYes hConstant.1.2, ← ihNo hConstant.2]
      simp only [ne_eq, toInt_eq_zero_iff, ite_not, toInt_ite]

namespace Writes

/- Trees that are written by the same text have the same value. -/
theorem constant_eq_of_spell_eq
    (hWrites : Writes p tree ts)
    (hWrites' : Writes q tree' us)
    (hIntegral : tree.IsIntegral)
    (hIntegral' : tree'.IsIntegral)
    (hSpell : Token.spell ts = Token.spell us) :
    tree.constant = tree'.constant := by
  have hClear := hWrites.isClear hIntegral
  have hClear' := hWrites'.isClear hIntegral'
  have hTexts :=
    map_text_eq_of_spell_eq hClear hClear' hWrites.ne_nil
      hWrites'.ne_nil hSpell
  have hKinds {vs : List Token}
      (hClear : ∀ t ∈ vs, IsClear t) :
      vs.map (fun t => tokenOf t.kind t.text) =
        (vs.map (·.text)).map fun x =>
          tokenOf (kindOf x) x := by
    rw [List.map_map]
    apply List.map_congr_left
    intro t ht
    rw [(hClear t ht).kind_eq]
    rfl
  have hSame :
      ts.map (fun t => tokenOf t.kind t.text) =
        us.map fun t => tokenOf t.kind t.text := by
    rw [hKinds hClear, hKinds hClear', hTexts]
  have hRead :=
    (hWrites.map_tokenOf.of_le (Nat.zero_le p)).readAs
      (hIntegral.readable fun _ => false)
  have hRead' :=
    (hWrites'.map_tokenOf.of_le (Nat.zero_le q)).readAs
      (hIntegral'.readable fun _ => false)
  rw [← hRead.toInt_valueIn hIntegral.isConstant,
    ← hRead'.toInt_valueIn hIntegral'.isConstant, hSame]

end Writes

------------------------------------------------------------
-- Truths of Texts
------------------------------------------------------------

open Classical in
/- A text is true that writes a tree of a value other than zero. -/
noncomputable def truthOf : Atom → Bool
  | .defined _ => false
  | .verbatim text =>
      decide
        (∃ p tree ts, Writes p tree ts ∧ tree.IsIntegral ∧
          Token.spell ts = text ∧ tree.constant ≠ 0)

theorem Writes.truthOf_spell
    (hWrites : Writes p tree ts)
    (hIntegral : tree.IsIntegral) :
    truthOf (.verbatim (Token.spell ts)) =
      decide (tree.constant ≠ 0) := by
  unfold truthOf
  rw [decide_eq_decide]
  constructor
  · rintro ⟨q, tree', us, hWrites', hIntegral', hSpell, hNe⟩
    rw [hWrites.constant_eq_of_spell_eq hWrites' hIntegral
      hIntegral' hSpell.symm]
    exact hNe
  · intro hNe
    exact ⟨p, tree, ts, hWrites, hIntegral, rfl, hNe⟩

------------------------------------------------------------
-- Conditions
------------------------------------------------------------

/-
  Where texts have the truth of their trees, so has a tree of
  integers, whatever part of it could not be computed.
-/
theorem ReadAs.exists_outcome_of_truths
    {m : Outcomes}
    (hRead : ReadAs tree f)
    (hIntegral : tree.IsIntegral)
    (hTruth :
      ∀ text, m.verbatim text = truthOf (.verbatim text)) :
    ∃ o, f.outcome? m = some o ∧
      IsOutcome false tree.constant o := by
  have hText
      {tree : Tree} {level : Nat} {ts : List Token}
      (hWrites : Writes level tree ts)
      (hIntegral : tree.IsIntegral) :
      IsOutcome false tree.constant
        (m.orVerbatim none (Token.spell ts)) :=
    ⟨rfl, (hTruth _).trans (hWrites.truthOf_spell hIntegral)⟩
  induction hRead with
  | literal l => exact ⟨_, rfl, Int64.toInt_ofNat'⟩
  | character _ => cases hIntegral
  | defined name => cases hIntegral
  | reference name => cases hIntegral
  | @sign op t f level ts hWrites _ ih =>
      rcases ih hIntegral with ⟨o, hSome, hOutcome⟩
      refine ⟨_, outcome?_sign op _ hSome, ?_⟩
      by_cases hNot : op = .not
      · exact hOutcome.sign (.inl hNot) m _
      · cases o with
        | number v =>
            rw [Sign.outcome?_number]
            have hValue : v.toInt = t.constant := hOutcome
            change (op.apply v).toInt = op.value t.constant
            rw [← hValue, Sign.toInt_apply]
        | truth b =>
            have hNone : op.outcome? (.truth b) = none := by
              cases op <;> first | rfl | exact absurd rfl hNot
            rw [hNone]
            exact hText hWrites hIntegral
  | @operation op l r _ _ level ts hWrites _ _ ihl ihr =>
      rcases ihl hIntegral.1 with ⟨o, hSome, hOutcome⟩
      rcases ihr hIntegral.2 with ⟨o', hSome', hOutcome'⟩
      refine ⟨_, outcome?_operation op _ hSome hSome', ?_⟩
      cases hResult : op.outcome? o o' with
      | none => exact hText hWrites hIntegral
      | some x =>
          rcases op.exists_of_outcome? hResult with
            ⟨v, w, y, rfl, rfl, hy, rfl⟩
          have hLeft : v.toInt = l.constant := hOutcome
          have hRight : w.toInt = r.constant := hOutcome'
          change
            y.toInt =
              (op.value? l.constant r.constant).getD 0
          rw [← hLeft, ← hRight, ← op.toInt_compute?, hy]
          rfl
  | connective op _ _ ihl ihr =>
      rcases ihl hIntegral.1 with ⟨o, hSome, hOutcome⟩
      rcases ihr hIntegral.2 with ⟨o', hSome', hOutcome'⟩
      exact
        ⟨_, outcome?_connective op hSome hSome',
          hOutcome.connective op hOutcome'⟩
  | conditional _ _ _ ihTest ihYes ihNo =>
      rcases ihTest hIntegral.1 with ⟨o, hSome, hOutcome⟩
      rcases ihYes hIntegral.2.1 with ⟨o', hSome', hOutcome'⟩
      rcases ihNo hIntegral.2.2 with
        ⟨o'', hSome'', hOutcome''⟩
      exact
        ⟨_, outcome?_conditional hSome hSome' hSome'',
          hOutcome.conditional hOutcome' hOutcome''⟩

namespace Writes

variable {s : Space}
variable {e : Evaluator}
variable {tokens : List Token}

/-
  A condition of an expression of integers that is constant is
  the truth of the tree, its integers taken as signed words.
-/
theorem constant_condition
    (hSound : s.Sound)
    (hTable : Definitions.IsLive s e.definitions)
    (hWrites : Writes 0 tree tokens)
    (hIntegral : tree.IsIntegral) :
    let c := (e.condition tokens s).1
    (c = .one → tree.constant ≠ 0) ∧
      (c = .zero → tree.constant = 0) := by
  have hSays (W : World) :=
    Evaluator.ensures_condition_in hTable W tokens s hSound
      (.refl s)
  have hSound' := (hSays ⟨fun _ => true, truthOf⟩).1
  let s' := (e.condition tokens s).2
  let a := Coupling.assignment s' truthOf
  let W : World := ⟨fun c => s'.manager.eval c a, truthOf⟩
  have hEval :
      s'.manager.eval (e.condition tokens s).1 a =
        e.holdsIn W tokens :=
    (hSays W).2.2.eval_eq s' hSound' (.refl _) a
      ⟨Coupling.assigns_assignment s' truthOf,
        fun _ _ _ => rfl⟩
  have hRead :=
    hWrites.readAs (hIntegral.readable (e.takesArguments []))
  rcases
      hRead.exists_outcome_of_truths hIntegral
        (m :=
          e.outcomes W [] fun name =>
            e.bodyOutcome W e.definitions.length [name])
        (fun _ => rfl) with
    ⟨o, hSome, hOutcome⟩
  have hHolds :
      e.holdsIn W tokens = decide (tree.constant ≠ 0) := by
    unfold Evaluator.holdsIn Evaluator.bodyOutcome
    rw [Evaluator.outcomeWithin_succ, hSome,
      Option.getD_some, hOutcome.holds]
  rw [hHolds] at hEval
  constructor
  · intro hOne
    rw [hOne, Diagram.Manager.eval_one] at hEval
    exact of_decide_eq_true hEval.symm
  · intro hZero
    rw [hZero, Diagram.Manager.eval_zero] at hEval
    simpa using of_decide_eq_false hEval.symm

/- If no division fails, the condition is one or zero. -/
theorem condition_eq_of_isAdmitted
    (hSound : s.Sound)
    (hTable : Definitions.IsLive s e.definitions)
    (hWrites : Writes 0 tree tokens)
    (hAdmitted : tree.IsAdmitted e)
    (hConstant : tree.isConstant = true) :
    (e.condition tokens s).1 =
      if tree.constant ≠ 0 then .one else .zero := by
  have hHolds (W : World) :
      e.holdsIn W tokens = decide (tree.constant ≠ 0) := by
    rw [hWrites.holdsIn_eq hAdmitted,
      Tree.value_of_isConstant hConstant]
  rw [Evaluator.condition_eq_of_holdsIn hSound hTable
    fun _ => hHolds _]
  simp only [decide_eq_true_iff]

/-
  A constant condition of an expression of integers is the truth
  that the expression has with the types of its integers, as
  long as no sign bit of an unsigned operand matters.
-/
theorem typed_condition
    {n : Int}
    (hSound : s.Sound)
    (hTable : Definitions.IsLive s e.definitions)
    (hWrites : Writes 0 tree tokens)
    (hIntegral : tree.IsIntegral)
    (hValue : tree.typedValue? = some n)
    (hLow : tree.StaysLow) :
    let c := (e.condition tokens s).1
    (c = .one → n ≠ 0) ∧ (c = .zero → n = 0) := by
  rcases tree.constant_eq_word hIntegral hLow hValue with
    ⟨hWord, hType⟩
  have hZero : tree.constant = 0 ↔ n = 0 := by
    rw [hWord, word_eq_zero_iff hType]
  have hConstant :=
    constant_condition (e := e) hSound hTable hWrites
      hIntegral
  intro c
  exact
    ⟨fun hOne => hZero.not.mp (hConstant.1 hOne),
      fun h => hZero.mp (hConstant.2 h)⟩

end Writes

------------------------------------------------------------
-- Signs
------------------------------------------------------------

/- An expression with its value and the condition that it has. -/
structure Answered
    (tree : Tree)
    (tokens : List Token)
    (n : Int)
    (c : Condition) : Prop where
  writes : Writes 0 tree tokens
  isIntegral : tree.IsIntegral
  typedValue?_eq : tree.typedValue? = some n
  condition_eq :
    (Evaluator.condition ⟨[], fun _ => false⟩ tokens
      .empty).1 = c

theorem isLive_empty : Definitions.IsLive .empty [] :=
  fun _ _ hd => by cases hd

theorem answered
    {tokens : List Token}
    {n : Int}
    {c : Condition}
    (hWrites : Writes 0 tree tokens)
    (hIntegral : tree.IsIntegral)
    (hValue : tree.typedValue? = some n)
    (hAdmitted : tree.IsAdmitted ⟨[], fun _ => false⟩)
    (hCondition :
      (if tree.constant ≠ 0 then .one else .zero) = c) :
    Answered tree tokens n c where
  writes := hWrites
  isIntegral := hIntegral
  typedValue?_eq := hValue
  condition_eq := by
    rw [← hCondition]
    exact
      hWrites.condition_eq_of_isAdmitted
        Space.Reached.empty.sound isLive_empty hAdmitted
        hIntegral.isConstant

/- The expression `-1` as a tree, and its tokens. -/
def minusOne : Tree :=
  .sign .minus (.literal one)

def minusOneTokens : List Token :=
  [tokenOf .punctuation "-", one.token]

theorem writes_minusOne : Writes 11 minusOne minusOneTokens :=
  .sign ⟨rfl, rfl⟩ ((writes_token one).of_le (by decide))

/-
  Words count as signed also where the operands are not: `-1`
  is less than `0u`, half of the largest integer is nothing, and
  shifting it to the right makes it negative.
-/
theorem unsigned_operands_count_as_signed :
    Answered
        (.operation .less minusOne
          (.literal (zeroWith "u" (by decide))))
        (joined .less minusOneTokens
          [(zeroWith "u" (by decide)).token])
        0 .one ∧
      Answered
        (.operation .divide (.literal allOnes) (.literal two))
        (joined .divide [allOnes.token] [two.token])
        (2 ^ 63 - 1) .zero ∧
      Answered
        (.operation .less
          (.operation .shiftRight (.literal allOnes)
            (.literal one))
          (.literal (zeroWith "" (by decide))))
        (joined .less
          (joined .shiftRight [allOnes.token] [one.token])
          [(zeroWith "" (by decide)).token])
        0 .one := by
  refine ⟨?_, ?_, ?_⟩
  · have hWrites :=
      writes_joined .less writes_minusOne
        (writes_token (zeroWith "u" (by decide)))
        (by decide) (by decide)
    exact
      answered (hWrites.of_le (Nat.zero_le _)) (by decide)
        (by decide) (by decide) (by decide)
  · have hWrites :=
      writes_joined .divide (writes_token allOnes)
        (writes_token two) (by decide) (by decide)
    exact
      answered (hWrites.of_le (Nat.zero_le _)) (by decide)
        (by decide) (by decide) (by decide)
  · have hShift :=
      writes_joined .shiftRight (writes_token allOnes)
        (writes_token one) (by decide) (by decide)
    have hWrites :=
      writes_joined .less hShift
        (writes_token (zeroWith "" (by decide))) (by decide)
        (by decide)
    exact
      answered (hWrites.of_le (Nat.zero_le _)) (by decide)
        (by decide) (by decide) (by decide)

/- The expression `-1 == 0xFFFFFFFFFFFFFFFF`, and its tokens. -/
def sameBits : Tree :=
  .operation .equal minusOne (.literal allOnes)

def sameBitsTokens : List Token :=
  joined .equal minusOneTokens [allOnes.token]

theorem answered_sameBits :
    Answered sameBits sameBitsTokens 1 .one := by
  have hWrites :=
    writes_joined .equal writes_minusOne
      (writes_token allOnes) (by decide) (by decide)
  exact
    answered (hWrites.of_le (Nat.zero_le _)) (by decide)
      (by decide) (by decide) (by decide)

/- Equality does not depend on signs. -/
theorem typed_condition_sameBits :
    let c :=
      (Evaluator.condition ⟨[], fun _ => false⟩
        sameBitsTokens .empty).1
    (Answered sameBits sameBitsTokens 1 .one ∧
        sameBits.StaysLow) ∧
      (c = .one → (1 : Int) ≠ 0) ∧
        (c = .zero → (1 : Int) = 0) := by
  have hAnswered := answered_sameBits
  have hLow : sameBits.StaysLow :=
    ⟨trivial, trivial, fun _ _ _ _ => trivial⟩
  exact
    ⟨⟨hAnswered, hLow⟩,
      hAnswered.writes.typed_condition
        Space.Reached.empty.sound isLive_empty
        hAnswered.isIntegral hAnswered.typedValue?_eq hLow⟩

end Grammar

end Variability
