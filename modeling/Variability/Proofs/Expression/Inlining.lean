import Variability.Proofs.Expression.Outcome
import Variability.Proofs.Expression.Splicing

/-
  Macros count as their value.

  The body of a macro is an expression of its own. A macro with
  one definition that is in force everywhere can therefore be
  replaced by its body as an operand, which is the body itself
  or the body in parentheses, and the condition stays the same
  one. The induction is on how many calls can still be inside
  each other; verbatim atoms are false throughout, since the
  conditions do not depend on them.

  Main declarations:
    * `IsOperandOf`
    * `Evaluator.Inlines`
    * `Evaluator.bodyOutcome_spliced`
    * `Evaluator.holdsIn_spliced`
-/

namespace Variability

open Expression
open Grammar

------------------------------------------------------------
-- Operands
------------------------------------------------------------

namespace Expression

variable {s body us : List Token}
variable {t : Token}
variable {tree : Expression}
variable {p : String → Bool}
variable {takesArguments : String → Bool}

/- An operand with nothing behind it is read at every level. -/
theorem readOperation_of_readPrimary
    (hHead : ∀ t ∈ s.head?, t.text ∉ marks)
    (hGives : Gives (readPrimary takesArguments s) tree [])
    (lower : List Level) :
    Gives (readOperation takesArguments lower s) tree [] := by
  induction lower with
  | nil =>
      rw [readOperation.eq_def]
      cases s with
      | nil =>
          rw [readPrimary.eq_def] at hGives
          dsimp only
          rw [readSigned.eq_def]
          exact hGives
      | cons t s =>
          have hSign :=
            Inlining.signOf_eq_none_of_not_mem (hHead t rfl)
          dsimp only
          rw [readSigned.eq_def]
          simp only [hSign]
          exact hGives
  | cons level tighter ih =>
      rcases ih.exists_eq with ⟨hLength, hEq⟩
      rw [readOperation.eq_def]
      simp only [hEq]
      rw [readFurther.eq_def]
      exact ⟨rfl, rfl⟩

theorem read_of_readPrimary
    (hHead : ∀ t ∈ s.head?, t.text ∉ marks)
    (hGives : Gives (readPrimary takesArguments s) tree []) :
    read takesArguments s = tree := by
  have hWhole :=
    gives_readWhole
      (readOperation_of_readPrimary hHead hGives levels)
      fun t ht => by cases ht
  rcases hWhole.exists_eq with ⟨hLength, hEq⟩
  unfold read
  rw [hEq]

/- A whole expression is read with nothing left. -/
theorem gives_readWhole_of_isOver
    (hOver : (read takesArguments s).isOver p = true) :
    Gives (readWhole takesArguments s)
      (read takesArguments s) [] := by
  unfold read at hOver ⊢
  rcases hRead : readWhole takesArguments s with
    ⟨e, rest, hLength⟩
  rw [hRead] at hOver
  cases rest with
  | nil => exact ⟨rfl, rfl⟩
  | cons t rest => cases hOver

/- What takes arguments elsewhere does not matter to a reader. -/
theorem read_eq_of_isOver
    (hNames : HasNames s)
    (hOver : (read (fun _ => false) s).isOver p = true)
    (hPlain :
      ∀ name, p name = true → takesArguments name = false) :
    read takesArguments s = read (fun _ => false) s := by
  have hExtends :=
    readWhole_extends p s [] _ hNames
      (gives_readWhole_of_isOver hOver) hOver
  have hGives :=
    hExtends.found takesArguments hPlain [] fun _ => ends_nil 0
  rw [List.append_nil] at hGives
  rcases hGives.exists_eq with ⟨hLength, hEq⟩
  rw [read, hEq]
  rfl

theorem read_nil : read takesArguments [] = .malformed := by
  refine read_of_readPrimary (fun t ht => by cases ht) ?_
  rw [readPrimary.eq_def]
  exact ⟨rfl, rfl⟩

end Expression

/-
  A body as an operand: in parentheses, or as it is, if it does
  not begin with an operator and is read as one operand.
-/
inductive IsOperandOf (body : List Token) :
    List Token → Prop where
  | bare
      (hHead : ∀ t ∈ body.head?, t.text ∉ marks)
      (hRest : (readPrimary (fun _ => false) body).rest = []) :
      IsOperandOf body body
  | parentheses {opening closing : Token}
      (hOpen : IsMark "(" opening)
      (hClose : IsMark ")" closing) :
      IsOperandOf body (opening :: (body ++ [closing]))

variable {body us : List Token}
variable {tree : Expression}
variable {p : String → Bool}

/-
  The operands of a body that is a whole expression are unsplit,
  and they are read as this expression wherever they stand.
-/
theorem IsOperandOf.reads
    (hOperand : IsOperandOf body us)
    (hNames : HasNames body)
    (hOver :
      (Expression.read (fun _ => false) body).isOver p = true) :
    (us ≠ [] ∧ IsUnsplit us ∧ ∀ t ∈ us.head?, t.text ∉ marks) ∧
      ∀ takesArguments : String → Bool,
        (∀ name, p name = true →
          takesArguments name = false) →
          ∀ tail,
            Gives (readPrimary takesArguments (us ++ tail))
              (Expression.read (fun _ => false) body) tail := by
  have hGives := gives_readWhole_of_isOver hOver
  cases hOperand with
  | bare hHead hRest =>
      have hFirst :
          Gives (readPrimary (fun _ => false) body)
            (readPrimary (fun _ => false) body).expression
            [] :=
        ⟨rfl, hRest⟩
      rw [← read_of_readPrimary hHead hFirst] at hFirst
      have hExtends :=
        readPrimary_extends p body [] _ hNames hFirst hOver
      rcases hExtends.leaves with ⟨used, hUsed, hUnsplit⟩
      rw [List.append_nil] at hUsed
      subst hUsed
      refine ⟨⟨?_, hUnsplit, hHead⟩, ?_⟩
      · rintro rfl
        rw [readPrimary.eq_def] at hFirst
        exact absurd hOver (not_gives_stop hFirst)
      · intro takesArguments hPlain tail
        exact
          hExtends.found takesArguments hPlain tail trivial
  | @parentheses opening closing hOpen hClose =>
      have hExtends :=
        readWhole_extends p body [] _ hNames hGives hOver
      rcases hExtends.leaves with ⟨used, hUsed, hUnsplit⟩
      rw [List.append_nil] at hUsed
      subst hUsed
      refine ⟨⟨List.cons_ne_nil _ _, ?_, ?_⟩, ?_⟩
      · exact
          hUnsplit.parentheses (is_of_text_eq hOpen.text_eq)
            (is_of_text_eq hClose.text_eq)
      · intro t ht
        cases ht
        rw [hOpen.text_eq]
        decide
      · intro takesArguments hPlain tail
        have hInside :
            IsRead takesArguments 0 body
              (Expression.read (fun _ => false) body) :=
          fun rest hEnds =>
            hExtends.found takesArguments hPlain rest
              fun _ => hEnds
        exact (isPrimary_parentheses hOpen hInside hClose tail).1

------------------------------------------------------------
-- Macros with a Body for a Value
------------------------------------------------------------

namespace Evaluator

/- A macro that is replaced by its body as an operand. -/
def inlining
    (e : Evaluator)
    (name : String)
    (body : List Token) :
    Inlining where
  name
  Operand := IsOperandOf body
  isCallable other :=
    e.takesArguments [] other || builtins.contains other

/-
  A macro without arguments has one definition, which is in
  force everywhere. Its body is a whole expression without names
  that the table knows. The bodies of other macros hand their
  arguments on as operands.
-/
structure Inlines
    (e : Evaluator)
    (name : String)
    (body : List Token) : Prop where
  isIdentifier : Lexer.isIdentifier name = true
  ne_defined : name ≠ "defined"
  not_builtin : name ∉ builtins
  isFree_eq : e.isFree name = false
  entries_eq :
    ∃ variadic,
      e.definitions.entries name =
        [(.one, ⟨none, variadic, body⟩)]
  hasNames : HasNames body
  isOver :
    (Expression.read (fun _ => false) body).isOver
      (fun other => !e.definitions.contains other) = true
  isForwarding :
    ∀ other m, e.definitions.entries other = [(.one, m)] →
      (e.inlining name body).IsForwarding m

variable {e : Evaluator}
variable {name : String}
variable {expanding : List String}

/- A macro that takes arguments is in the table. -/
theorem contains_of_takesArguments
    (hTakes : e.takesArguments expanding name = true) :
    e.definitions.contains name = true ∧
      expanding.contains name = false := by
  constructor
  · by_contra hNone
    rw [Bool.not_eq_true] at hNone
    rw [takesArguments_of_not_contains expanding hNone]
      at hTakes
    cases hTakes
  · unfold takesArguments isAtomic at hTakes
    rw [Bool.and_eq_true, Bool.not_eq_true',
      Bool.or_eq_false_iff] at hTakes
    exact hTakes.1.2

theorem takesArguments_of_unknown
    (expanding : List String)
    (other : String)
    (hOther : (!e.definitions.contains other) = true) :
    e.takesArguments expanding other = false := by
  rw [Bool.not_eq_true'] at hOther
  exact takesArguments_of_not_contains expanding hOther

/- What takes arguments inside other macros takes them outside. -/
theorem takesArguments_nil
    (hTakes : e.takesArguments expanding name = true) :
    e.takesArguments [] name = true := by
  unfold takesArguments isAtomic at hTakes ⊢
  simp only [Bool.and_eq_true, Bool.not_eq_true',
    Bool.or_eq_false_iff] at hTakes ⊢
  exact ⟨⟨hTakes.1.1, rfl⟩, hTakes.2⟩

namespace Inlines

theorem takesArguments_eq
    (hInlines : e.Inlines name body)
    (expanding : List String) :
    e.takesArguments expanding name = false := by
  rcases hInlines.entries_eq with ⟨variadic, hEntries⟩
  unfold takesArguments
  rw [Definitions.isFunctionLike_eq, hEntries]
  exact Bool.and_false _

theorem isRead
    (hInlines : e.Inlines name body)
    (expanding : List String) :
    (e.inlining name body).IsRead (e.takesArguments expanding)
      (Expression.read (fun _ => false) body) where
  isIdentifier := hInlines.isIdentifier
  isUnsplit us hOperand :=
    (hOperand.reads hInlines.hasNames hInlines.isOver).1.2.1
  ne_nil us hOperand :=
    (hOperand.reads hInlines.hasNames hInlines.isOver).1.1
  ne_defined := hInlines.ne_defined
  not_builtin := hInlines.not_builtin
  takes_name := hInlines.takesArguments_eq expanding
  head us hOperand :=
    (hOperand.reads hInlines.hasNames hInlines.isOver).1.2.2
  gives us hOperand :=
    (hOperand.reads hInlines.hasNames hInlines.isOver).2 _
      (takesArguments_of_unknown expanding)
  calls_of_takes other hTakes := by
    change (e.takesArguments [] other || _) = true
    rw [takesArguments_nil hTakes, Bool.true_or]
  calls_builtin other hBuiltin := by
    change (_ || builtins.contains other) = true
    rw [List.contains_iff_mem.mpr hBuiltin, Bool.or_true]

end Inlines

end Evaluator

------------------------------------------------------------
-- Outcomes
------------------------------------------------------------

/- An expression without calls needs its names and atoms alone. -/
theorem Expression.outcome?_of_isOver
    {f : Expression}
    {m m' : Outcomes}
    (hOver : f.isOver p = true)
    (hDefined : m.whetherDefined = m'.whetherDefined)
    (hVerbatim : m.verbatim = m'.verbatim)
    (hReference :
      ∀ name, p name = true →
        m.reference name = m'.reference name) :
    ∃ o, f.outcome? m = some o ∧ f.outcome? m' = some o := by
  have hUse (o : Option Computed) (text : String) :
      m'.orVerbatim o text = m.orVerbatim o text := by
    unfold Outcomes.orVerbatim
    rw [hVerbatim]
  induction f with
  | number v => exact ⟨_, rfl, rfl⟩
  | defined name =>
      refine ⟨_, rfl, ?_⟩
      rw [outcome?, hDefined]
  | builtin text =>
      refine ⟨_, rfl, ?_⟩
      rw [outcome?, hVerbatim]
  | reference name =>
      refine ⟨_, rfl, ?_⟩
      rw [outcome?, hReference name hOver]
  | call | excess | malformed => cases hOver
  | sign op f text ih =>
      rcases ih hOver with ⟨o, hSome, hSome'⟩
      refine ⟨_, outcome?_sign op text hSome, ?_⟩
      rw [outcome?_sign op text hSome', hUse]
  | operation op l r text ihl ihr =>
      rw [isOver, Bool.and_eq_true] at hOver
      rcases ihl hOver.1 with ⟨o, hLeft, hLeft'⟩
      rcases ihr hOver.2 with ⟨o', hRight, hRight'⟩
      refine ⟨_, outcome?_operation op text hLeft hRight, ?_⟩
      rw [outcome?_operation op text hLeft' hRight', hUse]
  | connective op l r ihl ihr =>
      rw [isOver, Bool.and_eq_true] at hOver
      rcases ihl hOver.1 with ⟨o, hLeft, hLeft'⟩
      rcases ihr hOver.2 with ⟨o', hRight, hRight'⟩
      exact
        ⟨_, outcome?_connective op hLeft hRight,
          outcome?_connective op hLeft' hRight'⟩
  | conditional test yes no ihTest ihYes ihNo =>
      rw [isOver, Bool.and_eq_true, Bool.and_eq_true] at hOver
      rcases ihTest hOver.1 with ⟨o, hTest, hTest'⟩
      rcases ihYes hOver.2.1 with ⟨o', hYes, hYes'⟩
      rcases ihNo hOver.2.2 with ⟨o'', hNo, hNo'⟩
      exact
        ⟨_, outcome?_conditional hTest hYes hNo,
          outcome?_conditional hTest' hYes' hNo'⟩

/-
  Where verbatim atoms are false, expressions that mirror each
  other have the same outcome, if calls do and the name has that
  of what stands in its place.
-/
theorem Inlining.Mirrors.outcome?_eq
    {i : Inlining}
    {takesArguments : String → Bool}
    {f f' : Expression}
    {m : Outcomes}
    (hMirrors : i.Mirrors takesArguments tree f f')
    (hVerbatim : ∀ text, m.verbatim text = false)
    (hCall :
      ∀ name as as' text text',
        takesArguments name = true →
          List.Forall₂ (i.Spliced false) as as' →
            m.call name as text = m.call name as' text')
    (hInlined :
      tree.outcome? m = some (m.reference i.name)) :
    f.outcome? m = f'.outcome? m := by
  have hText (o : Option Computed) (text text' : String) :
      m.orVerbatim o text = m.orVerbatim o text' := by
    unfold Outcomes.orVerbatim
    rw [hVerbatim, hVerbatim]
  induction hMirrors with
  | number | defined | reference | unclosedCall | excess
  | malformed => rfl
  | builtin text text' =>
      rw [outcome?, outcome?, hVerbatim, hVerbatim]
  | inlined => exact hInlined.symm
  | call hTakes hArguments =>
      rw [outcome?, outcome?,
        hCall _ _ _ _ _ hTakes hArguments]
  | @sign op e e' text text' _ ih =>
      rw [outcome?, outcome?, ih]
      simp only [hText _ text text']
  | @operation op l r l' r' text text' _ _ ihl ihr =>
      rw [outcome?, outcome?, ihl, ihr]
      simp only [hText _ text text']
  | connective _ _ ihl ihr => rw [outcome?, outcome?, ihl, ihr]
  | conditional _ _ _ ihTest ihYes ihNo =>
      rw [outcome?, outcome?, ihTest, ihYes, ihNo]

namespace Evaluator

variable {e : Evaluator}
variable {name : String}
variable {expanding : List String}
variable {W : World}

namespace Inlines

/- The name has the outcome of its body, one macro deeper. -/
theorem reference_eq
    (hInlines : e.Inlines name body)
    (hOutside : name ∉ expanding)
    (out : String → List Token → Computed) :
    (e.outcomes W expanding out).reference name =
      out name body := by
  rcases hInlines.entries_eq with ⟨variadic, hEntries⟩
  have hAtomic : e.isAtomic expanding name = false := by
    simp [isAtomic, hInlines.isFree_eq, hOutside]
  cases body with
  | nil =>
      have hOver := hInlines.isOver
      rw [read_nil] at hOver
      cases hOver
  | cons t ts =>
      simp [outcomes, hAtomic, nameOutcome, hEntries,
        objectOutcome, Macro.isFunctionLike]

/-
  A body comes to the same inside any macros, since it has no
  names that the table knows.
-/
theorem outcome?_eq
    (hInlines : e.Inlines name body)
    (hOutside : name ∉ expanding)
    (depth : Nat) :
    (Expression.read (fun _ => false) body).outcome?
        (e.outcomes W expanding fun other =>
          e.bodyOutcome W (depth + 1) (other :: expanding)) =
      some
        ((e.outcomes W expanding fun other =>
          e.bodyOutcome W (depth + 1)
            (other :: expanding)).reference name) := by
  have hSame :
      ∃ o,
        (Expression.read (fun _ => false) body).outcome?
            (e.outcomes W expanding fun other =>
              e.bodyOutcome W (depth + 1)
                (other :: expanding)) =
          some o ∧
        (Expression.read (fun _ => false) body).outcome?
            (e.outcomes W (name :: expanding) fun other =>
              e.bodyOutcome W depth
                (other :: name :: expanding)) =
          some o := by
    refine outcome?_of_isOver hInlines.isOver rfl rfl ?_
    intro other hOther
    rw [Bool.not_eq_true'] at hOther
    rw [outcomes_reference_of_not_contains _ _ hOther,
      outcomes_reference_of_not_contains _ _ hOther]
  rcases hSame with ⟨o, hSome, hSome'⟩
  have hRead :=
    read_eq_of_isOver hInlines.hasNames hInlines.isOver
      (takesArguments_of_unknown (name :: expanding))
  rw [hInlines.reference_eq hOutside, hSome, bodyOutcome,
    outcomeWithin_succ, hRead, hSome', Option.getD_some]

end Inlines

/-
  The macros that are expanding are different names of the table,
  so enough of the depth is left for one of them more.
-/
theorem length_lt_of_nodup
    (hNodup : (name :: expanding).Nodup)
    (hKnown :
      ∀ other ∈ name :: expanding,
        e.definitions.contains other = true) :
    expanding.length < e.definitions.length := by
  have hSubset :
      name :: expanding ⊆ e.definitions.map (·.1) := by
    intro other hOther
    have hFound := hKnown other hOther
    unfold Definitions.contains at hFound
    rcases Option.isSome_iff_exists.mp hFound with
      ⟨decisions, hFind⟩
    rcases Dict.mem_of_find?_eq hFind with ⟨key, hKey, hMem⟩
    rw [Std.LawfulEqCmp.compare_eq_iff_eq] at hKey
    exact List.mem_map.mpr ⟨_, hMem, hKey.symm⟩
  have hLength :=
    (List.subperm_of_subset hNodup hSubset).length_le
  simpa using hLength

/- The name of an inlining is in the table. -/
theorem Inlines.contains
    (hInlines : e.Inlines name body) :
    e.definitions.contains name = true := by
  rcases hInlines.entries_eq with ⟨variadic, hEntries⟩
  by_contra hNone
  rw [Bool.not_eq_true] at hNone
  rw [Definitions.entries_of_not_contains hNone] at hEntries
  cases hEntries

/- A call comes to the same if its arguments are alike. -/
theorem callOutcome_spliced
    {other text text' : String}
    {as as' : List (List Token)}
    {out : List Token → Computed}
    (hInlines : e.Inlines name body)
    (hVerbatim : ∀ text, W.value (.verbatim text) = false)
    (hOut :
      ∀ tokens tokens',
        (e.inlining name body).Spliced false tokens tokens' →
          out tokens = out tokens')
    (hArguments :
      List.Forall₂ ((e.inlining name body).Spliced false) as
        as') :
    e.callOutcome W out other as text =
      e.callOutcome W out other as' text' := by
  unfold callOutcome
  rw [hVerbatim text, hVerbatim text']
  rcases hEntries : e.definitions.entries other with
    _ | ⟨⟨c, m⟩, _ | ⟨_, _⟩⟩
  · rfl
  · dsimp only
    by_cases hOne : c = .one
    · subst hOne
      simp only [if_true]
      have hRel :=
        (hInlines.isForwarding other m hEntries).substitute
          hArguments
      generalize m.substitute as = substituted at hRel ⊢
      generalize m.substitute as' = substituted' at hRel ⊢
      cases hRel with
      | none => rfl
      | some hSpliced => exact hOut _ _ hSpliced
    · simp only [hOne, if_false]
  · rfl

/-
  Where verbatim atoms are false, replacing a macro by its body
  as an operand does not change an outcome, by induction on the
  depth that is left for calls.
-/
theorem bodyOutcome_spliced
    {tokens tokens' : List Token}
    (hInlines : e.Inlines name body)
    (hVerbatim : ∀ text, W.value (.verbatim text) = false)
    (depth : Nat)
    (hNodup : (name :: expanding).Nodup)
    (hKnown :
      ∀ other ∈ expanding,
        e.definitions.contains other = true)
    (hDepth :
      e.definitions.length + 1 ≤ depth + expanding.length)
    (hSpliced :
      (e.inlining name body).Spliced false tokens tokens') :
    e.bodyOutcome W depth expanding tokens =
      e.bodyOutcome W depth expanding tokens' := by
  induction depth generalizing expanding tokens tokens' with
  | zero =>
      unfold bodyOutcome outcomeWithin
      rw [hVerbatim, hVerbatim]
  | succ depth ih =>
      have hLess :=
        length_lt_of_nodup hNodup
          (List.forall_mem_cons.mpr
            ⟨hInlines.contains, hKnown⟩)
      have hOutside : name ∉ expanding :=
        (List.nodup_cons.mp hNodup).1
      obtain ⟨depth, rfl⟩ : ∃ d, depth = d + 1 :=
        ⟨depth - 1, by omega⟩
      have hRead := hInlines.isRead expanding
      have hMirrors := Inlining.mirrors_read hRead hSpliced
      have hOutcome :=
        hMirrors.outcome?_eq hVerbatim
          (fun other as as' text text' hTakes hArguments => ?_)
          (hInlines.outcome?_eq (W := W) hOutside depth)
      · unfold bodyOutcome
        rw [outcomeWithin_succ, outcomeWithin_succ, hOutcome,
          hVerbatim, hVerbatim]
      · rcases contains_of_takesArguments hTakes with
          ⟨hOther, hNew⟩
        have hNe : name ≠ other := by
          rintro rfl
          rw [hInlines.takesArguments_eq] at hTakes
          cases hTakes
        refine
          callOutcome_spliced hInlines hVerbatim ?_ hArguments
        intro tokens tokens' hInside
        apply ih
        · have hNotMem : other ∉ expanding := by
            simpa using hNew
          have hRest := (List.nodup_cons.mp hNodup).2
          simp [hNe, hOutside, hNotMem, hRest]
        · exact List.forall_mem_cons.mpr ⟨hOther, hKnown⟩
        · rw [List.length_cons]
          omega
        · exact hInside

/- Replacing a macro in this way does not change what holds. -/
theorem holdsIn_spliced
    {tokens tokens' : List Token}
    (hInlines : e.Inlines name body)
    (hVerbatim : ∀ text, W.value (.verbatim text) = false)
    (hSpliced :
      (e.inlining name body).Spliced false tokens tokens') :
    e.holdsIn W tokens = e.holdsIn W tokens' := by
  unfold holdsIn
  rw [bodyOutcome_spliced hInlines hVerbatim _
    (List.nodup_singleton name) (fun _ h => by cases h)
    (Nat.le_refl _) hSpliced]

end Evaluator

end Variability
