import Variability.Proofs.Macro.Values

/-
  Integer macros in expressions.

  In an environment a macro that nothing was decided about is
  not defined or is an integer other than 0, so that whether it
  is defined tells whether it is zero. With definitions that are
  numbers, the condition of an expression then holds exactly if
  the expression has a value other than 0, provided the uses it
  depends on are told their truth.

  Main declarations:
    * `Environment`
    * `Definitions.Tells`
    * `Evaluator.ensures_nameValue_stands`
    * `Evaluator.ensures_condition_tells`
-/

namespace Variability

open InSpace

/- The values of macros before anything is decided about them. -/
structure Environment where
  value : MacroValues
  ne_zero : ∀ name, value name ≠ some 0

/- The values of the atoms: uses as written are answered apart. -/
def Environment.atom
    (env : Environment)
    (answer : String → Bool) :
    Atom → Bool
  | .defined name => (env.value name).isSome
  | .verbatim text => answer text

variable {s s' s₀ : Space}
variable {env : Environment}
variable {answer : String → Bool}
variable {macros : MacroValues}

/- A table that gives macros their values wherever atoms have theirs. -/
structure Definitions.Tells
    (s : Space)
    (env : Environment)
    (answer : String → Bool)
    (isFree : String → Bool)
    (macros : MacroValues)
    (table : Definitions) : Prop where
  isLive : IsLive s table
  isPlain : table.IsPlain isFree
  gives :
    ∀ s', s'.Sound → s.Grows s' → ∀ a,
      Coupling.Assigns s' (env.atom answer) a →
        Gives s' a env.value table macros

theorem Definitions.Tells.grows
    {isFree : String → Bool}
    {table : Definitions}
    (hTells : table.Tells s env answer isFree macros)
    (hGrows : s.Grows s') :
    table.Tells s' env answer isFree macros where
  isLive := hTells.isLive.grows hGrows
  isPlain := hTells.isPlain
  gives := fun s'' hSound hGrows' =>
    hTells.gives s'' hSound (hGrows.trans hGrows')

------------------------------------------------------------
-- Definedness
------------------------------------------------------------

section Definedness

variable {isFree : String → Bool}
variable {table : Definitions}
variable {name : String}
variable {r u : Condition}
variable {p q : Space → (Nat → Bool) → Bool}

/- What holds, or else the atom of a macro where another condition holds. -/
theorem Condition.ensures_orDefined
    (env : Environment)
    (answer : String → Bool)
    (name : String)
    (hr : s₀.Means p r)
    (hu : s₀.Means q u) :
    Ensures s₀
      (do
        let free ← Condition.defined name
        Condition.or r (← Condition.and u free))
      fun s c =>
        s.manager.IsLive c ∧
          ∀ s', s'.Sound → s.Grows s' → ∀ a,
            Coupling.Assigns s' (env.atom answer) a →
              s'.manager.eval c a =
                (p s' a ||
                  q s' a && (env.value name).isSome) := by
  apply
    (Condition.ensures_tells_atom (env.atom answer)
      (.defined name)).bind
  intro s free _ hGrows hFree
  apply
    (Condition.ensures_and (hu.grows hGrows)
      (Space.means_self hFree.isLive)).bind
  intro s' both _ hGrows' hBoth
  apply
    (Condition.ensures_or (hr.grows (hGrows.trans hGrows'))
      hBoth).imp
  intro s'' c _ hGrows'' hMeans
  refine ⟨hMeans.isLive, ?_⟩
  intro t hSound hGrowsEnd a ha
  rw [hMeans.eval_eq t hSound hGrowsEnd,
    hFree.eval_eq trivial t hSound
      (hGrows'.trans (hGrows''.trans hGrowsEnd)) a ha]
  rfl

/- Whether a macro is defined is told as it is. -/
theorem Definitions.ensures_whetherDefined_tells
    (hTells : table.Tells s₀ env answer isFree macros)
    (name : String) :
    Ensures s₀ (table.whetherDefined name) fun s c =>
      s.Tells (env.atom answer) True (macros name).isSome
        c := by
  have hStatus {s' a} (hSound : s'.Sound)
      (hGrows : s₀.Grows s')
      (ha : Coupling.Assigns s' (env.atom answer) a) :
      (holds s' a (·.definition.isSome)
          (table.decisions name) ||
        !holds s' a (fun _ => true) (table.decisions name) &&
          (env.value name).isSome) =
        (macros name).isSome := by
    rw [← (hTells.gives s' hSound hGrows a ha).isSome_eq
      hTells.isPlain name]
    unfold status
    cases holds s' a (·.definition.isSome)
        (table.decisions name) <;>
      cases holds s' a (fun _ => true)
        (table.decisions name) <;> simp
  unfold whetherDefined
  apply
    (ensures_decided
      (decisions_isLive hTells.isLive name)).bind
  intro s isDefined _ hGrows hDefined
  apply
    (ensures_decided fun d hd =>
      (hTells.isLive.grows hGrows) name d hd).bind
  intro s' isDecided _ hGrows' hDecided
  have hDefined' := hDefined.grows hGrows'
  by_cases hOne : isDecided = .one
  · rw [if_pos hOne]
    apply Ensures.pure
    intro s'' _ hGrows''
    apply (hDefined'.grows hGrows'').tells
    intro _ t hSound hGrowsEnd a ha
    have hGrowsAll := hGrows''.trans hGrowsEnd
    have hAll := hDecided.eval_eq t hSound hGrowsAll a
    rw [hOne, Diagram.Manager.eval_one] at hAll
    rw [← hStatus hSound
      (hGrows.trans (hGrows'.trans hGrowsAll)) ha,
      holds_true_filter, ← hAll, Bool.not_true,
      Bool.false_and, Bool.or_false]
  · rw [if_neg hOne]
    apply
      (Condition.ensures_orDefined env answer name hDefined'
        hDecided.neg).imp
    rintro s'' c _ hGrows'' ⟨hLive, hEval⟩
    refine ⟨hLive, ?_⟩
    intro _ t hSound hGrowsEnd a ha
    rw [hEval t hSound hGrowsEnd a ha,
      ← hStatus hSound
        (hGrows.trans
          (hGrows'.trans (hGrows''.trans hGrowsEnd))) ha,
      holds_true_filter]

end Definedness

------------------------------------------------------------
-- Numbers
------------------------------------------------------------

namespace Expression

variable {t : Token}
variable {v : Int64}

/- No operator has the characters of a number. -/
theorem signOf_number
    (hValue : numberValue? t.text = some v) :
    signOf t = none := by
  unfold signOf
  split <;> rename_i hText
  all_goals first
    | rfl
    | (rw [hText] at hValue; cases hValue)

/- A single number is read as such at every level. -/
theorem readOperation_number
    (takesArguments : String → Bool)
    (hKind : t.kind = .number)
    (hValue : numberValue? t.text = some v)
    (levels : List Level) :
    readOperation takesArguments levels [t] =
      ⟨.number v, [], Nat.zero_le _⟩ := by
  induction levels with
  | nil =>
      unfold readOperation readSigned
      rw [signOf_number hValue]
      unfold readPrimary
      simp [hKind, hValue]
  | cons level tighter ih =>
      unfold readOperation
      rw [ih]
      unfold readFurther
      rfl

theorem read_number
    (takesArguments : String → Bool)
    (hKind : t.kind = .number)
    (hValue : numberValue? t.text = some v) :
    read takesArguments [t] = .number v := by
  unfold read readWhole
  rw [readOperation_number takesArguments hKind hValue]

end Expression

------------------------------------------------------------
-- Names
------------------------------------------------------------

namespace Evaluator

variable {e : Evaluator}
variable {body : List Token → InSpace Value}
variable {name : String}

/- A body that is a number has its value. -/
def ReadsNumbers (body : List Token → InSpace Value) : Prop :=
  ∀ t v, t.kind = .number →
    Expression.numberValue? t.text = some v →
      body [t] = pure (.number v)

theorem readsNumbers_bodyValue
    (e : Evaluator)
    (depth : Nat)
    (expanding : List String) :
    ReadsNumbers (e.bodyValue (depth + 1) expanding) := by
  intro t v hKind hValue
  unfold bodyValue
  rw [valueWithin_succ,
    Expression.read_number _ hKind hValue]
  rfl

theorem objectValue_literal
    {m : Macro}
    {v : Int64}
    (hBody : ReadsNumbers body)
    (hLiteral : m.literal? = some v) :
    objectValue body m = pure (.number v) := by
  rcases m.exists_of_literal?_eq_some hLiteral with
    ⟨-, t, hTokens, hKind, hValue⟩
  unfold objectValue
  rw [hTokens]
  exact hBody t v hKind hValue

/- Whether some definition in force is not zero. -/
def anyNonzero
    (s : Space)
    (a : Nat → Bool)
    (entries : List (Condition × Macro)) :
    Bool :=
  entries.any fun e =>
    s.manager.eval e.1 a && e.2.literal?.getD 0 ≠ 0

/- Definitions that are numbers, under live conditions. -/
structure AllLiteral
    (s : Space)
    (entries : List (Condition × Macro)) : Prop where
  isLive : AllLive s entries
  isSome : ∀ e ∈ entries, e.2.literal?.isSome = true

theorem eval_truth_number
    (s : Space)
    (a : Nat → Bool)
    (v : Int64) :
    s.manager.eval (Value.number v).truth a =
      decide (v ≠ 0) := by
  unfold Value.truth
  by_cases hZero : v = 0 <;> simp [hZero]

/- By induction on the definitions, which are added one by one. -/
theorem ensures_anyObject_means
    {entries : List (Condition × Macro)}
    {r : Condition}
    (hSound : s₀.Sound)
    (hLiteral : AllLiteral s₀ entries)
    (hBody : entries ≠ [] → ReadsNumbers body)
    (hr : s₀.manager.IsLive r) :
    Ensures s₀ (anyObject body r entries) fun s c =>
      s.Means
        (fun s' a =>
          s'.manager.eval r a || anyNonzero s' a entries)
        c := by
  induction entries generalizing s₀ r with
  | nil =>
      apply Ensures.pure
      intro s _ hGrows
      apply (Space.means_self (hGrows.isLive hr)).congr
      intro s' _ _ a
      simp [anyNonzero]
  | cons entry rest ih =>
      rcases entry with ⟨c, m⟩
      have hc : s₀.manager.IsLive c :=
        hLiteral.isLive (c, m) List.mem_cons_self
      rcases Option.isSome_iff_exists.mp
          (hLiteral.isSome (c, m) List.mem_cons_self) with
        ⟨v, hv⟩
      have hValue :
          objectValue body m = pure (.number v) :=
        objectValue_literal (hBody (by simp)) hv
      unfold anyObject
      rw [hValue, pure_bind]
      have hTruth : s₀.manager.IsLive (Value.number v).truth :=
        Value.IsLive.truth trivial hSound
      apply
        (Condition.ensures_and (Space.means_self hc)
          (Space.means_self hTruth)).bind
      intro s both _ hGrows hBoth
      apply
        (Condition.ensures_or
          (Space.means_self (hGrows.isLive hr)) hBoth).bind
      intro s' r' hSound' hGrows' hr'
      have hRest : AllLiteral s' rest :=
        { isLive := fun entry hEntry =>
            (hGrows.trans hGrows').isLive
              (hLiteral.isLive entry
                (List.mem_cons_of_mem _ hEntry))
          isSome := fun entry hEntry =>
            hLiteral.isSome entry
              (List.mem_cons_of_mem _ hEntry) }
      apply
        (ih hSound' hRest (fun _ => hBody (by simp))
          hr'.isLive).imp
      intro s'' out _ hGrows'' hOut
      apply hOut.congr
      intro t hSoundEnd hGrowsEnd a
      rw [hr'.eval_eq t hSoundEnd (hGrows''.trans hGrowsEnd),
        eval_truth_number]
      simp [anyNonzero, hv, Bool.or_assoc]

/-
  A name with some definitions, or none: where nothing is
  decided it counts as whether it is defined.
-/
theorem ensures_someObject_means
    {entries : List (Condition × Macro)}
    {undecided : Condition}
    {q : Space → (Nat → Bool) → Bool}
    (hSound : s₀.Sound)
    (hLiteral : AllLiteral s₀ entries)
    (hBody : entries ≠ [] → ReadsNumbers body)
    (hUndecided : s₀.Means q undecided)
    (env : Environment)
    (answer : String → Bool) :
    Ensures s₀
      (nameValue.someObject body name entries undecided)
      fun s v => ∃ c, v = .condition c ∧
        s.manager.IsLive c ∧
          ∀ s', s'.Sound → s.Grows s' → ∀ a,
            Coupling.Assigns s' (env.atom answer) a →
              s'.manager.eval c a =
                (anyNonzero s' a entries ||
                  q s' a && (env.value name).isSome) := by
  unfold nameValue.someObject
  apply
    (ensures_anyObject_means hSound hLiteral hBody
      hSound.manager.reduced.isLive_zero).bind
  intro s r _ hGrows hr
  have hUndecided' := hUndecided.grows hGrows
  by_cases hZero : undecided = .zero
  · rw [if_pos hZero]
    apply Ensures.pure
    intro s' _ hGrows'
    refine ⟨r, rfl, hGrows'.isLive hr.isLive, ?_⟩
    intro t hSoundEnd hGrowsEnd a _
    have hGrowsAll := hGrows'.trans hGrowsEnd
    have hNone := hUndecided'.eval_eq t hSoundEnd hGrowsAll a
    rw [hZero, Diagram.Manager.eval_zero] at hNone
    rw [hr.eval_eq t hSoundEnd hGrowsAll, ← hNone,
      Diagram.Manager.eval_zero, Bool.false_or,
      Bool.false_and, Bool.or_false]
  · rw [if_neg hZero]
    apply
      (Condition.ensures_orDefined env answer name hr
        hUndecided').map
    rintro s' c _ _ ⟨hLive, hEval⟩
    refine ⟨c, rfl, hLive, ?_⟩
    intro t hSoundEnd hGrowsEnd a ha
    rw [hEval t hSoundEnd hGrowsEnd a ha,
      Diagram.Manager.eval_zero, Bool.false_or]

variable {isFree : String → Bool}
variable {table : Definitions}

theorem allLiteral_entries
    (hTells : table.Tells s₀ env answer isFree macros)
    (name : String) :
    AllLiteral s₀ (table.entries name) where
  isLive := by
    rintro ⟨c, m⟩ hEntry
    exact
      hTells.isLive name _
        (Definitions.mem_entries_iff.mp hEntry)
  isSome := by
    rintro ⟨c, m⟩ hEntry
    exact
      hTells.isPlain.literal name _
        (Definitions.mem_entries_iff.mp hEntry) m rfl

theorem any_isFunctionLike_entries
    (hTells : table.Tells s₀ env answer isFree macros)
    (name : String) :
    (table.entries name).any (·.2.isFunctionLike) =
      false := by
  rw [List.any_eq_false]
  intro entry hEntry hFunction
  rcases Option.isSome_iff_exists.mp
      ((allLiteral_entries hTells name).isSome entry
        hEntry) with
    ⟨v, hv⟩
  rw [(Macro.exists_of_literal?_eq_some hv).1] at hFunction
  cases hFunction

/- A macro that is one number everywhere has this number. -/
theorem macros_eq_of_constant?
    (hSound : s₀.Sound)
    (hTells : table.Tells s₀ env answer isFree macros)
    {v : Int64}
    (hConstant : table.constant? name = some v) :
    macros name = some v := by
  have hGives :=
    hTells.gives s₀ hSound (.refl s₀)
      (Coupling.assignment s₀ (env.atom answer))
      (Coupling.assigns_assignment s₀ _)
  exact hGives.constant?_eq hConstant

/- A name with some definitions stands for where it is not zero. -/
theorem ensures_someObject_stands
    (hSound : s₀.Sound)
    (hTells : table.Tells s₀ env answer isFree macros)
    (hBody : table.entries name ≠ [] → ReadsNumbers body)
    {undecided : Condition}
    (hUndecided :
      s₀.Means
        (fun s' a =>
          !Definitions.holds s' a (fun _ => true)
            (table.decisions name))
        undecided) :
    Ensures s₀
      (nameValue.someObject body name (table.entries name)
        undecided)
      fun s v =>
        v.Stands s (env.atom answer) none True
          ((macros name).getD 0) := by
  apply
    (ensures_someObject_means hSound
      (allLiteral_entries hTells name) hBody hUndecided env
      answer).imp
  rintro s _ _ hGrows ⟨c, rfl, hLive, hEval⟩
  refine ⟨rfl, hLive, ?_⟩
  intro _ t hSoundEnd hGrowsEnd a ha
  rw [hEval t hSoundEnd hGrowsEnd a ha]
  exact
    (hTells.gives t hSoundEnd (hGrows.trans hGrowsEnd) a
      ha).ne_zero_eq (env.ne_zero name)

/- A name that is one number everywhere has this number. -/
theorem objectValue_of_constant?
    (hSound : s₀.Sound)
    (hTells : table.Tells s₀ env answer isFree macros)
    (hBody : ReadsNumbers body)
    {m : Macro}
    (hEntries : table.entries name = [(.one, m)]) :
    ∃ v,
      objectValue body m = pure (.number v) ∧
        table.constant? name = some v ∧
          macros name = some v := by
  have hLiteral := allLiteral_entries hTells name
  rw [hEntries] at hLiteral
  rcases Option.isSome_iff_exists.mp
      (hLiteral.isSome _ (List.mem_singleton_self _)) with
    ⟨v, hv⟩
  have hConstant : table.constant? name = some v := by
    rw [Definitions.constant?, hEntries]
    exact hv
  exact
    ⟨v, objectValue_literal hBody hv, hConstant,
      macros_eq_of_constant? hSound hTells hConstant⟩

/- A name stands for the value of its macro. -/
theorem ensures_nameValue_stands
    (hTells :
      e.definitions.Tells s₀ env answer e.isFree macros)
    (name : String)
    (hBody :
      e.definitions.entries name ≠ [] → ReadsNumbers body) :
    Ensures s₀ (e.nameValue body name) fun s v =>
      v.Stands s (env.atom answer)
        (e.definitions.constant? name) True
        ((macros name).getD 0) := by
  unfold nameValue
  apply (Definitions.ensures_inForce_means hTells.isLive name).bind
  rintro s ⟨entries, undecided⟩ hSound hGrows
    ⟨hEntries, hUndecided⟩
  change entries = e.definitions.entries name at hEntries
  change s.Means _ undecided at hUndecided
  have hTells' := hTells.grows hGrows
  have hSome :=
    ensures_someObject_stands hSound hTells' hBody hUndecided
  have hFunction :=
    any_isFunctionLike_entries hTells name
  have hConstant :
      e.definitions.constant? name =
        Definitions.number? (e.definitions.entries name) := rfl
  rw [← hEntries] at hSome hFunction hConstant
  simp only [hFunction, Bool.false_eq_true, if_false]
  match entries with
  | [] =>
      rw [hConstant]
      exact hSome
  | _ :: _ :: _ =>
      rw [hConstant]
      exact hSome
  | [(c, m)] =>
      by_cases hOne : c = .one
      · subst hOne
        have hBody' : ReadsNumbers body := by
          apply hBody
          rw [← hEntries]
          simp
        rcases
            objectValue_of_constant? hSound hTells' hBody'
              hEntries.symm with
          ⟨v, hValue, hNumber, hMacro⟩
        simp only [if_true]
        rw [hValue, hNumber, hMacro]
        apply Ensures.pure
        intro _ _ _
        exact ⟨rfl, rfl⟩
      · simp only [hOne, if_false]
        rw [hConstant, Definitions.number?, if_neg hOne]
        exact hSome

------------------------------------------------------------
-- Whole Expressions
------------------------------------------------------------

/- A macro that stays open is told by its atom. -/
theorem ensures_stands_free
    (hTells :
      e.definitions.Tells s₀ env answer e.isFree macros)
    (hFree : e.isFree name = true) :
    Ensures s₀ (Value.condition <$> Condition.defined name)
      fun s v =>
        v.Stands s (env.atom answer)
          (e.definitions.constant? name) True
          ((macros name).getD 0) := by
  have hDecisions := hTells.isPlain.free name hFree
  have hEntries : e.definitions.entries name = [] := by
    unfold Definitions.entries
    rw [hDecisions]
    rfl
  apply
    (Condition.ensures_tells_atom (env.atom answer)
      (.defined name)).map
  intro s c _ hGrows hDefined
  refine ⟨?_, hDefined.isLive, ?_⟩
  · unfold Definitions.constant?
    rw [hEntries]
    rfl
  · intro _ t hSound hGrows' a ha
    have hGives :=
      hTells.gives t hSound (hGrows.trans hGrows') a ha
    have hValue := hGives.ne_zero_eq (env.ne_zero name)
    rw [hEntries, hDecisions] at hValue
    rw [hDefined.eval_eq trivial t hSound hGrows' a ha,
      ← hValue]
    rfl

/- Every name in an expression stands for the value of its macro. -/
theorem stand_meanings
    (hTells :
      e.definitions.Tells s₀ env answer e.isFree macros) :
    (e.meanings e.definitions.length []).Stand s₀
      (env.atom answer) e.definitions.constant? macros where
  whetherDefined :=
    Definitions.ensures_whetherDefined_tells hTells
  reference := by
    intro name
    have hAtomic : e.isAtomic [] name = e.isFree name :=
      Bool.or_false _
    simp only [meanings, hAtomic]
    cases hFree : e.isFree name with
    | true =>
        simp only [if_true]
        exact ensures_stands_free hTells hFree
    | false =>
        simp only [Bool.false_eq_true, if_false]
        apply ensures_nameValue_stands hTells
        intro hEntries
        -- A table that decides about a name is not empty.
        cases hTable : e.definitions with
        | nil =>
            rw [hTable] at hEntries
            exact absurd rfl hEntries
        | cons entry rest =>
            exact readsNumbers_bodyValue e rest.length [name]

theorem takesArguments_plain
    (hPlain : e.definitions.IsPlain e.isFree) :
    e.takesArguments [] = fun _ => false := by
  funext name
  have hFunction :
      e.definitions.isFunctionLike name = false := by
    unfold Definitions.isFunctionLike
    rw [List.any_eq_false]
    intro d hd hFunction
    cases hDefinition : d.definition with
    | none => simp [hDefinition] at hFunction
    | some m =>
        rcases Option.isSome_iff_exists.mp
            (hPlain.literal name d hd m hDefinition) with
          ⟨v, hv⟩
        simp [hDefinition,
          (Macro.exists_of_literal?_eq_some hv).1] at hFunction
  unfold takesArguments
  rw [hFunction, Bool.and_false]

/-
  The condition of an ordinary expression tells whether its
  value is not zero, if the uses it depends on are told.
-/
theorem ensures_condition_tells
    (hTells :
      e.definitions.Tells s₀ env answer e.isFree macros)
    {tokens : List Token}
    {tree : Expression}
    (hTree : Expression.read (fun _ => false) tokens = tree)
    (hOrdinary : tree.isOrdinary = true) :
    Ensures s₀ (e.condition tokens) fun s c =>
      s.Tells (env.atom answer)
        (Told (env.atom answer)
          (tree.uses e.definitions.constant? macros))
        (tree.valueIn macros ≠ 0) c := by
  have hValue :=
    tree.ensures_evaluate_stands (stand_meanings hTells)
      hOrdinary
  rw [← hTree, ← takesArguments_plain hTells.isPlain,
    ← valueWithin_succ,
    takesArguments_plain hTells.isPlain, hTree] at hValue
  unfold condition
  apply InSpace.Ensures.bind hValue
  rintro s _ _ _ ⟨v, rfl, hv⟩
  apply Ensures.pure
  intro s' hSound hGrows
  exact (hv.grows hGrows).truth hSound

end Evaluator

end Variability
