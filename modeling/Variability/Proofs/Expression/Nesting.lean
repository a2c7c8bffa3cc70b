import Variability.Proofs.Expression.Calls
import Variability.Proofs.Expression.Evaluation
import Variability.Proofs.Settling
import Mathlib.Data.List.Dedup
import Mathlib.Data.List.Perm.Subperm

/-
  Expanding macros on a stack.

  A walker expands macros by evaluating their bodies, and keeps
  the names that are expanding on a stack. Nothing bounds how
  often it calls itself; its fuel only makes it a function, and
  it has no answer where the fuel is used up. Every expansion
  is noted when it is over.

  A name on the stack does not expand, and names that no
  directive has named have no body. So the stack never holds
  more names than the table, and with enough fuel there is
  always an answer, the value of the expression.

  Main declarations:
    * `Walk.value`
    * `Expansion.InBounds`
    * `Walk.SettlesOn`
    * `Walk.settles_value`
-/

namespace Variability

------------------------------------------------------------
-- Walkers
------------------------------------------------------------

/-
  An expansion that is over: the names on the stack before and
  after it, and how many names the table had.
-/
structure Expansion where
  before : List String
  after : List String
  names : Nat

/- The stack is as before, and there was a name for one more on it. -/
structure Expansion.InBounds (x : Expansion) : Prop where
  after_eq : x.after = x.before
  length_lt : x.before.length < x.names

/- What changes while macros expand. -/
structure Walker where
  space : Space
  /- The macros that are expanding, the innermost one first. -/
  expanding : List String
  /- The expansions that are over, the last one at the end. -/
  ended : List Expansion

/- A computation of a walker, none where its fuel is used up. -/
abbrev Walk := StateT Walker Option

namespace Walk

variable {α β : Type}

/- Build conditions. -/
def inSpace (f : InSpace α) : Walk α := fun w =>
  some ((f w.space).1, { w with space := (f w.space).2 })

/- Put a name on the stack. -/
def push (name : String) : Walk Unit :=
  modify fun w => { w with expanding := name :: w.expanding }

/- Take the last name from the stack. -/
def pop : Walk Unit :=
  modify fun w => { w with expanding := w.expanding.tail }

/- Note that an expansion is over. -/
def note (x : Expansion) : Walk Unit :=
  modify fun w => { w with ended := w.ended ++ [x] }

/- How many names directives have named. -/
def nameCount (e : Evaluator) : Nat :=
  (Dict.keys e.definitions).dedup.length

/- Do something with a name on the stack. -/
def inside
    (e : Evaluator)
    (name : String)
    (f : Walk α) :
    Walk α := do
  let before ← get
  push name
  let a ← f
  pop
  let after ← get
  note ⟨before.expanding, after.expanding, nameCount e⟩
  return a

/- The value of tokens that a macro expands to, or what is written. -/
def expand
    (e : Evaluator)
    (value : List Token → Walk (Option Value))
    (name : String)
    (tokens : List Token) :
    Walk Value := do
  let v ← inside e name (value tokens)
  inSpace (Value.orVerbatim v (Token.spell tokens))

/- The value of a macro without arguments, given that of its body. -/
def objectValue
    (body : List Token → Walk Value)
    (m : Macro) :
    Walk Value :=
  match m.body with
  | [] => pure (.number 1)
  | t :: ts => body (t :: ts)

/- Where one of several definitions is in force and not zero. -/
def anyObject
    (body : List Token → Walk Value) :
    Condition →
    List (Condition × Macro) →
    Walk Condition
  | r, [] => pure r
  | r, (c, m) :: rest => do
      let v ← objectValue body m
      let both ← inSpace (Condition.and c v.truth)
      let r ← inSpace (Condition.or r both)
      anyObject body r rest

/- One of several definitions, or none. -/
def someObject
    (body : List Token → Walk Value)
    (name : String)
    (definitions : List (Condition × Macro))
    (undecided : Condition) :
    Walk Value := do
  let r ← anyObject body .zero definitions
  if undecided = .zero then
    return .condition r
  else
    let free ← inSpace (Condition.defined name)
    let both ← inSpace (Condition.and undecided free)
    let r ← inSpace (Condition.or r both)
    return .condition r

/- The value of a macro without arguments. -/
def nameValue
    (e : Evaluator)
    (body : List Token → Walk Value)
    (name : String) :
    Walk Value := do
  let (definitions, undecided) ←
    inSpace (e.definitions.inForce name)
  if definitions.any (·.2.isFunctionLike) then
    inSpace (Value.verbatim name)
  else
    match definitions with
    | [(c, m)] =>
        if c = .one then
          objectValue body m
        else
          someObject body name definitions undecided
    | _ => someObject body name definitions undecided

/- The value of a macro with arguments. -/
def callValue
    (e : Evaluator)
    (body : List Token → Walk Value)
    (name : String)
    (arguments : List (List Token))
    (text : String) :
    Walk Value := do
  let (definitions, _) ← inSpace (e.definitions.inForce name)
  match definitions with
  | [(c, m)] =>
      match if c = .one then m.substitute arguments else none with
      | some tokens => body tokens
      | none => inSpace (Value.verbatim text)
  | _ => inSpace (Value.verbatim text)

/- The value of a macro; one that is expanding is its own atom. -/
def reference
    (e : Evaluator)
    (body : String → List Token → Walk Value)
    (name : String) :
    Walk Value := do
  let w ← get
  if e.isAtomic w.expanding name then
    .condition <$> inSpace (Condition.defined name)
  else
    nameValue e (body name) name

/- The value of an expression, given that of the bodies of macros. -/
def evaluate
    (e : Evaluator)
    (body : String → List Token → Walk Value) :
    Expression → OptionT Walk Value
  | .number v => pure (.number v)
  | .defined name =>
      .condition <$>
        liftM (inSpace (e.definitions.whetherDefined name))
  | .builtin text => liftM (inSpace (Value.verbatim text))
  | .reference name => liftM (reference e body name)
  | .call name (some arguments) text =>
      liftM (callValue e (body name) name arguments text)
  | .call name none _ => do
      liftM (inSpace ((fun _ => ()) <$> e.definitions.inForce name))
      failure
  | .sign op x text => do
      let v ← evaluate e body x
      liftM (inSpace (Value.orVerbatim (op.result? v) text))
  | .operation op l r text => do
      let a ← evaluate e body l
      let b ← evaluate e body r
      liftM (inSpace (Value.orVerbatim (op.result? a b) text))
  | .connective op l r => do
      let a ← evaluate e body l
      let b ← evaluate e body r
      liftM (inSpace (op.result a b))
  | .conditional test yes no => do
      let c ← evaluate e body test
      let a ← evaluate e body yes
      let b ← evaluate e body no
      match c with
      | .number v => return if v = 0 then b else a
      | .condition c =>
          .condition <$>
            liftM (inSpace (Condition.ite c a.truth b.truth))
  | .excess x => do
      let _ ← evaluate e body x
      failure
  | .malformed => failure

/- The value of some tokens, if the fuel is enough. -/
def value (e : Evaluator) :
    (fuel : Nat) → List Token → Walk (Option Value)
  | 0, _ => fun _ => none
  | fuel + 1, tokens => do
      let w ← get
      (evaluate e (expand e (value e fuel))
        (Expression.read (e.takesArguments w.expanding)
          tokens)).run

/- The condition under which some tokens are not zero. -/
def condition
    (e : Evaluator)
    (fuel : Nat)
    (tokens : List Token) :
    Walk Condition := do
  match ← value e fuel tokens with
  | some v => return v.truth
  | none => inSpace (Condition.verbatim (Token.spell tokens))

------------------------------------------------------------
-- Macros on the Stack
------------------------------------------------------------

/- A walker with some names on its stack. -/
def withStack
    (stack : List String)
    (space : Space)
    (ended : List Expansion) :
    Walker :=
  ⟨space, stack, ended⟩

/-
  With enough fuel a walk with this stack has an answer: it does
  to the space what `g` does, leaves the stack as it was, and
  notes expansions that are in bounds.
-/
abbrev SettlesOn
    (stack : List String)
    (f : Nat → Walk α)
    (g : InSpace α) : Prop :=
  Settles (withStack stack) Expansion.InBounds f g

variable {stack : List String}
variable {e : Evaluator}
variable {name : String}

theorem settles_inSpace (g : InSpace α) :
    SettlesOn stack (fun _ => inSpace g) g :=
  .ofStep fun _ _ _ => rfl

/- What settles with a name on the stack does so around it. -/
theorem settles_inside
    {f : Nat → Walk α}
    {g : InSpace α}
    (hRoom : stack.length < nameCount e)
    (hInside : SettlesOn (name :: stack) f g) :
    SettlesOn stack (fun fuel => inside e name (f fuel)) g := by
  let back (out : α × Walker) : Option (α × Walker) :=
    some (out.1,
      ⟨out.2.space, out.2.expanding.tail,
        out.2.ended ++
          [⟨stack, out.2.expanding.tail, nameCount e⟩]⟩)
  have hNote :
      Expansion.InBounds ⟨stack, stack, nameCount e⟩ :=
    ⟨rfl, hRoom⟩
  exact
    Settles.within back hInside hNote (fun _ _ _ => rfl)
      fun _ _ _ => rfl

theorem settles_expand
    {f : Nat → List Token → Walk (Option Value)}
    {g : Evaluation Value}
    {tokens : List Token}
    (hRoom : stack.length < nameCount e)
    (hBody :
      SettlesOn (name :: stack) (fun fuel => f fuel tokens)
        g.run) :
    SettlesOn stack (fun fuel => expand e (f fuel) name tokens)
      (do
        let v ← g.run
        Value.orVerbatim v (Token.spell tokens)) :=
  (settles_inside hRoom hBody).bind fun _ => settles_inSpace _

/- Bodies settle where they are expanded for this name. -/
def BodySettles
    (stack : List String)
    (body : Nat → List Token → Walk Value)
    (body' : List Token → InSpace Value) : Prop :=
  ∀ tokens, SettlesOn stack (fun fuel => body fuel tokens)
    (body' tokens)

variable {body : Nat → List Token → Walk Value}
variable {body' : List Token → InSpace Value}

theorem settles_objectValue
    (hBody : BodySettles stack body body')
    (m : Macro) :
    SettlesOn stack (fun fuel => objectValue (body fuel) m)
      (Evaluator.objectValue body' m) := by
  unfold objectValue Evaluator.objectValue
  cases m.body with
  | nil => exact .pure _
  | cons t ts => exact hBody (t :: ts)

theorem settles_anyObject
    {definitions : List (Condition × Macro)}
    (hBody : definitions ≠ [] → BodySettles stack body body')
    (r : Condition) :
    SettlesOn stack
      (fun fuel => anyObject (body fuel) r definitions)
      (Evaluator.anyObject body' r definitions) := by
  induction definitions generalizing r with
  | nil => exact .pure r
  | cons d rest ih =>
      have hHere := hBody (List.cons_ne_nil d rest)
      unfold anyObject Evaluator.anyObject
      apply (settles_objectValue hHere d.2).bind
      intro _
      apply (settles_inSpace _).bind
      intro _
      apply (settles_inSpace _).bind
      intro _
      exact ih (fun _ => hHere) _

theorem settles_someObject
    {definitions : List (Condition × Macro)}
    (hBody : definitions ≠ [] → BodySettles stack body body')
    (name : String)
    (undecided : Condition) :
    SettlesOn stack
      (fun fuel =>
        someObject (body fuel) name definitions undecided)
      (Evaluator.nameValue.someObject body' name definitions
        undecided) := by
  unfold someObject Evaluator.nameValue.someObject
  apply (settles_anyObject hBody .zero).bind
  intro _
  by_cases hZero : undecided = .zero
  · simp only [hZero, if_true]
    exact .pure _
  · simp only [hZero, if_false]
    apply (settles_inSpace _).bind
    intro _
    apply (settles_inSpace _).bind
    intro _
    apply (settles_inSpace _).bind
    intro _
    exact .pure _

/- Names without decisions have no definitions. -/
theorem contains_of_inForce_ne_nil
    {table : Definitions}
    {space : Space}
    (hSome : (table.inForce name space).1.1 ≠ []) :
    table.contains name = true := by
  by_contra hNone
  apply hSome
  have hFind : Dict.find? name table = none := by
    simpa [Definitions.contains] using hNone
  unfold Definitions.inForce
  rw [hFind]
  rfl

theorem settles_nameValue
    (hBody :
      e.definitions.contains name = true →
        BodySettles stack body body') :
    SettlesOn stack (fun fuel => nameValue e (body fuel) name)
      (e.nameValue body' name) := by
  unfold nameValue Evaluator.nameValue
  apply (settles_inSpace _).bind
  intro space
  have hKnown :
      (e.definitions.inForce name space).1.1 ≠ [] →
        BodySettles stack body body' := fun hSome =>
    hBody (contains_of_inForce_ne_nil hSome)
  generalize (e.definitions.inForce name space).1 = found
    at hKnown
  rcases found with ⟨definitions, undecided⟩
  have hSome := settles_someObject hKnown name undecided
  by_cases hFunction :
      definitions.any (·.2.isFunctionLike) = true
  · simp only [hFunction, if_true]
    exact settles_inSpace _
  simp only [hFunction]
  rcases definitions with _ | ⟨⟨c, m⟩, _ | ⟨d, rest⟩⟩
  · exact hSome
  · by_cases hOne : c = .one
    · simp only [hOne, if_true]
      exact
        settles_objectValue (hKnown (List.cons_ne_nil _ _)) m
    · simp only [hOne, if_false]
      exact hSome
  · exact hSome

theorem settles_callValue
    (hBody :
      e.definitions.contains name = true →
        BodySettles stack body body')
    (arguments : List (List Token))
    (text : String) :
    SettlesOn stack
      (fun fuel => callValue e (body fuel) name arguments text)
      (e.callValue body' name arguments text) := by
  unfold callValue Evaluator.callValue
  apply (settles_inSpace _).bind
  intro space
  have hKnown :
      (e.definitions.inForce name space).1.1 ≠ [] →
        BodySettles stack body body' := fun hSome =>
    hBody (contains_of_inForce_ne_nil hSome)
  generalize (e.definitions.inForce name space).1 = found
    at hKnown
  rcases found with ⟨definitions, undecided⟩
  rcases definitions with _ | ⟨⟨c, m⟩, _ | ⟨d, rest⟩⟩
  · exact settles_inSpace _
  · cases hTokens :
        if c = .one then m.substitute arguments
        else none with
    | some tokens =>
        simp only [hTokens]
        exact hKnown (List.cons_ne_nil _ _) tokens
    | none =>
        simp only [hTokens]
        exact settles_inSpace _
  · exact settles_inSpace _

/- A name that is expanding is its own atom; any other one is free. -/
theorem settles_reference
    {body : Nat → String → List Token → Walk Value}
    (hBody :
      name ∉ stack →
        e.definitions.contains name = true →
          BodySettles stack (fun fuel => body fuel name) body') :
    SettlesOn stack (fun fuel => reference e (body fuel) name)
      (if e.isAtomic stack name then
        .condition <$> Condition.defined name
      else
        e.nameValue body' name) := by
  have hRun (fuel : Nat) (space : Space) (ended : List Expansion) :
      reference e (body fuel) name ⟨space, stack, ended⟩ =
        (if e.isAtomic stack name then
          Value.condition <$> inSpace (Condition.defined name)
        else
          nameValue e (body fuel name) name)
          ⟨space, stack, ended⟩ := rfl
  by_cases hAtomic : e.isAtomic stack name = true
  · simp only [hAtomic, if_true] at hRun ⊢
    exact ((settles_inSpace _).map _).congr hRun
  · simp only [hAtomic] at hRun ⊢
    have hOutside : name ∉ stack := by
      intro hMem
      apply hAtomic
      simp [Evaluator.isAtomic, hMem]
    exact (settles_nameValue (hBody hOutside)).congr hRun

------------------------------------------------------------
-- Expressions
------------------------------------------------------------

variable {body : Nat → String → List Token → Walk Value}
variable {m : Meanings}
variable {takesArguments : String → Bool}
variable {x : Expression}

/- An expression settles if its macros do; one case for each kind. -/
theorem settles_evaluate
    (hCalls : x.CallsOnly takesArguments)
    (hDefined : m.whetherDefined = e.definitions.whetherDefined)
    (hReference :
      ∀ name, SettlesOn stack
        (fun fuel => reference e (body fuel) name)
        (m.reference name))
    (hCall :
      ∀ name arguments text, takesArguments name = true →
        SettlesOn stack
          (fun fuel =>
            callValue e (body fuel name) name arguments text)
          (m.call name arguments text))
    (hUnclosed :
      ∀ name, m.unclosedCall name =
        (fun _ => ()) <$> e.definitions.inForce name) :
    SettlesOn stack (fun fuel => (evaluate e (body fuel) x).run)
      (x.evaluate m).run := by
  induction hCalls with
  | number v => exact .pure (some (Value.number v))
  | defined name =>
      unfold evaluate Expression.evaluate
      rw [hDefined]
      exact (settles_inSpace _).lift.mapValue _
  | builtin text => exact (settles_inSpace _).lift
  | reference name => exact (hReference name).lift
  | @call name arguments text hTakes =>
      cases arguments with
      | some arguments =>
          exact (hCall name arguments text hTakes).lift
      | none =>
          unfold evaluate Expression.evaluate
          rw [hUnclosed]
          exact
            (settles_inSpace _).lift.bindValue fun _ =>
              .pure none
  | sign op text hOperand ih =>
      unfold evaluate Expression.evaluate
      exact ih.bindValue fun _ => (settles_inSpace _).lift
  | operation op text hLeft hRight ihLeft ihRight =>
      unfold evaluate Expression.evaluate
      exact
        ihLeft.bindValue fun _ =>
          ihRight.bindValue fun _ => (settles_inSpace _).lift
  | connective op hLeft hRight ihLeft ihRight =>
      unfold evaluate Expression.evaluate
      exact
        ihLeft.bindValue fun _ =>
          ihRight.bindValue fun _ => (settles_inSpace _).lift
  | conditional hTest hYes hNo ihTest ihYes ihNo =>
      unfold evaluate Expression.evaluate
      apply ihTest.bindValue
      intro c
      apply ihYes.bindValue
      intro a
      apply ihNo.bindValue
      intro b
      cases c with
      | number v => exact .pure _
      | condition c =>
          exact (settles_inSpace _).lift.mapValue _
  | excess hInside ih =>
      unfold evaluate Expression.evaluate
      exact ih.bindValue fun _ => .pure none
  | malformed => exact .pure none

------------------------------------------------------------
-- Room on the Stack
------------------------------------------------------------

/- Different names of the table are no more than there are. -/
theorem length_le_nameCount
    (hNodup : stack.Nodup)
    (hKnown :
      ∀ name ∈ stack, e.definitions.contains name = true) :
    stack.length ≤ nameCount e := by
  have hSubset : stack ⊆ (Dict.keys e.definitions).dedup := by
    intro name hMem
    have hFound := hKnown name hMem
    unfold Definitions.contains at hFound
    rcases Option.isSome_iff_exists.mp hFound with
      ⟨decisions, hFind⟩
    rcases Dict.mem_of_find?_eq hFind with ⟨key, hKey, hEntry⟩
    rw [Std.LawfulEqCmp.compare_eq_iff_eq] at hKey
    rw [List.mem_dedup]
    exact List.mem_map.mpr ⟨_, hEntry, hKey.symm⟩
  exact (List.subperm_of_subset hNodup hSubset).length_le

/-
  The value of some tokens settles, by induction on the names
  that may still be put on the stack.
-/
theorem settles_value
    (depth : Nat)
    (hNodup : stack.Nodup)
    (hKnown :
      ∀ name ∈ stack, e.definitions.contains name = true)
    (hDepth : nameCount e < stack.length + depth)
    (tokens : List Token) :
    SettlesOn stack (fun fuel => value e fuel tokens)
      (e.valueWithin depth stack tokens).run := by
  induction depth generalizing stack tokens with
  | zero =>
      have hLe := length_le_nameCount hNodup hKnown
      omega
  | succ depth ih =>
      have hBody (name : String) (hOutside : name ∉ stack)
          (hTable : e.definitions.contains name = true) :
          BodySettles stack
            (fun fuel => expand e (value e fuel) name)
            (e.bodyValue depth (name :: stack)) := by
        have hNodup' : (name :: stack).Nodup :=
          List.nodup_cons.mpr ⟨hOutside, hNodup⟩
        have hKnown' :
            ∀ other ∈ name :: stack,
              e.definitions.contains other = true :=
          List.forall_mem_cons.mpr ⟨hTable, hKnown⟩
        have hRoom := length_le_nameCount hNodup' hKnown'
        intro body
        exact
          settles_expand hRoom
            (ih hNodup' hKnown'
              (by rw [List.length_cons]; omega) body)
      rw [Evaluator.valueWithin_succ]
      apply Settles.succ _ fun fuel space ended => rfl
      have hCalls :
          Expression.CallsOnly (e.takesArguments stack)
            (Expression.read (e.takesArguments stack) tokens) :=
        Expression.callsOnly_read tokens
      apply settles_evaluate hCalls rfl ?_ ?_ (fun _ => rfl)
      · exact fun name => settles_reference (hBody name)
      · intro name arguments text hTakes
        have hOutside : name ∉ stack := by
          intro hMem
          simp [Evaluator.takesArguments, Evaluator.isAtomic,
            hMem] at hTakes
        exact
          settles_callValue (hBody name hOutside) arguments text

/- With an empty stack there is room for every name. -/
theorem settles_condition (tokens : List Token) :
    SettlesOn [] (fun fuel => condition e fuel tokens)
      (e.condition tokens) := by
  have hDepth :
      nameCount e <
        ([] : List String).length +
          (e.definitions.length + 1) := by
    have hLe :=
      (List.dedup_sublist (Dict.keys e.definitions)).length_le
    rw [Dict.keys, List.length_map] at hLe
    unfold nameCount
    rw [List.length_nil, Dict.keys]
    omega
  unfold condition Evaluator.condition
  apply
    (settles_value _ List.nodup_nil (by simp) hDepth tokens).bind
  intro space
  cases ((e.valueWithin (e.definitions.length + 1) []
      tokens).run space).1 with
  | some v => exact .pure _
  | none => exact settles_inSpace _

end Walk

end Variability
