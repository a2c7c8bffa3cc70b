import Variability.Proofs.Expression.Concrete
import Variability.Proofs.Macro.Definitions

/-
  Macros that are integers.

  A table whose definitions are numbers gives every macro a
  value under an assignment: that of the definition in force, or
  the one it had before anything was decided. Recording a
  decision changes the value of its macro where its condition
  holds.

  Main declarations:
    * `Macro.literal?`
    * `Definitions.IsPlain`
    * `Definitions.Gives`
    * `Definitions.Gives.record`
-/

namespace Variability

/- The number that a macro without arguments is. -/
def Macro.literal? (m : Macro) : Option Int64 :=
  match m.parameters, m.body with
  | none, [t] =>
      if t.kind = .number then Expression.numberValue? t.text
      else none
  | _, _ => none

theorem Macro.exists_of_literal?_eq_some
    {m : Macro}
    {v : Int64}
    (hLiteral : m.literal? = some v) :
    m.isFunctionLike = false ∧
      ∃ t, m.body = [t] ∧ t.kind = .number ∧
        Expression.numberValue? t.text = some v := by
  rcases m with ⟨parameters, variadic, body⟩
  cases parameters with
  | some names => cases hLiteral
  | none =>
      match body with
      | [] => cases hLiteral
      | _ :: _ :: _ => cases hLiteral
      | [t] =>
          have hIf :
              (if t.kind = .number then
                  Expression.numberValue? t.text
                else none) = some v :=
            hLiteral
          by_cases hKind : t.kind = .number
          · rw [if_pos hKind] at hIf
            exact ⟨rfl, t, rfl, hKind, hIf⟩
          · rw [if_neg hKind] at hIf
            cases hIf

namespace Definitions

variable {s s' : Space}
variable {a : Nat → Bool}
variable {c : Condition}
variable {table table' : Definitions}
variable {initial macros : MacroValues}
variable {isFree : String → Bool}
variable {name : String}

------------------------------------------------------------
-- Definitions
------------------------------------------------------------

/- The definitions of a macro with their conditions. -/
def entries
    (table : Definitions)
    (name : String) :
    List (Condition × Macro) :=
  (table.decisions name).filterMap fun d =>
    d.definition.map (d.condition, ·)

theorem mem_entries_iff
    {m : Macro} :
    (c, m) ∈ table.entries name ↔
      ⟨c, some m⟩ ∈ table.decisions name := by
  unfold entries
  rw [List.mem_filterMap]
  constructor
  · rintro ⟨⟨c', definition⟩, hd, hSome⟩
    rcases Option.map_eq_some_iff.mp hSome with
      ⟨m', hm, hEq⟩
    cases hEq
    change definition = some m at hm
    exact hm ▸ hd
  · intro hd
    exact ⟨_, hd, rfl⟩

/- Nothing was decided about a macro that the table misses. -/
theorem decisions_of_not_contains
    (hNone : table.contains name = false) :
    table.decisions name = [] := by
  unfold contains at hNone
  unfold decisions
  rw [Option.isSome_eq_false_iff, Option.isNone_iff_eq_none]
    at hNone
  rw [hNone]
  rfl

theorem entries_of_not_contains
    (hNone : table.contains name = false) :
    table.entries name = [] := by
  unfold entries
  rw [decisions_of_not_contains hNone]
  rfl

theorem isFunctionLike_eq
    (table : Definitions)
    (name : String) :
    table.isFunctionLike name =
      (table.entries name).any (·.2.isFunctionLike) := by
  unfold isFunctionLike entries
  rw [List.any_filterMap]
  congr 1
  funext d
  cases d.definition <;> rfl

/- What is in force are the definitions of a macro, and where there is none. -/
theorem ensures_inForce_means
    (hTable : IsLive s table)
    (name : String) :
    InSpace.Ensures s (table.inForce name) fun s' out =>
      out.1 = table.entries name ∧
        s'.Means
          (fun s'' a =>
            !holds s'' a (fun _ => true)
              (table.decisions name))
          out.2 := by
  unfold inForce
  apply (ensures_decided fun d hd => hTable name d hd).bind
  intro s' isDecided _ _ hDecided
  apply InSpace.Ensures.pure
  intro s'' _ hGrows
  exact ⟨rfl, (hDecided.grows hGrows).neg⟩

/- The number of a definition that is the only one everywhere. -/
def number? : List (Condition × Macro) → Option Int64
  | [(c, m)] => if c = .one then m.literal? else none
  | _ => none

/- The number that a macro is everywhere. -/
def constant? (table : Definitions) : MacroValues :=
  fun name => number? (table.entries name)

/- All definitions are numbers, and of macros that do not stay open. -/
structure IsPlain
    (isFree : String → Bool)
    (table : Definitions) : Prop where
  literal :
    ∀ name, ∀ d ∈ table.decisions name, ∀ m,
      d.definition = some m → m.literal?.isSome = true
  free :
    ∀ name, isFree name = true → table.decisions name = []

theorem isPlain_nil : IsPlain isFree [] where
  literal := fun _ _ hd => by cases hd
  free := fun _ _ => rfl

/- Restricted decisions keep their definitions. -/
theorem definitions_restricted
    {ds ds' : List Decision}
    (hRestricted : List.Forall₂ (Restricted c s) ds ds') :
    ds'.map (·.definition) = ds.map (·.definition) := by
  induction hRestricted with
  | nil => rfl
  | cons hFirst _ ih =>
      rw [List.map_cons, List.map_cons, ih,
        hFirst.definition_eq]

/- A number for a macro that does not stay open keeps a table plain. -/
theorem IsPlain.record
    (hPlain : table.IsPlain isFree)
    {definition : Option Macro}
    (hFree : isFree name = false)
    (hLiteral :
      ∀ m, definition = some m → m.literal?.isSome = true)
    (hReplaces : Replaces table name definition c s table') :
    table'.IsPlain isFree := by
  rcases hReplaces with ⟨ds, hds, hDecisions⟩
  constructor
  · intro name' d hd m hm
    rw [hDecisions] at hd
    by_cases hName : name' = name
    · rw [if_pos hName, List.mem_append,
        List.mem_singleton] at hd
      rcases hd with hd | rfl
      · have hMem :
            some m ∈
              (table.decisions name).map (·.definition) := by
          rw [← definitions_restricted hds]
          exact
            List.mem_map.mpr
              ⟨d, (List.mem_filter.mp hd).1, hm⟩
        rcases List.mem_map.mp hMem with ⟨old, hOld, hm'⟩
        exact hPlain.literal name old hOld m hm'
      · exact hLiteral m hm
    · rw [if_neg hName] at hd
      exact hPlain.literal name' d hd m hm
  · intro name' hFree'
    rw [hDecisions, if_neg]
    · exact hPlain.free name' hFree'
    · rintro rfl
      rw [hFree] at hFree'
      cases hFree'

------------------------------------------------------------
-- Values
------------------------------------------------------------

/-
  The values of macros under an assignment: a decision that
  holds gives the value of its definition, and without one it is
  the initial value.
-/
structure Gives
    (s : Space)
    (a : Nat → Bool)
    (initial : MacroValues)
    (table : Definitions)
    (macros : MacroValues) : Prop where
  decided :
    ∀ name v,
      holds s a
          (fun d => d.definition.bind Macro.literal? = v)
          (table.decisions name) = true →
        macros name = v
  undecided :
    ∀ name,
      holds s a (fun _ => true) (table.decisions name) =
          false →
        macros name = initial name

theorem gives_nil
    (s : Space)
    (a : Nat → Bool)
    (initial : MacroValues) :
    Gives s a initial [] initial where
  decided := fun _ _ hHolds => by cases hHolds
  undecided := fun _ _ => rfl

/- A recorded decision gives its macro the value of its definition. -/
theorem Gives.record
    (hGives : Gives s' a initial table macros)
    (hSound' : s'.Sound)
    (hGrows : s.Grows s')
    {definition : Option Macro}
    (hReplaces : Replaces table name definition c s table') :
    Gives s' a initial table'
      (if s'.manager.eval c a then
          Function.update macros name
            (definition.bind Macro.literal?)
        else macros) := by
  rcases hReplaces with ⟨ds, hds, hDecisions⟩
  have hHolds (p : Option Macro → Bool) :=
    holds_restricted (a := a) (p := p) hds hSound' hGrows
  constructor
  · intro name' v hHere
    rw [hDecisions] at hHere
    by_cases hName : name' = name
    · subst hName
      rw [if_pos rfl, holds_append, holds_filter,
        hHolds fun o => o.bind Macro.literal? = v] at hHere
      cases hEval : s'.manager.eval c a with
      | true => simpa [hEval] using hHere
      | false =>
          rw [hEval] at hHere
          apply hGives.decided
          simpa using hHere
    · rw [if_neg hName] at hHere
      have hOld := hGives.decided name' v hHere
      cases s'.manager.eval c a
      · exact hOld
      · simpa [Function.update_of_ne hName] using hOld
  · intro name' hNone
    rw [hDecisions] at hNone
    by_cases hName : name' = name
    · subst hName
      rw [if_pos rfl, holds_append, holds_filter,
        hHolds fun _ => true] at hNone
      cases hEval : s'.manager.eval c a with
      | true => simp [hEval] at hNone
      | false =>
          rw [hEval] at hNone
          apply hGives.undecided
          simpa using hNone
    · rw [if_neg hName] at hNone
      have hOld := hGives.undecided name' hNone
      cases s'.manager.eval c a
      · exact hOld
      · simpa [Function.update_of_ne hName] using hOld

------------------------------------------------------------
-- Asking
------------------------------------------------------------

theorem holds_iff
    {p : Decision → Bool}
    {ds : List Decision} :
    holds s a p ds = true ↔
      ∃ d ∈ ds,
        p d = true ∧ s.manager.eval d.condition a = true := by
  simp [holds]

/- A decision that holds gives the value of its definition. -/
theorem Gives.of_mem
    (hGives : Gives s a initial table macros)
    {d : Decision}
    (hMem : d ∈ table.decisions name)
    (hEval : s.manager.eval d.condition a = true) :
    macros name = d.definition.bind Macro.literal? := by
  apply hGives.decided
  exact holds_iff.mpr ⟨d, hMem, by simp, hEval⟩

/- The number that a macro is everywhere is its value. -/
theorem Gives.constant?_eq
    (hGives : Gives s a initial table macros)
    {v : Int64}
    (hConstant : table.constant? name = some v) :
    macros name = some v := by
  unfold constant? at hConstant
  match hEntries : table.entries name with
  | [] => simp [hEntries, number?] at hConstant
  | _ :: _ :: _ => simp [hEntries, number?] at hConstant
  | [(c, m)] =>
      simp only [hEntries, number?,
        Option.ite_none_right_eq_some] at hConstant
      rcases hConstant with ⟨rfl, hLiteral⟩
      have hMem : ⟨.one, some m⟩ ∈ table.decisions name := by
        rw [← mem_entries_iff, hEntries]
        exact List.mem_singleton_self _
      rw [hGives.of_mem hMem (s.manager.eval_one a)]
      exact hLiteral

/- A macro is defined where its status says so. -/
theorem Gives.isSome_eq
    (hGives : Gives s a initial table macros)
    (hPlain : table.IsPlain isFree)
    (name : String) :
    (match status s a table name with
      | .defined => true
      | .undefined => false
      | .undecided => (initial name).isSome) =
      (macros name).isSome := by
  unfold status
  cases hDefined :
      holds s a (·.definition.isSome)
        (table.decisions name) with
  | true =>
      rcases holds_iff.mp hDefined with
        ⟨d, hMem, hSome, hEval⟩
      rcases Option.isSome_iff_exists.mp hSome with ⟨m, hm⟩
      rw [hGives.of_mem hMem hEval, hm]
      exact (hPlain.literal name d hMem m hm).symm
  | false =>
      cases hDecided :
          holds s a (fun _ => true)
            (table.decisions name) with
      | false =>
          rw [hGives.undecided name hDecided]
          rfl
      | true =>
          rcases holds_iff.mp hDecided with
            ⟨d, hMem, -, hEval⟩
          have hNone : d.definition = none := by
            rw [← Option.not_isSome_iff_eq_none]
            intro hSome
            have hHolds :=
              holds_iff (p := (·.definition.isSome)).mpr
                ⟨d, hMem, hSome, hEval⟩
            rw [hDefined] at hHolds
            cases hHolds
          rw [hGives.of_mem hMem hEval, hNone]
          rfl

/-
  A macro is not zero where a definition in force is not, or
  where nothing is decided and it is defined at all.
-/
theorem Gives.ne_zero_eq
    (hGives : Gives s a initial table macros)
    (hInitial : initial name ≠ some 0) :
    ((table.entries name).any
        (fun e =>
          s.manager.eval e.1 a && e.2.literal?.getD 0 ≠ 0) ||
      (!holds s a (fun _ => true) (table.decisions name) &&
        (initial name).isSome)) =
      decide ((macros name).getD 0 ≠ 0) := by
  cases hDecided :
      holds s a (fun _ => true) (table.decisions name) with
  | false =>
      have hNone :
          (table.entries name).any
              (fun e =>
                s.manager.eval e.1 a &&
                  e.2.literal?.getD 0 ≠ 0) = false := by
        rw [List.any_eq_false]
        rintro ⟨c, m⟩ hMem hHolds
        rw [Bool.and_eq_true] at hHolds
        have hDecision :=
          holds_iff (p := fun _ => true).mpr
            ⟨_, mem_entries_iff.mp hMem, rfl, hHolds.1⟩
        rw [hDecided] at hDecision
        cases hDecision
      rw [hNone, hGives.undecided name hDecided]
      cases hValue : initial name with
      | none => rfl
      | some v =>
          have hNe : v ≠ 0 := fun hZero =>
            hInitial (hValue.trans (congrArg some hZero))
          simpa using hNe
  | true =>
      rcases holds_iff.mp hDecided with ⟨d, hMem, -, hEval⟩
      rw [Bool.not_true, Bool.false_and, Bool.or_false,
        Bool.eq_iff_iff, List.any_eq_true,
        decide_eq_true_iff]
      constructor
      · rintro ⟨⟨c, m⟩, hEntry, hHolds⟩
        rw [Bool.and_eq_true, decide_eq_true_iff] at hHolds
        rw [hGives.of_mem (mem_entries_iff.mp hEntry)
          hHolds.1]
        exact hHolds.2
      · intro hNe
        rw [hGives.of_mem hMem hEval] at hNe
        rcases d with ⟨c, definition⟩
        cases definition with
        | none => exact absurd rfl hNe
        | some m =>
            refine ⟨(c, m), mem_entries_iff.mpr hMem, ?_⟩
            rw [Bool.and_eq_true, decide_eq_true_iff]
            exact ⟨hEval, hNe⟩

end Definitions

end Variability
