import Variability.Macro.Definitions
import Variability.Proofs.Condition.Space
import Variability.Proofs.Dict.Entries

/-
  What the definitions of a file say under an assignment.

  Under every assignment a macro is defined, undefined or
  undecided. Recording a decision changes that where its
  condition holds and nowhere else, and the condition under
  which a macro is defined tells it from the free atom.

  Main declarations:
    * `Status`
    * `Definitions.status`
    * `Definitions.ensures_record`
    * `Definitions.ensures_whetherDefined`
-/

namespace Variability

------------------------------------------------------------
-- Statuses
------------------------------------------------------------

/- What the directives so far say about a macro. -/
inductive Status where
  | defined
  | undefined
  | undecided
  deriving DecidableEq, Repr

/- The status that a decision gives. -/
def Status.ofDefinition (definition : Option Macro) : Status :=
  if definition.isSome then .defined else .undefined

namespace Definitions

variable {s s' s₀ : Space}
variable {table table' : Definitions}
variable {name name' : String}
variable {a : Nat → Bool}
variable {c : Condition}

/- The decisions about a macro. -/
def decisions
    (table : Definitions)
    (name : String) :
    List Decision :=
  (Dict.find? name table).getD []

/- The conditions of all decisions are live. -/
def IsLive (s : Space) (table : Definitions) : Prop :=
  ∀ name, ∀ d ∈ table.decisions name,
    s.manager.IsLive d.condition

theorem IsLive.grows
    (hLive : IsLive s table)
    (hGrows : s.Grows s') :
    IsLive s' table :=
  fun name d hd => hGrows.isLive (hLive name d hd)

/- Whether a decision of some kind holds. -/
def holds
    (s : Space)
    (a : Nat → Bool)
    (p : Decision → Bool)
    (ds : List Decision) :
    Bool :=
  ds.any fun d => p d && s.manager.eval d.condition a

/- What the decisions in force say about a macro. -/
def status
    (s : Space)
    (a : Nat → Bool)
    (table : Definitions)
    (name : String) :
    Status :=
  if holds s a (·.definition.isSome) (table.decisions name) then
    .defined
  else if holds s a (fun _ => true) (table.decisions name) then
    .undefined
  else
    .undecided

------------------------------------------------------------
-- Recording
------------------------------------------------------------

open InSpace

/- A decision that is left where a condition fails. -/
structure Restricted
    (c : Condition)
    (s : Space)
    (d d' : Decision) : Prop where
  definition_eq : d'.definition = d.definition
  means :
    s.Means
      (fun s' a =>
        s'.manager.eval d.condition a &&
          !s'.manager.eval c a)
      d'.condition

theorem ensures_restrict
    {d : Decision}
    (hDecision : s₀.manager.IsLive d.condition)
    (hc : s₀.manager.IsLive c) :
    Ensures s₀ (restrict c d) fun s d' =>
      Restricted c s d d' := by
  unfold restrict
  have hAnd :=
    Condition.ensures_and (Space.means_self hDecision)
      (Space.means_self hc).neg
  apply hAnd.bind
  intro s out _ _ hOut
  apply Ensures.pure
  intro s' _ hGrows
  exact ⟨rfl, hOut.grows hGrows⟩

/- Restricted decisions hold where they held and the condition fails. -/
theorem holds_restricted
    {p : Option Macro → Bool}
    {ds ds' : List Decision}
    (hRestricted : List.Forall₂ (Restricted c s) ds ds')
    (hSound' : s'.Sound)
    (hGrows : s.Grows s') :
    holds s' a (fun d => p d.definition) ds' =
      (holds s' a (fun d => p d.definition) ds &&
        !s'.manager.eval c a) := by
  induction hRestricted with
  | nil => simp [holds]
  | @cons d d' ds ds' hFirst _ ih =>
      have hEval := hFirst.means.eval_eq s' hSound' hGrows a
      simp only [holds, List.any_cons] at ih ⊢
      rw [ih, hFirst.definition_eq, hEval]
      cases p d.definition <;>
        cases s'.manager.eval d.condition a <;>
        cases s'.manager.eval c a <;> simp

theorem isLive_of_restricted
    {ds ds' : List Decision}
    (hRestricted : List.Forall₂ (Restricted c s) ds ds') :
    ∀ d ∈ ds', s.manager.IsLive d.condition := by
  induction hRestricted with
  | nil => simp
  | cons hFirst _ ih =>
      intro d hd
      rcases List.mem_cons.mp hd with rfl | hd
      · exact hFirst.means.isLive
      · exact ih d hd

/- Decisions that hold nowhere can go. -/
theorem holds_filter
    {p : Decision → Bool}
    (s : Space)
    (ds : List Decision) :
    holds s a p (ds.filter (·.condition ≠ .zero)) =
      holds s a p ds := by
  induction ds with
  | nil => rfl
  | cons d ds ih =>
      unfold holds at ih ⊢
      by_cases hZero : d.condition = .zero
      · simp only [hZero, ne_eq, not_true_eq_false,
          decide_false, Bool.false_eq_true, not_false_eq_true,
          List.filter_cons_of_neg, List.any_cons,
          Diagram.Manager.eval_zero, Bool.and_false,
          Bool.false_or]
        exact ih
      · simp only [ne_eq, hZero, not_false_eq_true,
          decide_true, List.filter_cons_of_pos,
          List.any_cons, ih]

theorem holds_append
    (s : Space)
    (p : Decision → Bool)
    (ds : List Decision)
    (d : Decision) :
    holds s a p (ds ++ [d]) =
      (holds s a p ds ||
        p d && s.manager.eval d.condition a) := by
  simp [holds]

theorem decisions_insert
    (table : Definitions)
    (name name' : String)
    (ds : List Decision) :
    decisions (Dict.insert name ds table) name' =
      if name' = name then ds else table.decisions name' := by
  unfold decisions
  rw [Dict.find?_insert]
  split <;> rfl

/-
  A table after a decision about a macro: where its condition
  holds it gives the status of the macro, and elsewhere no
  status changes.
-/
structure Recorded
    (table : Definitions)
    (name : String)
    (definition : Option Macro)
    (c : Condition)
    (s : Space)
    (table' : Definitions) : Prop where
  isLive : IsLive s table'
  status_eq :
    ∀ s', s'.Sound → s.Grows s' → ∀ a name',
      status s' a table' name' =
        if name' = name ∧ s'.manager.eval c a = true then
          Status.ofDefinition definition
        else
          status s' a table name'

/-
  A table after a new decision: the earlier ones about its macro
  are restricted, and those that are left nowhere go.
-/
def Replaces
    (table : Definitions)
    (name : String)
    (definition : Option Macro)
    (c : Condition)
    (s : Space)
    (table' : Definitions) : Prop :=
  ∃ ds,
    List.Forall₂ (Restricted c s) (table.decisions name) ds ∧
    ∀ name',
      table'.decisions name' =
        if name' = name then
          ds.filter (·.condition ≠ .zero) ++ [⟨c, definition⟩]
        else table.decisions name'

theorem ensures_record_replaces
    (hTable : IsLive s₀ table)
    (hc : s₀.manager.IsLive c)
    (definition : Option Macro) :
    Ensures s₀ (table.record name definition c) fun s table' =>
      Replaces table name definition c s table' := by
  unfold record
  have hRestrict :
      Ensures s₀ ((table.decisions name).mapM (restrict c))
        fun s ds =>
          List.Forall₂ (Restricted c s)
            (table.decisions name) ds := by
    apply Ensures.mapM
    · intro d hd
      exact ensures_restrict (hTable name d hd) hc
    · intro s s' d d' hGrows hRestricted
      exact
        ⟨hRestricted.definition_eq,
          hRestricted.means.grows hGrows⟩
  apply hRestrict.bind
  intro s ds _ _ hds
  apply Ensures.pure
  intro s' _ hGrows
  refine ⟨ds, ?_, ?_⟩
  · apply hds.imp
    intro d d' hRestricted
    exact
      ⟨hRestricted.definition_eq,
        hRestricted.means.grows hGrows⟩
  · intro name'
    exact decisions_insert table name name' _

theorem Replaces.isLive
    {definition : Option Macro}
    (hReplaces : Replaces table name definition c s table')
    (hTable : IsLive s table)
    (hc : s.manager.IsLive c) :
    IsLive s table' := by
  rcases hReplaces with ⟨ds, hds, hDecisions⟩
  intro name' d hd
  rw [hDecisions] at hd
  by_cases hName : name' = name
  · rw [if_pos hName, List.mem_append,
      List.mem_singleton] at hd
    rcases hd with hd | rfl
    · have hMem := (List.mem_filter.mp hd).1
      exact isLive_of_restricted hds d hMem
    · exact hc
  · rw [if_neg hName] at hd
    exact hTable name' d hd

theorem Replaces.status_eq
    {definition : Option Macro}
    (hReplaces : Replaces table name definition c s table')
    (hSound' : s'.Sound)
    (hGrows : s.Grows s')
    (a : Nat → Bool)
    (name' : String) :
    status s' a table' name' =
      if name' = name ∧ s'.manager.eval c a = true then
        Status.ofDefinition definition
      else
        status s' a table name' := by
  rcases hReplaces with ⟨ds, hds, hDecisions⟩
  unfold status
  rw [hDecisions]
  by_cases hName : name' = name
  · have hHolds (p : Option Macro → Bool) :=
      holds_restricted (a := a) (p := p) hds hSound' hGrows
    simp only [hName, if_true, true_and, holds_append,
      holds_filter]
    rw [hHolds Option.isSome, hHolds fun _ => true]
    cases hEval : s'.manager.eval c a
    · simp [holds]
    · cases definition <;>
        simp [holds, Status.ofDefinition]
  · simp [hName]

theorem ensures_record
    (hTable : IsLive s₀ table)
    (hc : s₀.manager.IsLive c)
    (definition : Option Macro) :
    Ensures s₀ (table.record name definition c) fun s table' =>
      Recorded table name definition c s table' := by
  apply (ensures_record_replaces hTable hc definition).imp
  intro s table' _ hGrows hReplaces
  exact
    ⟨hReplaces.isLive (hTable.grows hGrows)
        (hGrows.isLive hc),
      fun _ hSound' hGrows' =>
        hReplaces.status_eq hSound' hGrows'⟩

------------------------------------------------------------
-- Asking
------------------------------------------------------------

theorem decisions_isLive
    {p : Decision → Bool}
    (hTable : IsLive s table)
    (name : String) :
    ∀ d ∈ (table.decisions name).filter p,
      s.manager.IsLive d.condition :=
  fun d hd => hTable name d (List.mem_of_mem_filter hd)

theorem ensures_decided
    {ds : List Decision}
    (hLive : ∀ d ∈ ds, s₀.manager.IsLive d.condition) :
    Ensures s₀ (decided ds) fun s c =>
      s.Means
        (fun s' a => holds s' a (fun _ => true) ds) c := by
  unfold decided
  have hAny :
      ∀ c ∈ ds.map (·.condition), s₀.manager.IsLive c := by
    intro c hc
    rcases List.mem_map.mp hc with ⟨d, hd, rfl⟩
    exact hLive d hd
  apply (Condition.ensures_anyOf hAny).imp
  intro s c _ _ hMeans
  apply hMeans.congr
  intro s' _ _ a
  simp [holds, List.any_map, Function.comp_def]

theorem holds_true_filter
    (s : Space)
    (p : Decision → Bool)
    (ds : List Decision) :
    holds s a (fun _ => true) (ds.filter p) =
      holds s a p ds := by
  simp [holds, List.any_filter]

/-
  The condition under which a macro is defined holds where its
  status says so; where it is undecided, the atom does.
-/
theorem ensures_whetherDefined
    (hTable : IsLive s₀ table)
    (name : String) :
    Ensures s₀ (table.whetherDefined name) fun s c =>
      s.Means
        (fun s' a =>
          match status s' a table name with
          | .defined => true
          | .undefined => false
          | .undecided => s'.atomValue a (.defined name))
        c := by
  unfold whetherDefined
  apply
    (ensures_decided
      (decisions_isLive hTable name)).bind
  intro s isDefined _ hGrows hDefined
  apply
    (ensures_decided fun d hd =>
      (hTable.grows hGrows) name d hd).bind
  intro s' isDecided _ hGrows' hDecided
  have hDefined' := hDefined.grows hGrows'
  by_cases hOne : isDecided = .one
  · rw [if_pos hOne]
    apply Ensures.pure
    intro s'' hSound'' hGrows''
    apply (hDefined'.grows hGrows'').congr
    intro s₃ hSound₃ hGrows₃ a
    have hAll :=
      hDecided.eval_eq s₃ hSound₃
        (hGrows''.trans hGrows₃) a
    rw [hOne, Diagram.Manager.eval_one] at hAll
    rw [holds_true_filter]
    unfold status
    rw [← hAll]
    cases holds s₃ a (·.definition.isSome)
        (table.decisions name) <;> rfl
  · rw [if_neg hOne]
    apply (Condition.ensures_atom (.defined name)).bind
    intro s'' free _ hGrows'' hFree
    apply
      (Condition.ensures_and (hDecided.grows hGrows'').neg
        hFree).bind
    intro s₃ both _ hGrows₃ hBoth
    apply
      (Condition.ensures_or
        (hDefined'.grows (hGrows''.trans hGrows₃))
        hBoth).imp
    intro s₄ c _ _ hMeans
    apply hMeans.congr
    intro s₅ _ _ a
    rw [holds_true_filter]
    unfold status
    change
      (_ || !holds s₅ a (fun _ => true)
          (table.decisions name) && _) = _
    cases holds s₅ a (·.definition.isSome)
        (table.decisions name) <;>
      cases holds s₅ a (fun _ => true)
        (table.decisions name) <;> simp

/- The definitions in force have live conditions. -/
theorem ensures_inForce
    (hTable : IsLive s₀ table)
    (name : String) :
    Ensures s₀ (table.inForce name) fun s out =>
      (∀ entry ∈ out.1, s.manager.IsLive entry.1) ∧
        s.manager.IsLive out.2 := by
  unfold inForce
  apply (ensures_decided fun d hd => hTable name d hd).bind
  intro s isDecided _ hGrows hDecided
  apply Ensures.pure
  intro s' _ hGrows'
  constructor
  · intro entry hEntry
    rcases List.mem_filterMap.mp hEntry with ⟨d, hd, hSome⟩
    rcases Option.map_eq_some_iff.mp hSome with ⟨m, _, rfl⟩
    exact
      (hGrows.trans hGrows').isLive (hTable name d hd)
  · exact (hDecided.neg.grows hGrows').isLive

end Definitions

end Variability
