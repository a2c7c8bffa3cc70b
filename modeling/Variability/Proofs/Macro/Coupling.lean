import Mathlib.Data.List.Forall2
import Variability.Macro.Definitions
import Variability.Proofs.Condition.Coupling
import Variability.Proofs.Macro.Definitions
import Variability.Proofs.Token.Position

/-
  The definitions of two runs.

  Two tables belong together if they decide about the same names
  in the same order, under conditions that belong together and
  by macros that differ at most in where they stand. Recording a
  decision and asking for definitions keeps this.

  Main declarations:
    * `Definitions.Alike`
    * `Definitions.couples_record`
    * `Definitions.couples_whetherDefined`
    * `Definitions.couples_inForce`
-/

namespace Variability

open Coupling

variable {R : Coupling}
variable {s t s' t' s₀ t₀ : Space}

/- Decisions that say the same in two runs. -/
structure Decision.Alike
    (R : Coupling)
    (s t : Space)
    (d d' : Decision) : Prop where
  condition : R.conditions s t d.condition d'.condition
  definition :
    Option.Rel Macro.Alike d.definition d'.definition

theorem Decision.Alike.later
    {d d' : Decision}
    (hAlike : d.Alike R s t d')
    (hLater : R.Later s t s' t') :
    d.Alike R s' t' d' :=
  ⟨hLater.keeps hAlike.condition, hAlike.definition⟩

/- A definition takes arguments in both runs or in none. -/
theorem Decision.Alike.any_eq
    {d d' : Decision}
    (hAlike : d.Alike R s t d') :
    d.definition.any (·.isFunctionLike) =
      d'.definition.any (·.isFunctionLike) := by
  have hDefinition := hAlike.definition
  generalize d.definition = m at hDefinition ⊢
  generalize d'.definition = m' at hDefinition ⊢
  cases hDefinition with
  | none => rfl
  | some hMacro => exact hMacro.isFunctionLike_eq

theorem Decision.Alike.isSome_eq
    {d d' : Decision}
    (hAlike : d.Alike R s t d') :
    d.definition.isSome = d'.definition.isSome := by
  have hDefinition := hAlike.definition
  generalize d.definition = m at hDefinition ⊢
  generalize d'.definition = m' at hDefinition ⊢
  cases hDefinition <;> rfl

namespace Definitions

variable {table table' : Definitions}
variable {name : String}
variable {ds ds' : List Decision}
variable {c c' : Condition}

/- The decisions of two entries about one name. -/
structure EntryAlike
    (R : Coupling)
    (s t : Space)
    (entry entry' : String × List Decision) : Prop where
  name_eq : entry.1 = entry'.1
  decisions :
    List.Forall₂ (Decision.Alike R s t) entry.2 entry'.2

/- Tables that say the same in two runs. -/
def Alike
    (R : Coupling)
    (s t : Space)
    (table table' : Definitions) : Prop :=
  List.Forall₂ (EntryAlike R s t) table table'

namespace Alike

theorem later
    (hAlike : Alike R s t table table')
    (hLater : R.Later s t s' t') :
    Alike R s' t' table table' :=
  hAlike.imp fun _ _ h =>
    ⟨h.name_eq, h.decisions.imp fun _ _ h => h.later hLater⟩

theorem find?
    (hAlike : Alike R s t table table')
    (name : String) :
    Option.Rel (List.Forall₂ (Decision.Alike R s t))
      (Dict.find? name table) (Dict.find? name table') := by
  induction hAlike with
  | nil => exact .none
  | @cons entry entry' _ _ hFirst _ ih =>
      unfold Dict.find? at ih ⊢
      rw [List.find?_cons, List.find?_cons, hFirst.name_eq]
      cases compare name entry'.1 == .eq with
      | true => exact .some hFirst.decisions
      | false => exact ih

theorem decisions
    (hAlike : Alike R s t table table')
    (name : String) :
    List.Forall₂ (Decision.Alike R s t)
      (table.decisions name) (table'.decisions name) := by
  have hFind := hAlike.find? name
  unfold Definitions.decisions
  generalize Dict.find? name table = found at hFind ⊢
  generalize Dict.find? name table' = found' at hFind ⊢
  cases hFind with
  | none => exact .nil
  | some hDecisions => exact hDecisions

theorem contains_eq
    (hAlike : Alike R s t table table')
    (name : String) :
    table.contains name = table'.contains name := by
  have hFind := hAlike.find? name
  unfold Definitions.contains
  generalize Dict.find? name table = found at hFind ⊢
  generalize Dict.find? name table' = found' at hFind ⊢
  cases hFind <;> rfl

theorem insert
    (hAlike : Alike R s t table table')
    (name : String)
    (hDecisions : List.Forall₂ (Decision.Alike R s t) ds ds') :
    Alike R s t (Dict.insert name ds table)
      (Dict.insert name ds' table') := by
  induction hAlike with
  | nil => exact .cons ⟨rfl, hDecisions⟩ .nil
  | @cons entry entry' rest rest' hFirst hRest ih =>
      rcases entry with ⟨other, old⟩
      rcases entry' with ⟨other', old'⟩
      rcases hFirst with ⟨hName, hOld⟩
      dsimp only at hName hOld
      subst hName
      unfold Dict.insert
      cases compare name other with
      | lt =>
          exact .cons ⟨rfl, hDecisions⟩
            (.cons ⟨rfl, hOld⟩ hRest)
      | eq => exact .cons ⟨rfl, hDecisions⟩ hRest
      | gt => exact .cons ⟨rfl, hOld⟩ ih

/- Tables that say the same let the same macros take arguments. -/
theorem isFunctionLike_eq
    (hAlike : Alike R s t table table')
    (name : String) :
    table.isFunctionLike name =
      table'.isFunctionLike name := by
  have hDecisions := hAlike.decisions name
  change
    (table.decisions name).any _ =
      (table'.decisions name).any _
  generalize table.decisions name = ds at hDecisions ⊢
  generalize table'.decisions name = ds' at hDecisions ⊢
  induction hDecisions with
  | nil => rfl
  | @cons d d' _ _ hFirst _ ih =>
      rw [List.any_cons, List.any_cons, ih, hFirst.any_eq]

end Alike

------------------------------------------------------------
-- Recording
------------------------------------------------------------

theorem couples_restrict
    (hLawful : R.Lawful)
    (hSpaces : R.spaces s₀ t₀)
    {d d' : Decision}
    (hDecision : d.Alike R s₀ t₀ d')
    (hc : R.conditions s₀ t₀ c c') :
    R.Couples s₀ t₀ (restrict c d) (restrict c' d')
      fun s t => Decision.Alike R s t := by
  unfold restrict
  have hAnd :=
    hLawful.and hDecision.condition (hLawful.neg hSpaces hc)
  apply hAnd.bind
  intro s t out out' _ hOut
  apply Couples.pure
  intro s' t' hLater
  exact ⟨hLater.keeps hOut, hDecision.definition⟩

theorem couples_record
    (hLawful : R.Lawful)
    (hSpaces : R.spaces s₀ t₀)
    (hTable : Alike R s₀ t₀ table table')
    (hc : R.conditions s₀ t₀ c c')
    {definition definition' : Option Macro}
    (hDefinition :
      Option.Rel Macro.Alike definition definition')
    (name : String) :
    R.Couples s₀ t₀ (table.record name definition c)
      (table'.record name definition' c')
      fun s t => Alike R s t := by
  unfold record
  have hRestrict :=
    Couples.mapM (hTable.decisions name)
      (fun _ _ h => couples_restrict hLawful hSpaces h hc)
      fun hLater h => h.later hLater
  apply hRestrict.bind
  intro s t ds ds' hLater hds
  apply Couples.pure
  intro s' t' hLater'
  have hLaterAll := hLater.trans hLater'
  apply (hTable.later hLaterAll).insert
  apply List.rel_append
  · refine List.rel_filter ?_ (hds.imp fun _ _ h =>
      h.later hLater')
    intro d d' hAlike
    have hZero :=
      hLawful.eq_zero_iff hLater'.spaces hAlike.condition
    simpa using hZero.not
  · exact .cons ⟨hLaterAll.keeps hc, hDefinition⟩ .nil

------------------------------------------------------------
-- Asking
------------------------------------------------------------

theorem couples_decided
    (hLawful : R.Lawful)
    (hDecisions :
      List.Forall₂ (Decision.Alike R s₀ t₀) ds ds') :
    R.Couples s₀ t₀ (decided ds) (decided ds')
      R.conditions := by
  apply hLawful.anyOf
  exact
    List.rel_map (fun _ _ h => Decision.Alike.condition h)
      hDecisions

theorem couples_whetherDefined
    (hLawful : R.Lawful)
    (hTable : Alike R s₀ t₀ table table')
    (name : String) :
    R.Couples s₀ t₀ (table.whetherDefined name)
      (table'.whetherDefined name) R.conditions := by
  unfold whetherDefined
  have hDecisions := hTable.decisions name
  have hPositive :
      List.Forall₂ (Decision.Alike R s₀ t₀)
        ((table.decisions name).filter
          (·.definition.isSome))
        ((table'.decisions name).filter
          (·.definition.isSome)) := by
    refine List.rel_filter ?_ hDecisions
    intro d d' hAlike
    dsimp only
    rw [hAlike.isSome_eq]
  apply (couples_decided hLawful hPositive).bind
  intro s t isDefined isDefined' hLater hDefined
  have hDecided :=
    couples_decided hLawful
      (hDecisions.imp fun _ _ h => h.later hLater)
  apply hDecided.bind
  intro s' t' isDecided isDecided' hLater' hDecided'
  have hOne := hLawful.eq_one_iff hLater'.spaces hDecided'
  by_cases hAll : isDecided = .one
  · rw [if_pos hAll, if_pos (hOne.mp hAll)]
    apply Couples.pure
    intro s'' t'' hLater''
    exact (hLater'.trans hLater'').keeps hDefined
  rw [if_neg hAll, if_neg (hOne.not.mp hAll)]
  apply (hLawful.atom s' t' (.defined name)).bind
  intro s'' t'' free free' hLater'' hFree
  have hLeft :=
    hLawful.neg hLater''.spaces (hLater''.keeps hDecided')
  apply (hLawful.and hLeft hFree).bind
  intro s₃ t₃ both both' hLater₃ hBoth
  exact
    hLawful.or
      ((hLater'.trans (hLater''.trans hLater₃)).keeps
        hDefined)
      hBoth

/- Definitions in force that say the same in two runs. -/
structure InForceAlike
    (R : Coupling)
    (s t : Space)
    (entry entry' : Condition × Macro) : Prop where
  condition : R.conditions s t entry.1 entry'.1
  definition : Macro.Alike entry.2 entry'.2

theorem InForceAlike.later
    {entry entry' : Condition × Macro}
    (hAlike : InForceAlike R s t entry entry')
    (hLater : R.Later s t s' t') :
    InForceAlike R s' t' entry entry' :=
  ⟨hLater.keeps hAlike.condition, hAlike.definition⟩

theorem forall₂_inForce
    (hDecisions : List.Forall₂ (Decision.Alike R s t) ds ds') :
    List.Forall₂ (InForceAlike R s t)
      (ds.filterMap fun d =>
        d.definition.map (d.condition, ·))
      (ds'.filterMap fun d =>
        d.definition.map (d.condition, ·)) := by
  refine List.rel_filterMap ?_ hDecisions
  intro d d' hAlike
  have hDefinition := hAlike.definition
  dsimp only
  generalize d.definition = m at hDefinition ⊢
  generalize d'.definition = m' at hDefinition ⊢
  cases hDefinition with
  | none => exact .none
  | some hMacro => exact .some ⟨hAlike.condition, hMacro⟩

theorem couples_inForce
    (hLawful : R.Lawful)
    (hTable : Alike R s₀ t₀ table table')
    (name : String) :
    R.Couples s₀ t₀ (table.inForce name)
      (table'.inForce name) fun s t out out' =>
        List.Forall₂ (InForceAlike R s t) out.1 out'.1 ∧
          R.conditions s t out.2 out'.2 := by
  unfold inForce
  have hDecisions := hTable.decisions name
  apply (couples_decided hLawful hDecisions).bind
  intro s t isDecided isDecided' hLater hDecided
  apply Couples.pure
  intro s' t' hLater'
  have hLaterAll := hLater.trans hLater'
  exact
    ⟨forall₂_inForce
        (hDecisions.imp fun _ _ h => h.later hLaterAll),
      hLawful.neg hLater'.spaces (hLater'.keeps hDecided)⟩

end Definitions

end Variability
