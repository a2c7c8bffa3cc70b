import Mathlib.Data.Set.Function
import Variability.Proofs.Condition.Space
import Variability.Proofs.Formula.Diagram

/-
  Conditions about macros and their formulas.

  A condition has a formula exactly if all variables that its
  diagram tests stand for macros. The expansion of a diagram
  remembers the formulas of the handles it has met, so its
  induction carries that all remembered outcomes are right for
  their own handles, complemented or not.

  Main declarations:
    * `Space.IsAboutMacros`
    * `Space.Expands`
    * `Space.expands_expandWithin`
    * `Space.MapsBack`
    * `Space.Reached.toFormula_faithful`
-/

namespace Variability

namespace Space

variable {s : Space}
variable {c : Condition}
variable {rename : String → String}
variable {found : Expansions}
variable {name : String}
variable {high low : Formula}

------------------------------------------------------------
-- Conditions about Macros
------------------------------------------------------------

/- All variables that a condition tests stand for macros. -/
def IsAboutMacros (s : Space) (c : Condition) : Prop :=
  ∀ v, s.manager.Tests c v →
    ∃ name, s.atomOf? v = some (.defined name)

/- The macros that a condition tests. -/
def macros (s : Space) (c : Condition) : Set String :=
  {name | ∃ v, s.manager.Tests c v ∧
    s.atomOf? v = some (.defined name)}

/- The variables of macros have the values of the macros. -/
def assigned
    (s : Space)
    (b : String → Bool)
    (v : Nat) :
    Bool :=
  match s.atomOf? v with
  | some (.defined name) => b name
  | _ => false

theorem assigned_eq
    {v : Nat}
    (hAtom : s.atomOf? v = some (.defined name))
    (b : String → Bool) :
    s.assigned b v = b name := by
  unfold assigned
  rw [hAtom]

theorem not_tests_one
    (m : Diagram.Manager)
    (v : Nat) :
    ¬ m.Tests .one v := by
  intro hTests
  cases hTests <;> contradiction

theorem not_tests_zero
    (m : Diagram.Manager)
    (v : Nat) :
    ¬ m.Tests .zero v := by
  intro hTests
  cases hTests <;> contradiction

/- A constant is about macros, since it tests nothing. -/
theorem isAboutMacros_one (s : Space) : s.IsAboutMacros .one :=
  fun v hTests => absurd hTests (not_tests_one s.manager v)

theorem isAboutMacros_zero (s : Space) :
    s.IsAboutMacros .zero :=
  fun v hTests => absurd hTests (not_tests_zero s.manager v)

/- A node is about macros if its test and its children are. -/
theorem isAboutMacros_iff
    (hTerminal : c.isTerminal = false) :
    s.IsAboutMacros c ↔
      (∃ name,
          s.atomOf? (s.manager.topVar c) =
            some (.defined name)) ∧
        s.IsAboutMacros (s.manager.high c) ∧
        s.IsAboutMacros (s.manager.low c) := by
  constructor
  · intro hMacros
    refine ⟨hMacros _ (.top hTerminal), ?_, ?_⟩
    · intro v hTests
      exact hMacros v (.high hTerminal hTests)
    · intro v hTests
      exact hMacros v (.low hTerminal hTests)
  · rintro ⟨hTop, hHigh, hLow⟩ v hTests
    cases hTests with
    | top => exact hTop
    | high _ hTests => exact hHigh v hTests
    | low _ hTests => exact hLow v hTests

------------------------------------------------------------
-- Expansions
------------------------------------------------------------

/-
  The right outcome for a condition: a formula with its values
  over the names of its macros, or none if it tests something
  else.
-/
structure Expands
    (s : Space)
    (rename : String → String)
    (c : Condition)
    (out : Option Formula) : Prop where
  isSome_iff : out.isSome = true ↔ s.IsAboutMacros c
  eval_eq :
    ∀ f ∈ out, ∀ b,
      f.eval b =
        s.manager.eval c
          (s.assigned fun name => b (rename name))
  literals :
    ∀ f ∈ out, ∀ literal ∈ f.literals,
      ∃ name ∈ s.macros c, rename name = literal

namespace Expands

theorem one
    (s : Space)
    (rename : String → String) :
    s.Expands rename .one (some .truth) where
  isSome_iff :=
    ⟨fun _ => isAboutMacros_one s, fun _ => rfl⟩
  eval_eq := by
    rintro f hf b
    cases hf
    exact (s.manager.eval_one _).symm
  literals := by
    rintro f hf name hName
    cases hf
    cases hName

theorem zero
    (s : Space)
    (rename : String → String) :
    s.Expands rename .zero (some .falsity) where
  isSome_iff :=
    ⟨fun _ => isAboutMacros_zero s, fun _ => rfl⟩
  eval_eq := by
    rintro f hf b
    cases hf
    exact (s.manager.eval_zero _).symm
  literals := by
    rintro f hf name hName
    cases hf
    cases hName

/- There is no formula where something else is tested. -/
theorem none_of_not
    (hMacros : ¬ s.IsAboutMacros c) :
    s.Expands rename c none where
  isSome_iff := by
    simp [hMacros]
  eval_eq := fun _ hf => by cases hf
  literals := fun _ hf => by cases hf

theorem not_isAboutMacros
    (hExpands : s.Expands rename c none) :
    ¬ s.IsAboutMacros c := by
  intro hMacros
  have hSome := hExpands.isSome_iff.mpr hMacros
  cases hSome

/- A node has no formula if its test is not a macro. -/
theorem none_of_top
    (hTerminal : c.isTerminal = false)
    (hAtom :
      ∀ name,
        s.atomOf? (s.manager.topVar c) ≠
          some (.defined name)) :
    s.Expands rename c none := by
  apply none_of_not
  rw [isAboutMacros_iff hTerminal]
  rintro ⟨⟨name, hName⟩, _⟩
  exact hAtom name hName

/- A node has no formula if one of its children has none. -/
theorem none_of_high
    (hTerminal : c.isTerminal = false)
    (hHigh : s.Expands rename (s.manager.high c) none) :
    s.Expands rename c none := by
  apply none_of_not
  rw [isAboutMacros_iff hTerminal]
  rintro ⟨_, hMacros, _⟩
  exact hHigh.not_isAboutMacros hMacros

theorem none_of_low
    (hTerminal : c.isTerminal = false)
    (hLow : s.Expands rename (s.manager.low c) none) :
    s.Expands rename c none := by
  apply none_of_not
  rw [isAboutMacros_iff hTerminal]
  rintro ⟨_, _, hMacros⟩
  exact hLow.not_isAboutMacros hMacros

/- A node chooses between its children by its test. -/
theorem choice
    (hReduced : s.manager.Reduced)
    (hLive : s.manager.IsLive c)
    (hTerminal : c.isTerminal = false)
    (hAtom :
      s.atomOf? (s.manager.topVar c) = some (.defined name))
    (hHigh :
      s.Expands rename (s.manager.high c) (some high))
    (hLow :
      s.Expands rename (s.manager.low c) (some low)) :
    s.Expands rename c
      (some (.choice (.literal (rename name)) high low))
    where
  isSome_iff := by
    rw [isAboutMacros_iff hTerminal]
    have hHighMacros := hHigh.isSome_iff.mp rfl
    have hLowMacros := hLow.isSome_iff.mp rfl
    exact
      ⟨fun _ => ⟨⟨name, hAtom⟩, hHighMacros, hLowMacros⟩,
        fun _ => rfl⟩
  eval_eq := by
    rintro f hf b
    cases hf
    rw [hReduced.eval_node hLive hTerminal,
      assigned_eq hAtom, ← hHigh.eval_eq high rfl,
      ← hLow.eval_eq low rfl]
    cases hValue : b (rename name) <;>
      simp [Formula.choice, Formula.or, Formula.and,
        Formula.eval, Formula.evalAny, Formula.evalAll,
        hValue]
  literals := by
    rintro f hf other hOther
    cases hf
    have hParts :
        other = rename name ∨ other ∈ high.literals ∨
          other ∈ low.literals := by
      simp only [Formula.choice, Formula.or, Formula.and,
        Formula.not, Formula.literals, Formula.literalsOf,
        List.mem_append, List.mem_singleton,
        List.not_mem_nil] at hOther
      tauto
    rcases hParts with rfl | hOther | hOther
    · exact ⟨name, ⟨_, .top hTerminal, hAtom⟩, rfl⟩
    · rcases hHigh.literals high rfl other hOther with
        ⟨name, ⟨v, hTests, hName⟩, hRename⟩
      exact
        ⟨name, ⟨v, .high hTerminal hTests, hName⟩,
          hRename⟩
    · rcases hLow.literals low rfl other hOther with
        ⟨name, ⟨v, hTests, hName⟩, hRename⟩
      exact
        ⟨name, ⟨v, .low hTerminal hTests, hName⟩,
          hRename⟩

/- Simplifying a formula changes neither its values nor its names. -/
theorem simplify
    {out : Option Formula}
    (hExpands : s.Expands rename c out) :
    s.Expands rename c (out.map Formula.simplify) where
  isSome_iff := by
    rw [Option.isSome_map]
    exact hExpands.isSome_iff
  eval_eq := by
    intro g hg b
    rcases Option.map_eq_some_iff.mp hg with ⟨f, hf, rfl⟩
    rw [Formula.eval_simplify]
    exact hExpands.eval_eq f hf b
  literals := by
    intro g hg name hName
    rcases Option.map_eq_some_iff.mp hg with ⟨f, hf, rfl⟩
    exact
      hExpands.literals f hf name
        (Formula.mem_literals_of_simplify hName)

end Expands

/- All remembered outcomes are right. -/
def Remembers
    (s : Space)
    (rename : String → String)
    (found : Expansions) : Prop :=
  ∀ c out, found.lookup c = some out →
    s.Expands rename c out

theorem remembers_nil
    (s : Space)
    (rename : String → String) :
    s.Remembers rename [] := by
  intro c out hFound
  cases hFound

theorem Remembers.cons
    {out : Option Formula}
    (hFound : s.Remembers rename found)
    (hExpands : s.Expands rename c out) :
    s.Remembers rename ((c, out) :: found) := by
  intro d out' hLookup
  rw [List.lookup_cons] at hLookup
  split at hLookup
  · rename_i hEq
    cases hLookup
    rw [eq_of_beq hEq]
    exact hExpands
  · exact hFound d out' hLookup

/-
  The outcome of an expansion that goes deep enough is right,
  and so is everything that is remembered after it, by
  induction over the depth.
-/
theorem expands_expandWithin
    {depth : Nat}
    (hReduced : s.manager.Reduced)
    (hLive : s.manager.IsLive c)
    (hDepth : s.manager.rank c < depth)
    (hFound : s.Remembers rename found) :
    s.Expands rename c
        (s.expandWithin rename depth c found).1 ∧
      s.Remembers rename
        (s.expandWithin rename depth c found).2 := by
  induction depth generalizing c found with
  | zero => omega
  | succ depth ih =>
      unfold expandWithin
      by_cases hOne : c = .one
      · rw [if_pos hOne, hOne]
        exact ⟨.one s rename, hFound⟩
      rw [if_neg hOne]
      by_cases hZero : c = .zero
      · rw [if_pos hZero, hZero]
        exact ⟨.zero s rename, hFound⟩
      rw [if_neg hZero]
      have hTerminal : c.isTerminal = false := by
        rw [← Bool.not_eq_true, Diagram.Handle.isTerminal_iff]
        tauto
      -- What is remembered is right for this very handle.
      cases hLookup : found.lookup c with
      | some out => exact ⟨hFound c out hLookup, hFound⟩
      | none =>
          have hHigh := hReduced.high_child hLive hTerminal
          have hHighRank :=
            hReduced.rank_high_lt hLive hTerminal
          have hLow := hReduced.low_child hLive hTerminal
          have hLowRank :=
            hReduced.rank_low_lt hLive hTerminal
          cases hAtom : s.atomOf? (s.manager.topVar c) with
          | none =>
              have hOut : s.Expands rename c none :=
                .none_of_top hTerminal (by simp [hAtom])
              exact ⟨hOut, hFound.cons hOut⟩
          | some atom =>
              cases atom with
              | verbatim text =>
                  have hOut : s.Expands rename c none :=
                    .none_of_top hTerminal (by simp [hAtom])
                  exact ⟨hOut, hFound.cons hOut⟩
              | defined name =>
                  have hHighOut :=
                    ih hHigh.1 (by omega) hFound
                  dsimp only
                  generalize
                    s.expandWithin rename depth
                      (s.manager.high c) found = out
                    at hHighOut ⊢
                  rcases out with ⟨_ | high, found⟩
                  · have hOut : s.Expands rename c none :=
                      .none_of_high hTerminal hHighOut.1
                    exact ⟨hOut, hHighOut.2.cons hOut⟩
                  -- The low child finds what the high one left.
                  have hLowOut :=
                    ih hLow.1 (by omega) hHighOut.2
                  dsimp only at hLowOut ⊢
                  generalize
                    s.expandWithin rename depth
                      (s.manager.low c) found = out
                    at hLowOut ⊢
                  rcases out with ⟨_ | low, found⟩
                  · have hOut : s.Expands rename c none :=
                      .none_of_low hTerminal hLowOut.1
                    exact ⟨hOut, hLowOut.2.cons hOut⟩
                  have hOut :=
                    Expands.choice hReduced hLive hTerminal
                      hAtom hHighOut.1 hLowOut.1
                  exact ⟨hOut, hLowOut.2.cons hOut⟩

/- Every formula of a condition is right. -/
theorem Sound.expands_toFormula
    (hSound : s.Sound)
    (hLive : s.manager.IsLive c)
    (rename : String → String) :
    s.Expands rename c (s.toFormula rename c) := by
  have hReduced := hSound.manager.reduced
  have hRank := hReduced.rank_le_liveCount c
  have hOut :=
    expands_expandWithin hReduced hLive
      (Nat.lt_succ_of_le hRank) (remembers_nil s rename)
  unfold toFormula
  exact hOut.1.simplify

theorem Reached.expands_toFormula
    (hReached : s.Reached)
    (hLive : s.manager.IsLive c)
    (rename : String → String) :
    s.Expands rename c (s.toFormula rename c) :=
  hReached.sound.expands_toFormula hLive rename

------------------------------------------------------------
-- Conditions from Their Formulas
------------------------------------------------------------

/- Every renamed macro of a condition is numbered by its variable. -/
def MapsBack
    (s : Space)
    (rename : String → String)
    (c : Condition)
    (numbers : List (String × Nat)) : Prop :=
  ∀ v name, s.manager.Tests c v →
    s.atomOf? v = some (.defined name) →
      numbers.lookup (rename name) = some v

variable {v w : Nat}
variable {atom : Atom}
variable {f : Formula}
variable {numbers : List (String × Nat)}

theorem atomOf?_eq_some
    (hAtom : s.atomOf? v = some atom) :
    ∃ i, v = i + 1 ∧ s.atoms[i]? = some atom := by
  cases v with
  | zero => cases hAtom
  | succ i => exact ⟨i, rfl, hAtom⟩

/- An atom has one variable. -/
theorem Sound.eq_of_atomOf?_eq
    (hSound : s.Sound)
    (hv : s.atomOf? v = some atom)
    (hw : s.atomOf? w = some atom) :
    v = w := by
  rcases atomOf?_eq_some hv with ⟨i, rfl, hi⟩
  rcases atomOf?_eq_some hw with ⟨j, rfl, hj⟩
  have hLess := (List.getElem?_eq_some_iff.mp hi).1
  have hEq : i = j :=
    (List.getElem?_inj hLess hSound.nodup).mp
      (hi.trans hj.symm)
  rw [hEq]

/- A key is looked up if it stands for one value only. -/
theorem lookup_eq_some_of_mem
    {key : String}
    (hMem : (key, v) ∈ numbers)
    (hOnly : ∀ w, (key, w) ∈ numbers → w = v) :
    numbers.lookup key = some v := by
  cases hLookup : numbers.lookup key with
  | none =>
      have hNot :=
        List.lookup_eq_none_iff.mp hLookup _ hMem
      simp at hNot
  | some w =>
      rcases List.lookup_eq_some_iff.mp hLookup with
        ⟨before, after, rfl, _⟩
      rw [hOnly w (by simp)]

open Classical in
/- The renamed macros of a condition with their variables. -/
noncomputable def numbered
    (s : Space)
    (rename : String → String)
    (c : Condition) :
    List (String × Nat) :=
  (List.range (s.atoms.length + 1)).filterMap fun v =>
    match s.atomOf? v with
    | some (.defined name) =>
        if s.manager.Tests c v then some (rename name, v)
        else none
    | _ => none

theorem mem_numbered_iff
    {key : String} :
    (key, v) ∈ s.numbered rename c ↔
      ∃ name, s.manager.Tests c v ∧
        s.atomOf? v = some (.defined name) ∧
        rename name = key := by
  unfold numbered
  rw [List.mem_filterMap]
  constructor
  · rintro ⟨w, _, hw⟩
    split at hw
    · rename_i name hName
      split at hw
      · rename_i hTests
        cases hw
        exact ⟨name, hTests, hName, rfl⟩
      · cases hw
    · cases hw
  · rintro ⟨name, hTests, hName, rfl⟩
    rcases atomOf?_eq_some hName with ⟨i, rfl, hi⟩
    have hLess := (List.getElem?_eq_some_iff.mp hi).1
    refine ⟨i + 1, List.mem_range.mpr (by omega), ?_⟩
    rw [hName]
    exact if_pos hTests

/- Names that stay apart can be mapped back. -/
theorem Sound.mapsBack_numbered
    (hSound : s.Sound)
    (hApart : Set.InjOn rename (s.macros c)) :
    s.MapsBack rename c (s.numbered rename c) := by
  intro v name hTests hName
  apply lookup_eq_some_of_mem
  · exact mem_numbered_iff.mpr ⟨name, hTests, hName, rfl⟩
  · intro w hw
    rcases mem_numbered_iff.mp hw with
      ⟨other, hOtherTests, hOther, hSame⟩
    have hEq : other = name :=
      hApart ⟨w, hOtherTests, hOther⟩ ⟨v, hTests, hName⟩
        hSame
    rw [hEq] at hOther
    exact hSound.eq_of_atomOf?_eq hOther hName

/-
  The diagram of a right formula has the values of the
  condition, so by canonicity it is the condition.
-/
theorem Expands.toDiagram_eq
    (hExpands : s.Expands rename c (some f))
    (hSound : s.Sound)
    (hLive : s.manager.IsLive c)
    (hBack : s.MapsBack rename c numbers) :
    (f.toDiagram ⟨numbers, s.manager⟩).1 = c := by
  have hReduced := hSound.manager.reduced
  have hMacros := hExpands.isSome_iff.mp rfl
  have hPositive :
      Numbering.Positive ⟨numbers, s.manager⟩ f := by
    intro literal hLiteral v hNumber
    rcases hExpands.literals f rfl literal hLiteral with
      ⟨name, ⟨w, hTests, hName⟩, rfl⟩
    have hw := hBack w name hTests hName
    unfold Numbering.number? at hNumber
    rw [hw] at hNumber
    cases hNumber
    rcases atomOf?_eq_some hName with ⟨i, rfl, _⟩
    exact Nat.succ_pos i
  have hDraws := f.draws_toDiagram hSound.manager hPositive
  have hKept := hDraws.grows.manager
  apply
    hDraws.sound.reduced.eq_of_eval_eq hDraws.isLive
      (hKept.isLive hLive)
  intro a
  rw [hDraws.eval_eq, hExpands.eval_eq f rfl,
    hKept.eval_eq hReduced hDraws.sound.reduced hLive]
  apply hReduced.eval_congr hLive
  intro v hTests
  rcases hMacros v hTests with ⟨name, hName⟩
  have hNumber :=
    hDraws.grows.number?_eq (rename name) v
      (hBack v name hTests hName)
  rw [assigned_eq hName]
  unfold Numbering.value
  rw [hNumber, Option.getD_some]

/-
  A condition has a formula exactly if it is about macros. The
  formula has its values over the renamed macros, and if no two
  of them were given one name, its diagram is the condition.
-/
theorem Reached.toFormula_faithful
    (hReached : s.Reached)
    (hLive : s.manager.IsLive c)
    (rename : String → String) :
    ((s.toFormula rename c).isSome = true ↔
        s.IsAboutMacros c) ∧
      ∀ f, s.toFormula rename c = some f →
        (∀ b,
          f.eval b =
            s.manager.eval c
              (s.assigned fun name => b (rename name))) ∧
        (Set.InjOn rename (s.macros c) →
          (∃ numbers, s.MapsBack rename c numbers) ∧
            ∀ numbers, s.MapsBack rename c numbers →
              (f.toDiagram ⟨numbers, s.manager⟩).1 = c) := by
  have hSound := hReached.sound
  have hExpands := hReached.expands_toFormula hLive rename
  refine ⟨hExpands.isSome_iff, ?_⟩
  intro f hFormula
  rw [hFormula] at hExpands
  refine ⟨hExpands.eval_eq f rfl, ?_⟩
  intro hApart
  refine ⟨⟨_, hSound.mapsBack_numbered hApart⟩, ?_⟩
  intro numbers hBack
  exact hExpands.toDiagram_eq hSound hLive hBack

/- A space with one macro. -/
def oneMacro : Space :=
  ⟨((default : Diagram.Manager).mkVar 1).2, [.defined "A"]⟩

/- The condition that the macro of the space is not defined. -/
def notMacro : Condition :=
  -((default : Diagram.Manager).mkVar 1).1

theorem reached_oneMacro : oneMacro.Reached := by
  have hAsked := Reached.empty.ask (.defined "A")
  exact hAsked.construct (.var 1) Nat.one_pos

theorem eval_notMacro :
    oneMacro.manager.IsLive notMacro ∧
      ∀ a, oneMacro.manager.eval notMacro a = !a 1 := by
  have hSound : (default : Diagram.Manager).Sound :=
    .empty _
  have hMade := hSound.makes_mkVar Nat.one_pos
  have hNot := hMade.sound.makes_neg hMade.isLive
  refine ⟨hNot.isLive, ?_⟩
  intro a
  refine (hNot.eval_eq a).trans ?_
  rw [hMade.eval_eq]

theorem isAboutMacros_notMacro :
    oneMacro.IsAboutMacros notMacro := by
  intro v hTests
  have hReduced := reached_oneMacro.sound.manager.reduced
  rcases eval_notMacro with ⟨hLive, hEval⟩
  rcases hReduced.exists_eval_update_ne hTests hLive with
    ⟨a, ha⟩
  by_cases hv : v = 1
  · rw [hv]
    exact ⟨"A", rfl⟩
  · rw [hEval, hEval,
      Function.update_of_ne (Ne.symm hv),
      Function.update_of_ne (Ne.symm hv)] at ha
    exact absurd rfl ha

theorem toFormula_faithful_oneMacro :
    (oneMacro.Reached ∧
        oneMacro.manager.IsLive notMacro ∧
        oneMacro.IsAboutMacros notMacro ∧
        Set.InjOn id (oneMacro.macros notMacro)) ∧
      ∃ f numbers,
        oneMacro.toFormula id notMacro = some f ∧
          (∀ b, f.eval b = !b "A") ∧
          (f.toDiagram ⟨numbers, oneMacro.manager⟩).1 =
            notMacro := by
  rcases eval_notMacro with ⟨hLive, hEval⟩
  have hApart : Set.InjOn id (oneMacro.macros notMacro) :=
    Function.injective_id.injOn
  rcases
      Reached.toFormula_faithful reached_oneMacro hLive id with
    ⟨hSome, hFormula⟩
  have hFound := hSome.mpr isAboutMacros_notMacro
  rcases Option.isSome_iff_exists.mp hFound with ⟨f, hf⟩
  rcases hFormula f hf with ⟨hValue, hRebuilt⟩
  rcases hRebuilt hApart with ⟨⟨numbers, hBack⟩, hEq⟩
  refine
    ⟨⟨reached_oneMacro, hLive, isAboutMacros_notMacro,
        hApart⟩,
      f, numbers, hf, ?_, hEq numbers hBack⟩
  intro b
  rw [hValue, hEval]
  rfl

end Space

end Variability
