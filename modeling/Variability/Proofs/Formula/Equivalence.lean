import Variability.Proofs.Diagram.Runs
import Variability.Proofs.Formula.Diagram

/-
  Deciding whether formulas agree.

  Drawing a formula only constructs handles, so a manager of a run
  stays one, and it numbers the literals that are new in the order
  in which they are met. A numbering that numbers its names from 1
  stays one too, hence every assignment of names is one of the
  variables, and two formulas have one handle exactly if they
  agree under all assignments.

  Main declarations:
    * `Numbering.IsExact`
    * `Formula.numbers_toDiagram`
    * `Formula.reached_toDiagram`
    * `Formula.equivalent_iff_eval_eq`
-/

namespace Variability

open Diagram

------------------------------------------------------------
-- Exact Numberings
------------------------------------------------------------

namespace Numbering

variable {n : Numbering}
variable {numbers : List (String × Nat)}
variable {name name' : String}
variable {v : Nat}

/- The names are numbered from 1, each by a number of its own. -/
structure IsExact (n : Numbering) : Prop where
  nodup_names : (n.numbers.map Prod.fst).Nodup
  perm_range :
    (n.numbers.map Prod.snd).Perm
      (List.range' 1 n.numbers.length)

theorem mem_of_number?_eq
    (hNumber : n.number? name = some v) :
    (name, v) ∈ n.numbers := by
  rcases List.lookup_eq_some_iff.mp hNumber with
    ⟨before, after, hNumbers, _⟩
  simp [hNumbers]

namespace IsExact

variable (hExact : n.IsExact)
include hExact

theorem pos
    (hNumber : n.number? name = some v) :
    0 < v := by
  have hMem :=
    List.mem_map_of_mem (f := Prod.snd)
      (mem_of_number?_eq hNumber)
  rw [hExact.perm_range.mem_iff, List.mem_range'_1] at hMem
  exact hMem.1

theorem positive (f : Formula) : n.Positive f :=
  fun _ _ _ hNumber => hExact.pos hNumber

end IsExact

/- The numbers when a name was met, which gets the next one if it is new. -/
def addName
    (numbers : List (String × Nat))
    (name : String) :
    List (String × Nat) :=
  if (numbers.lookup name).isSome then
    numbers
  else
    numbers ++ [(name, numbers.length + 1)]

theorem numbers_literal
    (n : Numbering)
    (name : String) :
    (n.literal name).2.numbers = addName n.numbers name := by
  rcases n with ⟨numbers, manager⟩
  cases hNumber : numbers.lookup name <;>
    simp [literal, addName, hNumber]

theorem mem_names_addName_iff :
    name' ∈ (addName numbers name).map Prod.fst ↔
      name' ∈ numbers.map Prod.fst ∨ name' = name := by
  unfold addName
  split
  · rename_i hSome
    have hOld : name ∈ numbers.map Prod.fst := by
      simpa [List.lookup_isSome_iff] using hSome
    constructor
    · exact Or.inl
    · rintro (hMem | rfl)
      · exact hMem
      · exact hOld
  · simp

/- Meeting names adds exactly those. -/
theorem mem_names_foldl_addName_iff
    {names : List String} :
    name ∈ (names.foldl addName numbers).map Prod.fst ↔
      name ∈ numbers.map Prod.fst ∨ name ∈ names := by
  induction names generalizing numbers with
  | nil => simp
  | cons other names ih =>
      rw [List.foldl_cons, ih, mem_names_addName_iff,
        List.mem_cons, or_assoc]

theorem IsExact.addName
    {m m' : Manager}
    (hExact : IsExact ⟨numbers, m⟩)
    (name : String) :
    IsExact ⟨Numbering.addName numbers name, m'⟩ := by
  unfold Numbering.addName
  split
  · exact ⟨hExact.nodup_names, hExact.perm_range⟩
  · rename_i hNone
    have hNew : name ∉ numbers.map Prod.fst := by
      simpa [List.lookup_isSome_iff] using hNone
    constructor
    · rw [List.map_append]
      exact
        hExact.nodup_names.append (List.nodup_singleton name)
          (List.disjoint_singleton.mpr hNew)
    · simp only [List.map_append, List.map_cons, List.map_nil,
        List.length_append, List.length_cons, List.length_nil,
        List.range'_concat]
      have hLast : 1 + 1 * numbers.length = numbers.length + 1 := by
        omega
      rw [hLast]
      exact hExact.perm_range.append_right _

/- Meeting names keeps a numbering exact. -/
theorem IsExact.foldl_addName
    {m m' : Manager}
    {names : List String}
    (hExact : IsExact ⟨numbers, m⟩) :
    IsExact ⟨names.foldl Numbering.addName numbers, m'⟩ := by
  induction names generalizing numbers with
  | nil => exact ⟨hExact.nodup_names, hExact.perm_range⟩
  | cons name names ih => exact ih (hExact.addName name)

/- The assignment of variables that gives each name its value. -/
def assigning
    (n : Numbering)
    (b : String → Bool)
    (v : Nat) :
    Bool :=
  (n.numbers.find? (fun p => p.2 == v)).any fun p => b p.1

/- By distinct numbers every assignment of names can be given. -/
theorem IsExact.value_assigning
    (hExact : n.IsExact)
    (b : String → Bool)
    (hNumbered : (n.number? name).isSome = true) :
    n.value (n.assigning b) name = b name := by
  rcases Option.isSome_iff_exists.mp hNumbered with ⟨v, hv⟩
  have hMem := mem_of_number?_eq hv
  have hNodup : (n.numbers.map Prod.snd).Nodup :=
    hExact.perm_range.nodup_iff.mpr List.nodup_range'
  have hFound :
      n.numbers.find? (fun p => p.2 == v) =
        some (name, v) := by
    cases hFind : n.numbers.find? (fun p => p.2 == v) with
    | none =>
        have hNone := List.find?_eq_none.mp hFind _ hMem
        simp at hNone
    | some p =>
        have hSame : p.2 = v := by
          simpa using List.find?_some hFind
        exact
          congrArg some
            (List.inj_on_of_nodup_map hNodup
              (List.mem_of_find?_eq_some hFind) hMem hSame)
  simp [value, hv, assigning, hFound]

end Numbering

------------------------------------------------------------
-- Drawing in Runs
------------------------------------------------------------

namespace Formula

open Variability.Numbering

variable {n n' : Numbering}
variable {r : Handle}
variable {f g : Formula}
variable {fs gs : List Formula}

theorem numbers_connectEach
    {all : Bool}
    (hEach :
      ∀ f ∈ fs, ∀ n : Numbering,
        (f.toDiagram n).2.numbers =
          f.literals.foldl addName n.numbers)
    (r : Handle)
    (n : Numbering) :
    (connectEach all fs r n).2.numbers =
      (literalsOf fs).foldl addName n.numbers := by
  induction fs generalizing r n with
  | nil => rfl
  | cons f fs ih =>
      have hf := hEach f List.mem_cons_self n
      have hConnect (n : Numbering) (r s : Handle) :
          (connect all n r s).2.numbers = n.numbers := by
        cases all <;> rfl
      rw [literalsOf, List.foldl_append, ← hf]
      unfold connectEach
      rw [ih (fun g hg => hEach g (List.mem_cons_of_mem f hg)),
        hConnect]

/- Literals are numbered in the order in which they are first met. -/
theorem numbers_toDiagram
    (f : Formula)
    (n : Numbering) :
    (f.toDiagram n).2.numbers =
      f.literals.foldl addName n.numbers := by
  induction f using Formula.induction generalizing n with
  | truth => rfl
  | falsity => rfl
  | literal name => exact numbers_literal n name
  | negation f ih => exact ih n
  | conj fs ih =>
      unfold toDiagram
      rw [conjToDiagram_eq]
      exact numbers_connectEach ih .one n
  | disj fs ih =>
      unfold toDiagram
      rw [disjToDiagram_eq]
      exact numbers_connectEach ih .zero n

/- Connecting live handles is a construction. -/
theorem reached_connect
    {s : Handle}
    (all : Bool)
    (hReached : n.manager.Reached)
    (hr : n.manager.IsLive r)
    (hs : n.manager.IsLive s) :
    (connect all n r s).2.manager.Reached := by
  cases all with
  | true => exact hReached.construct (.and r s) ⟨hr, hs⟩
  | false => exact hReached.construct (.or r s) ⟨hr, hs⟩

/-
  The diagrams of formulas can be connected, because what was
  connected before stays live while the next one is drawn.
-/
theorem reached_connectEach
    {all : Bool}
    (hEach :
      ∀ f ∈ fs, ∀ {n : Numbering}, n.manager.Reached →
        n.Positive f → (f.toDiagram n).2.manager.Reached)
    (hFirst : n.Draws (join all gs) (r, n'))
    (hReached : n'.manager.Reached)
    (hPositive : ∀ f ∈ fs, n.Positive f) :
    (connectEach all fs r n').2.manager.Reached := by
  induction fs generalizing gs r n' with
  | nil => exact hReached
  | cons f fs ih =>
      have hHere :=
        (hPositive f List.mem_cons_self).grows hFirst.grows
      have hNext := draws_toDiagram f hReached.sound hHere
      have hDrawn :=
        hEach f List.mem_cons_self hReached hHere
      unfold connectEach
      apply ih
      · intro g hg
        exact hEach g (List.mem_cons_of_mem f hg)
      · exact draws_connect hFirst hNext
      · exact
          reached_connect all hDrawn
            (hNext.grows.manager.isLive hFirst.isLive)
            hNext.isLive
      · intro g hg
        exact hPositive g (List.mem_cons_of_mem f hg)

/- Drawing in a manager of a run leaves a manager of a run. -/
theorem reached_toDiagram
    (f : Formula)
    (hReached : n.manager.Reached)
    (hPositive : n.Positive f) :
    (f.toDiagram n).2.manager.Reached := by
  induction f using Formula.induction generalizing n with
  | truth => exact hReached
  | falsity => exact hReached
  | literal name =>
      rcases n with ⟨numbers, manager⟩
      cases hNumber : numbers.lookup name with
      | some v =>
          simp only [toDiagram, Numbering.literal, hNumber]
          have hv : 0 < v :=
            hPositive name List.mem_cons_self v hNumber
          exact hReached.construct (.var v) hv
      | none =>
          simp only [toDiagram, Numbering.literal, hNumber]
          exact
            hReached.construct (.var (numbers.length + 1))
              (Nat.succ_pos _)
  | negation f ih => exact ih hReached hPositive
  | conj fs ih =>
      unfold toDiagram
      rw [conjToDiagram_eq]
      apply
        reached_connectEach ih
          (draws_nothing true hReached.sound) hReached
      intro f hf name hName
      exact
        hPositive name (mem_literalsOf_iff.mpr ⟨f, hf, hName⟩)
  | disj fs ih =>
      unfold toDiagram
      rw [disjToDiagram_eq]
      apply
        reached_connectEach ih
          (draws_nothing false hReached.sound) hReached
      intro f hf name hName
      exact
        hPositive name (mem_literalsOf_iff.mpr ⟨f, hf, hName⟩)

------------------------------------------------------------
-- Equivalence
------------------------------------------------------------

/- Both formulas drawn, the second one in what the first one left. -/
theorem draws_both
    (f g : Formula)
    (hSound : n.manager.Sound)
    (hPositive : ∀ f, n.Positive f) :
    n.Draws f
        ((f.toDiagram n).1, (g.toDiagram (f.toDiagram n).2).2) ∧
      (f.toDiagram n).2.Draws g
        (g.toDiagram (f.toDiagram n).2) := by
  have hFirst := draws_toDiagram f hSound (hPositive f)
  have hSecond :=
    draws_toDiagram g hFirst.sound
      ((hPositive g).grows hFirst.grows)
  exact ⟨hFirst.extend hSecond.grows hSecond.sound, hSecond⟩

/-
  In one exact numbering the handles of two formulas are equal
  exactly if the formulas agree: by canonicity if their diagrams
  do, and every assignment of the names is one of the variables.
-/
theorem eq_iff_eval_eq_of_draws
    {n'' : Numbering}
    {s : Handle}
    (hExact : n''.IsExact)
    (hFirst : n.Draws f (r, n''))
    (hSecond : n'.Draws g (s, n'')) :
    r = s ↔ ∀ b, f.eval b = g.eval b := by
  have hLeft (a : Nat → Bool) :
      n''.manager.eval r a = f.eval (n''.value a) :=
    hFirst.eval_eq a
  have hRight (a : Nat → Bool) :
      n''.manager.eval s a = g.eval (n''.value a) :=
    hSecond.eval_eq a
  constructor
  · intro hEq b
    have hValues : ∀ {h : Formula},
        (∀ name ∈ h.literals,
          (n''.number? name).isSome = true) →
        h.eval (n''.value (n''.assigning b)) = h.eval b := by
      intro h hNamed
      apply eval_congr
      intro name hName
      exact hExact.value_assigning b (hNamed name hName)
    rw [← hValues hFirst.named, ← hValues hSecond.named,
      ← hLeft, ← hRight, hEq]
  · intro hAgree
    apply
      hFirst.sound.reduced.eq_of_eval_eq hFirst.isLive
        hSecond.isLive
    intro a
    change n''.manager.eval r a = n''.manager.eval s a
    rw [hLeft, hRight, hAgree]

/- The assignment of some names; the others are false. -/
def given
    (values : List (String × Bool))
    (name : String) :
    Bool :=
  (values.lookup name).getD false

/- Formulas that agree where finitely many names are given agree. -/
theorem eval_eq_of_given
    (hAgree :
      ∀ values, f.eval (given values) = g.eval (given values))
    (b : String → Bool) :
    f.eval b = g.eval b := by
  let names := f.literals ++ g.literals
  let values := names.map fun name => (name, b name)
  have hGiven : ∀ name ∈ names, given values name = b name := by
    intro name hName
    cases hValue : values.lookup name with
    | none =>
        have hMem : (name, b name) ∈ values :=
          List.mem_map_of_mem hName
        simpa using List.lookup_eq_none_iff.mp hValue _ hMem
    | some x =>
        rcases List.lookup_eq_some_iff.mp hValue with
          ⟨before, after, hValues, _⟩
        have hMem : (name, x) ∈ values := by simp [hValues]
        rcases List.mem_map.mp hMem with ⟨other, _, hPair⟩
        cases hPair
        rw [given, hValue, Option.getD_some]
  have hSame : ∀ {h : Formula},
      (∀ name ∈ h.literals, name ∈ names) →
        h.eval (given values) = h.eval b := by
    intro h hNames
    exact eval_congr fun name hName =>
      hGiven name (hNames name hName)
  rw [← hSame fun name hName => List.mem_append_left _ hName,
    ← hSame fun name hName => List.mem_append_right _ hName,
    hAgree]

/-
  What drawing a formula leaves: a live handle with the meaning of
  the formula, an exact numbering with the literals of the formula
  added and the others as they were, and a manager of a run that
  has the functions of all old handles.
-/
structure Drawn
    (n : Numbering)
    (f : Formula)
    (out : Handle × Numbering) : Prop where
  reached : out.2.manager.Reached
  isExact : out.2.IsExact
  denotes :
    n.manager.Denotes (fun a => f.eval (out.2.value a))
      (out.1, out.2.manager)
  number?_eq :
    ∀ name v, n.number? name = some v →
      out.2.number? name = some v
  mem_names_iff :
    ∀ name,
      name ∈ out.2.numbers.map Prod.fst ↔
        name ∈ n.numbers.map Prod.fst ∨ name ∈ f.literals

/- Drawing keeps a numbering exact and a manager one of a run. -/
theorem drawn_toDiagram
    (f : Formula)
    (hReached : n.manager.Reached)
    (hExact : n.IsExact) :
    Drawn n f (f.toDiagram n) := by
  have hDraws :=
    draws_toDiagram f hReached.sound (hExact.positive f)
  have hNumbers := numbers_toDiagram f n
  refine
    ⟨reached_toDiagram f hReached (hExact.positive f), ?_,
      ⟨hDraws.isLive, hDraws.eval_eq, ?_⟩,
      hDraws.grows.number?_eq, ?_⟩
  · have hKept :
        IsExact
          ⟨f.literals.foldl addName n.numbers,
            (f.toDiagram n).2.manager⟩ :=
      hExact.foldl_addName
    rw [← hNumbers] at hKept
    exact hKept
  · intro r hLive
    exact
      ⟨hDraws.grows.manager.isLive hLive, fun a =>
        hDraws.grows.manager.eval_eq hReached.sound.reduced
          hDraws.sound.reduced hLive⟩
  · intro name
    rw [hNumbers, mem_names_foldl_addName_iff]

/-
  Formulas are equivalent exactly if they agree under every
  assignment of names, also where only finitely many names have
  values. Drawing a formula gives a handle with its meaning and
  numbers its new literals next, each by a number of its own.
-/
theorem equivalent_iff_eval_eq :
    (∀ f g : Formula,
        f.equivalent g = true ↔ ∀ b, f.eval b = g.eval b) ∧
      (∀ f g : Formula,
        f.equivalent g = true ↔
          ∀ values, f.eval (given values) =
            g.eval (given values)) ∧
      ∀ (f : Formula) (n : Numbering),
        n.manager.Reached → n.IsExact →
          Drawn n f (f.toDiagram n) := by
  let start : Numbering := ⟨[], default⟩
  have hStart : start.manager.Reached := Manager.reached_default
  have hEmpty : start.IsExact := ⟨.nil, .refl _⟩
  have hEvery (f g : Formula) :
      f.equivalent g = true ↔ ∀ b, f.eval b = g.eval b := by
    have hFirst := drawn_toDiagram f hStart hEmpty
    have hSecond :=
      drawn_toDiagram g hFirst.reached hFirst.isExact
    have hBoth := draws_both f g hStart.sound hEmpty.positive
    rw [equivalent, beq_iff_eq]
    exact
      eq_iff_eval_eq_of_draws hSecond.isExact hBoth.1 hBoth.2
  refine
    ⟨hEvery, ?_, fun f _ hReached hExact =>
      drawn_toDiagram f hReached hExact⟩
  intro f g
  rw [hEvery]
  exact
    ⟨fun hAgree values => hAgree (given values),
      eval_eq_of_given⟩

/- Two names in another order, and a formula with a third one. -/
def twoNames : Numbering where
  numbers := [("B", 2), ("A", 1)]
  manager := .empty 2

def thirdName : Formula :=
  .disj [.conj [.literal "C", .negation (.literal "B")], .conj []]

theorem equivalent_iff_eval_eq_twoNames :
    twoNames.manager.Reached ∧ twoNames.IsExact ∧
      Drawn twoNames thirdName (thirdName.toDiagram twoNames) ∧
      thirdName.equivalent .truth = true := by
  have hReached : twoNames.manager.Reached :=
    .create (rfl : Manager.create? 2 = some _)
  have hExact : twoNames.IsExact := ⟨by decide, by decide⟩
  rcases equivalent_iff_eval_eq with ⟨hEquivalent, _, hDrawn⟩
  refine
    ⟨hReached, hExact, hDrawn _ _ hReached hExact,
      (hEquivalent _ _).mpr ?_⟩
  intro b
  simp [thirdName, eval, evalAll, evalAny]

end Formula

end Variability
