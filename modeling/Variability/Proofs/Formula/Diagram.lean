import Variability.Formula.Diagram
import Variability.Proofs.Diagram.Connectives
import Variability.Proofs.Formula.Simplification

/-
  The diagram of a formula has its meaning.

  Drawing a formula numbers the literals that have no variable
  yet and keeps the variables of the others. The value of its
  diagram under an assignment of the variables is that of the
  formula when every literal has the value of its variable.

  Main declarations:
    * `Numbering.Grows`
    * `Numbering.Draws`
    * `Formula.draws_toDiagram`
-/

namespace Variability

open Diagram

------------------------------------------------------------
-- Numberings
------------------------------------------------------------

namespace Numbering

variable {n n' n'' : Numbering}
variable {a : Nat → Bool}
variable {f g : Formula}
variable {fs gs : List Formula}
variable {r s : Handle}

/- The variable of a literal, if it has one. -/
def number? (n : Numbering) (name : String) : Option Nat :=
  n.numbers.lookup name

/- The value that a literal has by its variable. -/
def value
    (n : Numbering)
    (a : Nat → Bool)
    (name : String) :
    Bool :=
  a ((n.number? name).getD 0)

/- Variables stay, and new ones are positive. -/
structure Grows (n n' : Numbering) : Prop where
  manager : n.manager.Extends n'.manager
  number?_eq :
    ∀ name v, n.number? name = some v →
      n'.number? name = some v
  pos :
    ∀ name v, n'.number? name = some v →
      n.number? name = some v ∨ 0 < v

namespace Grows

theorem refl (n : Numbering) : n.Grows n :=
  ⟨.refl _, fun _ _ hNumber => hNumber,
    fun _ _ hNumber => Or.inl hNumber⟩

theorem trans
    (hFirst : n.Grows n')
    (hSecond : n'.Grows n'') :
    n.Grows n'' where
  manager := hFirst.manager.trans hSecond.manager
  number?_eq := fun name v hNumber =>
    hSecond.number?_eq name v
      (hFirst.number?_eq name v hNumber)
  pos := fun name v hNumber => by
    rcases hSecond.pos name v hNumber with hOld | hNew
    · exact hFirst.pos name v hOld
    · exact Or.inr hNew

end Grows

/- The literals of a formula that have variables have positive ones. -/
def Positive (n : Numbering) (f : Formula) : Prop :=
  ∀ name ∈ f.literals, ∀ v,
    n.number? name = some v → 0 < v

theorem Positive.grows
    (hPositive : n.Positive f)
    (hGrows : n.Grows n') :
    n'.Positive f := by
  intro name hName v hNumber
  rcases hGrows.pos name v hNumber with hOld | hNew
  · exact hPositive name hName v hOld
  · exact hNew

/- A diagram with the meaning of a formula, in a grown numbering. -/
structure Draws
    (n : Numbering)
    (f : Formula)
    (out : Handle × Numbering) : Prop where
  sound : out.2.manager.Sound
  grows : n.Grows out.2
  isLive : out.2.manager.IsLive out.1
  named :
    ∀ name ∈ f.literals, (out.2.number? name).isSome = true
  eval_eq :
    ∀ a, out.2.manager.eval out.1 a = f.eval (out.2.value a)

namespace Draws

/- A diagram keeps its meaning while more is drawn. -/
theorem extend
    (hDraws : n.Draws f (r, n'))
    (hGrows : n'.Grows n'')
    (hSound : n''.manager.Sound) :
    n.Draws f (r, n'') where
  sound := hSound
  grows := hDraws.grows.trans hGrows
  isLive := hGrows.manager.isLive hDraws.isLive
  named := fun name hName => by
    have hSome := hDraws.named name hName
    rcases Option.isSome_iff_exists.mp hSome with ⟨v, hv⟩
    rw [hGrows.number?_eq name v hv]
    rfl
  eval_eq := fun a => by
    change n''.manager.eval r a = _
    rw [hGrows.manager.eval_eq hDraws.sound.reduced
      hSound.reduced hDraws.isLive]
    refine (hDraws.eval_eq a).trans ?_
    apply Formula.eval_congr
    intro name hName
    have hSome := hDraws.named name hName
    rcases Option.isSome_iff_exists.mp hSome with ⟨v, hv⟩
    have hv' : n'.number? name = some v := hv
    unfold value
    rw [hv', hGrows.number?_eq name v hv]

/- A diagram of something else with the same meaning and literals. -/
theorem congr
    {out : Handle × Numbering}
    (hDraws : n.Draws f out)
    (hLiterals : ∀ name ∈ g.literals, name ∈ f.literals)
    (hEval : ∀ b, f.eval b = g.eval b) :
    n.Draws g out :=
  ⟨hDraws.sound, hDraws.grows, hDraws.isLive,
    fun name hName => hDraws.named name (hLiterals name hName),
    fun a => (hDraws.eval_eq a).trans (hEval _)⟩

theorem neg
    (hDraws : n.Draws f (r, n')) :
    n.Draws (.negation f) (-r, n') where
  sound := hDraws.sound
  grows := hDraws.grows
  isLive := (n'.manager.isLive_neg r).mpr hDraws.isLive
  named := hDraws.named
  eval_eq := fun a => by
    change n'.manager.eval (-r) a = _
    rw [hDraws.sound.reduced.eval_neg hDraws.isLive,
      Formula.eval, ← hDraws.eval_eq a]

/- A connective of two diagrams in one numbering. -/
theorem connect
    {h : Formula}
    {made : Handle × Manager}
    {meaning : Bool → Bool → Bool}
    (hFirst : n.Draws f (r, n'))
    (hSecond : n.Draws g (s, n'))
    (hMade :
      n'.manager.Makes
        (fun a =>
          meaning (n'.manager.eval r a)
            (n'.manager.eval s a))
        made)
    (hLiterals :
      ∀ name ∈ h.literals,
        name ∈ f.literals ∨ name ∈ g.literals)
    (hEval :
      ∀ b, h.eval b = meaning (f.eval b) (g.eval b)) :
    n.Draws h (made.1, ⟨n'.numbers, made.2⟩) where
  sound := hMade.sound
  grows :=
    hFirst.grows.trans
      ⟨hMade.keeps, fun _ _ hNumber => hNumber,
        fun _ _ hNumber => Or.inl hNumber⟩
  isLive := hMade.isLive
  named := fun name hName => by
    rcases hLiterals name hName with hLeft | hRight
    · exact hFirst.named name hLeft
    · exact hSecond.named name hRight
  eval_eq := fun a => by
    refine (hMade.eval_eq a).trans ?_
    have hLeft : n'.manager.eval r a = _ := hFirst.eval_eq a
    have hRight : n'.manager.eval s a = _ :=
      hSecond.eval_eq a
    rw [hLeft, hRight, hEval]
    rfl

end Draws

/- The variable of a literal is its diagram. -/
theorem draws_mkVar
    {numbers : List (String × Nat)}
    {name : String}
    {v : Nat}
    (hSound : n.manager.Sound)
    (hGrows : n.Grows ⟨numbers, n.manager⟩)
    (hNumber : numbers.lookup name = some v)
    (hv : 0 < v) :
    n.Draws (.literal name)
      ((n.manager.mkVar v).1,
        ⟨numbers, (n.manager.mkVar v).2⟩) := by
  have hMade := hSound.makes_mkVar hv
  constructor
  · exact hMade.sound
  · exact
      ⟨hMade.keeps, hGrows.number?_eq, hGrows.pos⟩
  · exact hMade.isLive
  · intro other hOther
    rw [List.mem_singleton.mp hOther]
    exact Option.isSome_iff_exists.mpr ⟨v, hNumber⟩
  · intro a
    refine (hMade.eval_eq a).trans ?_
    unfold Formula.eval value number?
    rw [hNumber, Option.getD_some]

/- A literal is drawn as its variable, a new one if it has none. -/
theorem draws_literal
    {name : String}
    (hSound : n.manager.Sound)
    (hPositive : n.Positive (.literal name)) :
    n.Draws (.literal name) (n.literal name) := by
  rcases n with ⟨numbers, manager⟩
  cases hNumber : numbers.lookup name with
  | some v =>
      simp only [literal, hNumber]
      have hv : 0 < v :=
        hPositive name List.mem_cons_self v hNumber
      exact draws_mkVar hSound (.refl _) hNumber hv
  | none =>
      simp only [literal, hNumber]
      have hNew :
          (numbers ++ [(name, numbers.length + 1)]).lookup
              name =
            some (numbers.length + 1) := by
        rw [List.lookup_append, hNumber]
        simp
      apply draws_mkVar hSound _ hNew (Nat.succ_pos _)
      refine ⟨.refl _, ?_, ?_⟩
      · intro other v hOther
        unfold number? at hOther ⊢
        rw [List.lookup_append, hOther]
        rfl
      · intro other v hOther
        unfold number? at hOther ⊢
        rw [List.lookup_append] at hOther
        cases hOld : numbers.lookup other with
        | some w =>
            rw [hOld] at hOther
            exact Or.inl hOther
        | none =>
            rw [hOld, Option.none_or, List.lookup_cons]
              at hOther
            split at hOther
            · cases hOther
              exact Or.inr (Nat.succ_pos _)
            · cases hOther

end Numbering

------------------------------------------------------------
-- Formulas
------------------------------------------------------------

namespace Formula

open Variability.Numbering

variable {n n' n'' : Numbering}
variable {r s : Handle}
variable {f : Formula}
variable {fs gs : List Formula}

/- The conjunction or the disjunction of some formulas. -/
def join (all : Bool) (fs : List Formula) : Formula :=
  if all then .conj fs else .disj fs

/- The conjunction or the disjunction of two diagrams. -/
def connect
    (all : Bool)
    (n : Numbering)
    (r s : Handle) :
    Handle × Numbering :=
  if all then n.and r s else n.or r s

/- Connect a diagram with those of some formulas, one by one. -/
def connectEach
    (all : Bool) :
    List Formula →
    Handle →
    Numbering →
    Handle × Numbering
  | [], r, n => (r, n)
  | f :: fs, r, n =>
      let (s, n) := f.toDiagram n
      let (r, n) := connect all n r s
      connectEach all fs r n

theorem conjToDiagram_eq
    (fs : List Formula)
    (r : Handle)
    (n : Numbering) :
    conjToDiagram fs r n = connectEach true fs r n := by
  induction fs generalizing r n with
  | nil => rfl
  | cons f fs ih =>
      unfold conjToDiagram connectEach
      exact ih _ _

theorem disjToDiagram_eq
    (fs : List Formula)
    (r : Handle)
    (n : Numbering) :
    disjToDiagram fs r n = connectEach false fs r n := by
  induction fs generalizing r n with
  | nil => rfl
  | cons f fs ih =>
      unfold disjToDiagram connectEach
      exact ih _ _

theorem literals_join
    (all : Bool)
    (fs : List Formula) :
    (join all fs).literals = literalsOf fs := by
  cases all <;> rfl

theorem eval_join
    (all : Bool)
    (b : String → Bool)
    (fs : List Formula) :
    (join all fs).eval b = evalEach all b fs := by
  cases all
  · exact eval_disj b fs
  · exact eval_conj b fs

/- One more formula is connected with those before it. -/
theorem draws_connect
    {all : Bool}
    (hFirst : n.Draws (join all gs) (r, n'))
    (hNext : n'.Draws f (s, n'')) :
    n.Draws (join all (gs ++ [f]))
      (connect all n'' r s) := by
  have hGrown := hFirst.extend hNext.grows hNext.sound
  have hAfter : n.Draws f (s, n'') :=
    { hNext with grows := hGrown.grows }
  have hLiterals :
      ∀ name ∈ (join all (gs ++ [f])).literals,
        name ∈ (join all gs).literals ∨
          name ∈ f.literals := by
    intro name hName
    rw [literals_join, literalsOf_append] at hName
    rw [literals_join]
    simpa [literalsOf] using hName
  cases all with
  | true =>
      apply
        hGrown.connect hAfter
          (hNext.sound.makes_and hGrown.isLive hAfter.isLive)
          hLiterals
      intro b
      rw [eval_join, evalEach_append, eval_join]
      simp [evalEach]
  | false =>
      apply
        hGrown.connect hAfter
          (hNext.sound.makes_or hGrown.isLive hAfter.isLive)
          hLiterals
      intro b
      rw [eval_join, evalEach_append, eval_join]
      simp [evalEach]

/-
  Connecting diagrams one by one draws the connective of all
  formulas, by induction over those that are still to come.
-/
theorem draws_connectEach
    {all : Bool}
    (hEach :
      ∀ f ∈ fs, ∀ {n : Numbering}, n.manager.Sound →
        n.Positive f → n.Draws f (f.toDiagram n))
    (hFirst : n.Draws (join all gs) (r, n'))
    (hPositive : ∀ f ∈ fs, n.Positive f) :
    n.Draws (join all (gs ++ fs))
      (connectEach all fs r n') := by
  induction fs generalizing gs r n' with
  | nil =>
      rw [List.append_nil]
      exact hFirst
  | cons f fs ih =>
      have hHere := hPositive f List.mem_cons_self
      have hNext :=
        hEach f List.mem_cons_self hFirst.sound
          (hHere.grows hFirst.grows)
      rw [List.append_cons]
      unfold connectEach
      apply ih
      · intro g hg
        exact hEach g (List.mem_cons_of_mem f hg)
      · exact draws_connect hFirst hNext
      · intro g hg
        exact hPositive g (List.mem_cons_of_mem f hg)

theorem draws_constant
    {x : Bool}
    (hMade : n.manager.Makes (fun _ => x) (r, n.manager)) :
    n.Draws (constant x) (r, n) where
  sound := hMade.sound
  grows := .refl n
  isLive := hMade.isLive
  named := fun _ hName => by
    cases x <;> cases hName
  eval_eq := fun a =>
    (hMade.eval_eq a).trans (eval_constant _ x).symm

/- The connective of no formulas is a constant. -/
theorem draws_nothing
    (all : Bool)
    (hSound : n.manager.Sound) :
    n.Draws (join all [])
      (if all then .one else .zero, n) := by
  cases all with
  | true =>
      exact
        (draws_constant hSound.makes_one).congr
          (fun _ hName => hName) fun _ => rfl
  | false =>
      exact
        (draws_constant hSound.makes_zero).congr
          (fun _ hName => hName) fun _ => rfl

/- Every formula is drawn, by induction over it. -/
theorem draws_toDiagram
    (f : Formula)
    (hSound : n.manager.Sound)
    (hPositive : n.Positive f) :
    n.Draws f (f.toDiagram n) := by
  induction f using Formula.induction generalizing n with
  | truth => exact draws_constant hSound.makes_one
  | falsity => exact draws_constant hSound.makes_zero
  | literal name =>
      exact draws_literal hSound hPositive
  | negation f ih =>
      exact (ih hSound hPositive).neg
  | conj fs ih =>
      unfold toDiagram
      rw [conjToDiagram_eq]
      apply draws_connectEach ih (draws_nothing true hSound)
      intro f hf name hName
      exact
        hPositive name (mem_literalsOf_iff.mpr ⟨f, hf, hName⟩)
  | disj fs ih =>
      unfold toDiagram
      rw [disjToDiagram_eq]
      apply draws_connectEach ih (draws_nothing false hSound)
      intro f hf name hName
      exact
        hPositive name (mem_literalsOf_iff.mpr ⟨f, hf, hName⟩)

end Formula

end Variability
