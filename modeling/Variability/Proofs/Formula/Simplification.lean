import Mathlib.Data.Bool.Basic
import Variability.Formula

/-
  Simplifying a formula keeps its meaning.

  A simplified formula has the value of the formula under every
  assignment, and its literals are literals of the formula.

  Main declarations:
    * `Formula.eval_congr`
    * `Formula.eval_simplify`
    * `Formula.mem_literals_of_simplify`
-/

namespace Variability

namespace Formula

variable {a b : String → Bool}
variable {f : Formula}
variable {fs gs : List Formula}
variable {name : String}

------------------------------------------------------------
-- Lists of Arguments
------------------------------------------------------------

theorem evalAll_eq
    (a : String → Bool)
    (fs : List Formula) :
    evalAll a fs = fs.all (eval a) := by
  induction fs with
  | nil => rfl
  | cons f fs ih => rw [evalAll, ih, List.all_cons]

theorem evalAny_eq
    (a : String → Bool)
    (fs : List Formula) :
    evalAny a fs = fs.any (eval a) := by
  induction fs with
  | nil => rfl
  | cons f fs ih => rw [evalAny, ih, List.any_cons]

theorem mem_literalsOf_iff :
    name ∈ literalsOf fs ↔ ∃ f ∈ fs, name ∈ literals f := by
  induction fs with
  | nil => simp [literalsOf]
  | cons f fs ih => simp [literalsOf, ih]

theorem literalsOf_append (fs gs : List Formula) :
    literalsOf (fs ++ gs) = literalsOf fs ++ literalsOf gs := by
  induction fs with
  | nil => rfl
  | cons f fs ih =>
      rw [List.cons_append, literalsOf, literalsOf, ih,
        List.append_assoc]

/- Induction over a formula and the arguments inside it. -/
theorem induction
    {motive : Formula → Prop}
    (truth : motive .truth)
    (falsity : motive .falsity)
    (literal : ∀ name, motive (.literal name))
    (negation : ∀ f, motive f → motive (.negation f))
    (conj : ∀ fs, (∀ f ∈ fs, motive f) → motive (.conj fs))
    (disj : ∀ fs, (∀ f ∈ fs, motive f) → motive (.disj fs))
    (f : Formula) :
    motive f :=
  @Formula.rec motive (fun fs => ∀ f ∈ fs, motive f)
    truth falsity literal negation conj disj
    (fun _ hNone => by cases hNone)
    (fun f fs ih ihs g hg => by
      rcases List.mem_cons.mp hg with rfl | hg
      · exact ih
      · exact ihs g hg)
    f

/- The value of a connective of some arguments. -/
def evalEach
    (all : Bool)
    (a : String → Bool)
    (fs : List Formula) :
    Bool :=
  if all then fs.all (eval a) else fs.any (eval a)

theorem eval_conj
    (a : String → Bool)
    (fs : List Formula) :
    eval a (.conj fs) = evalEach true a fs :=
  evalAll_eq a fs

theorem eval_disj
    (a : String → Bool)
    (fs : List Formula) :
    eval a (.disj fs) = evalEach false a fs :=
  evalAny_eq a fs

theorem evalEach_cons
    (all : Bool)
    (a : String → Bool)
    (f : Formula)
    (fs : List Formula) :
    evalEach all a (f :: fs) =
      if all then eval a f && evalEach all a fs
      else eval a f || evalEach all a fs := by
  cases all <;> simp [evalEach]

theorem evalEach_append
    (all : Bool)
    (a : String → Bool)
    (fs gs : List Formula) :
    evalEach all a (fs ++ gs) =
      if all then evalEach all a fs && evalEach all a gs
      else evalEach all a fs || evalEach all a gs := by
  cases all <;> simp [evalEach]

/- Arguments with equal values can be put for each other. -/
theorem evalEach_map_congr
    (all : Bool)
    {h : Formula → Formula}
    (hEach : ∀ f ∈ fs, eval a (h f) = eval b f) :
    evalEach all a (fs.map h) = evalEach all b fs := by
  induction fs with
  | nil => cases all <;> rfl
  | cons f fs ih =>
      have hHere := hEach f List.mem_cons_self
      have hRest :=
        ih fun g hg => hEach g (List.mem_cons_of_mem f hg)
      rw [List.map_cons, evalEach_cons, evalEach_cons,
        hHere, hRest]

/- The value of a formula depends on its literals. -/
theorem eval_congr
    (hAgree : ∀ name ∈ f.literals, a name = b name) :
    f.eval a = f.eval b := by
  induction f using Formula.induction with
  | truth => rfl
  | falsity => rfl
  | literal name =>
      exact hAgree name List.mem_cons_self
  | negation f ih =>
      rw [eval, eval, ih hAgree]
  | conj fs ih =>
      have hSame :
          evalEach true a (fs.map id) = evalEach true b fs := by
        apply evalEach_map_congr
        intro f hf
        apply ih f hf
        intro name hName
        exact
          hAgree name (mem_literalsOf_iff.mpr ⟨f, hf, hName⟩)
      rw [List.map_id] at hSame
      rw [eval_conj, eval_conj, hSame]
  | disj fs ih =>
      have hSame :
          evalEach false a (fs.map id) = evalEach false b fs := by
        apply evalEach_map_congr
        intro f hf
        apply ih f hf
        intro name hName
        exact
          hAgree name (mem_literalsOf_iff.mpr ⟨f, hf, hName⟩)
      rw [List.map_id] at hSame
      rw [eval_disj, eval_disj, hSame]

------------------------------------------------------------
-- Joined Arguments
------------------------------------------------------------

@[simp] theorem eval_constant
    (a : String → Bool)
    (x : Bool) :
    eval a (constant x) = x := by
  cases x <;> rfl

@[simp] theorem eval_not
    (a : String → Bool)
    (f : Formula) :
    eval a (not f) = !eval a f := by
  cases f <;> simp [not, eval]

theorem eval_negateSimplified
    (a : String → Bool)
    (f : Formula) :
    eval a (negateSimplified f) = !eval a f := by
  cases f <;> simp [negateSimplified, not, eval]

/- The simplest formula for some arguments has their value. -/
theorem eval_ofJoined
    (all : Bool)
    (a : String → Bool)
    (fs : List Formula) :
    eval a (ofJoined all (some fs)) = evalEach all a fs := by
  cases fs with
  | nil => cases all <;> rfl
  | cons f fs =>
      cases fs with
      | nil => cases all <;> simp [ofJoined, evalEach]
      | cons g gs =>
          cases all <;>
            simp [ofJoined, evalEach, eval, evalAll_eq,
              evalAny_eq]

/-
  Joining keeps the value of a connective, and gives no
  arguments only where a constant among them is decisive.
-/
theorem eval_joinArguments
    (all : Bool)
    (a : String → Bool)
    (fs : List Formula) :
    eval a (ofJoined all (joinArguments all fs)) =
      evalEach all a fs := by
  induction fs with
  | nil => cases all <;> rfl
  | cons f fs ih =>
      rw [joinArguments, evalEach_cons, ← ih]
      by_cases hDecisive : f = constant !all
      · rw [if_pos hDecisive, hDecisive]
        cases all <;> simp [ofJoined]
      rw [if_neg hDecisive]
      cases hRest : joinArguments all fs with
      | none =>
          cases all <;> simp [ofJoined]
      | some rest =>
          rw [Option.map_some]
          by_cases hNeutral : f = constant all
          · rw [if_pos hNeutral, hNeutral]
            cases all <;> simp
          rw [if_neg hNeutral, eval_ofJoined, eval_ofJoined]
          cases all with
          | true =>
              cases f with
              | conj inner =>
                  rw [evalEach_append, eval_conj]
              | truth | falsity | literal | negation | disj =>
                  exact evalEach_cons true a _ rest
          | false =>
              cases f with
              | disj inner =>
                  rw [evalEach_append, eval_disj]
              | truth | falsity | literal | negation | conj =>
                  exact evalEach_cons false a _ rest

theorem simplifyEach_eq (fs : List Formula) :
    simplifyEach fs = fs.map simplify := by
  induction fs with
  | nil => rfl
  | cons f fs ih => rw [simplifyEach, ih, List.map_cons]

/- A simplified formula has the value of the formula. -/
theorem eval_simplify
    (a : String → Bool)
    (f : Formula) :
    eval a (simplify f) = eval a f := by
  induction f using Formula.induction with
  | truth => rfl
  | falsity => rfl
  | literal name => rfl
  | negation f ih =>
      rw [simplify, eval_negateSimplified, ih, eval]
  | conj fs ih =>
      rw [simplify, eval_joinArguments, simplifyEach_eq,
        eval_conj]
      exact evalEach_map_congr true ih
  | disj fs ih =>
      rw [simplify, eval_joinArguments, simplifyEach_eq,
        eval_disj]
      exact evalEach_map_congr false ih

------------------------------------------------------------
-- Literals
------------------------------------------------------------

theorem literals_negateSimplified (f : Formula) :
    literals (negateSimplified f) = literals f := by
  cases f <;> simp [negateSimplified, not, literals]

/- The simplest formula for some arguments has their literals. -/
theorem literals_ofJoined
    (all : Bool)
    (fs : List Formula) :
    literals (ofJoined all (some fs)) = literalsOf fs := by
  cases fs with
  | nil => cases all <;> rfl
  | cons f fs =>
      cases fs with
      | nil => simp [ofJoined, literalsOf]
      | cons g gs =>
          cases all <;> simp [ofJoined, literals]

/- Joined arguments have literals of the arguments only. -/
theorem mem_literals_of_joinArguments
    {all : Bool}
    (hName :
      name ∈
        literals (ofJoined all (joinArguments all fs))) :
    name ∈ literalsOf fs := by
  induction fs with
  | nil =>
      rw [joinArguments, literals_ofJoined] at hName
      exact hName
  | cons f fs ih =>
      rw [literalsOf, List.mem_append]
      rw [joinArguments] at hName
      by_cases hDecisive : f = constant !all
      · rw [if_pos hDecisive] at hName
        cases all <;> simp [ofJoined, constant, literals]
          at hName
      rw [if_neg hDecisive] at hName
      cases hRest : joinArguments all fs with
      | none =>
          rw [hRest] at hName
          cases all <;> simp [ofJoined, constant, literals]
            at hName
      | some rest =>
          rw [hRest, literals_ofJoined] at ih
          rw [hRest, Option.map_some, literals_ofJoined]
            at hName
          by_cases hNeutral : f = constant all
          · rw [if_pos hNeutral] at hName
            exact Or.inr (ih hName)
          rw [if_neg hNeutral] at hName
          have hParts :
              name ∈ literals f ∨ name ∈ literalsOf rest := by
            cases all <;> cases f <;>
              simpa [literals, literalsOf, literalsOf_append]
                using hName
          exact hParts.imp_right ih

/- A simplified formula has literals of the formula only. -/
theorem mem_literals_of_simplify
    (hName : name ∈ literals (simplify f)) :
    name ∈ literals f := by
  induction f using Formula.induction with
  | truth => exact hName
  | falsity => exact hName
  | literal name => exact hName
  | negation f ih =>
      rw [simplify, literals_negateSimplified] at hName
      exact ih hName
  | conj fs ih =>
      rw [simplify] at hName
      have hEach := mem_literals_of_joinArguments hName
      rw [simplifyEach_eq, mem_literalsOf_iff] at hEach
      rcases hEach with ⟨g, hg, hMem⟩
      rcases List.mem_map.mp hg with ⟨f, hf, rfl⟩
      exact mem_literalsOf_iff.mpr ⟨f, hf, ih f hf hMem⟩
  | disj fs ih =>
      rw [simplify] at hName
      have hEach := mem_literals_of_joinArguments hName
      rw [simplifyEach_eq, mem_literalsOf_iff] at hEach
      rcases hEach with ⟨g, hg, hMem⟩
      rcases List.mem_map.mp hg with ⟨f, hf, rfl⟩
      exact mem_literalsOf_iff.mpr ⟨f, hf, ih f hf hMem⟩

end Formula

end Variability
