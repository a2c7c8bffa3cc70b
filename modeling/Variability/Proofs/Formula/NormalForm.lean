import Variability.Proofs.Formula.Simplification

/-
  The normal form that simplifying ends in.

  In a reduced formula no constant is left, a connective joins at
  least two arguments, none of which is a connective of the same
  kind, and no negation is negated. A formula is normal if it is a
  constant or reduced. Simplifying gives a normal formula, and
  leaves such a formula as it is.

  Main declarations:
    * `Formula.IsReduced`, `Formula.IsNormal`
    * `Formula.isNormal_simplify`
    * `Formula.simplify_eq_self_iff`
    * `Formula.simplify_normalizes`
-/

namespace Variability

namespace Formula

variable {all : Bool}
variable {f : Formula}
variable {fs gs : List Formula}

------------------------------------------------------------
-- Normal Formulas
------------------------------------------------------------

/- There is nothing to simplify in a formula, which is no constant. -/
inductive IsReduced : Formula → Prop where
  | literal (name : String) : IsReduced (.literal name)
  | negation
      {f : Formula}
      (hInner : IsReduced f)
      (hOnce : ∀ g, f ≠ .negation g) :
      IsReduced (.negation f)
  | conj
      {fs : List Formula}
      (hTwo : 2 ≤ fs.length)
      (hEach : ∀ f ∈ fs, IsReduced f)
      (hFlat : ∀ gs, .conj gs ∉ fs) :
      IsReduced (.conj fs)
  | disj
      {fs : List Formula}
      (hTwo : 2 ≤ fs.length)
      (hEach : ∀ f ∈ fs, IsReduced f)
      (hFlat : ∀ gs, .disj gs ∉ fs) :
      IsReduced (.disj fs)

/- A constant as a whole, or a reduced formula. -/
def IsNormal (f : Formula) : Prop :=
  f = .truth ∨ f = .falsity ∨ f.IsReduced

/- The connective of a kind: conjunction (`all`) or disjunction. -/
def connective (all : Bool) (fs : List Formula) : Formula :=
  if all then .conj fs else .disj fs

/- What can be an argument of a reduced connective. -/
structure IsPart (all : Bool) (f : Formula) : Prop where
  isReduced : f.IsReduced
  isOther : ∀ gs, f ≠ connective all gs

theorem isNormal_constant (x : Bool) : (constant x).IsNormal := by
  cases x with
  | false => exact Or.inr (Or.inl rfl)
  | true => exact Or.inl rfl

theorem IsReduced.isNormal (hf : f.IsReduced) : f.IsNormal :=
  Or.inr (Or.inr hf)

theorem IsReduced.ne_constant
    (hf : f.IsReduced)
    (x : Bool) :
    f ≠ constant x := by
  rintro rfl
  cases x <;> cases hf

theorem IsReduced.connective
    (hTwo : 2 ≤ fs.length)
    (hEach : ∀ f ∈ fs, IsPart all f) :
    (connective all fs).IsReduced := by
  have hReduced (f : Formula) (hf : f ∈ fs) : f.IsReduced :=
    (hEach f hf).isReduced
  have hFlat (gs : List Formula) : Formula.connective all gs ∉ fs :=
    fun hMem => (hEach _ hMem).isOther gs rfl
  cases all with
  | true => exact .conj hTwo hReduced hFlat
  | false => exact .disj hTwo hReduced hFlat

/- The arguments of a reduced connective can be such arguments. -/
theorem IsReduced.of_connective
    (hReduced : (Formula.connective all fs).IsReduced) :
    2 ≤ fs.length ∧ ∀ f ∈ fs, IsPart all f := by
  cases all with
  | true =>
      cases hReduced with
      | conj hTwo hEach hFlat =>
          refine ⟨hTwo, fun f hf => ⟨hEach f hf, ?_⟩⟩
          rintro gs rfl
          exact hFlat gs hf
  | false =>
      cases hReduced with
      | disj hTwo hEach hFlat =>
          refine ⟨hTwo, fun f hf => ⟨hEach f hf, ?_⟩⟩
          rintro gs rfl
          exact hFlat gs hf

------------------------------------------------------------
-- Joined Arguments
------------------------------------------------------------

/- What an argument is taken apart into by a connective. -/
def parts (all : Bool) (f : Formula) : List Formula :=
  match all, f with
  | true, .conj fs => fs
  | false, .disj fs => fs
  | _, f => [f]

theorem joinArguments_cons
    (all : Bool)
    (f : Formula)
    (fs : List Formula) :
    joinArguments all (f :: fs) =
      if f = constant !all then none
      else
        (joinArguments all fs).map fun rest =>
          if f = constant all then rest else parts all f ++ rest := by
  rw [joinArguments]
  congr 2
  funext rest
  cases all <;> cases f <;> rfl

theorem parts_connective
    (all : Bool)
    (fs : List Formula) :
    parts all (connective all fs) = fs := by
  cases all <;> rfl

theorem parts_eq_singleton
    (hOther : ∀ gs, f ≠ connective all gs) :
    parts all f = [f] := by
  unfold parts
  split
  · exact absurd rfl (hOther _)
  · exact absurd rfl (hOther _)
  · rfl

theorem IsReduced.isPart_of_mem
    (hReduced : f.IsReduced) :
    ∀ g ∈ parts all f, IsPart all g := by
  by_cases hSame : ∃ gs, f = Formula.connective all gs
  · rcases hSame with ⟨gs, rfl⟩
    rw [parts_connective]
    exact hReduced.of_connective.2
  · rw [not_exists] at hSame
    rw [parts_eq_singleton hSame, List.forall_mem_singleton]
    exact ⟨hReduced, hSame⟩

/- Joining normal formulas gives arguments of a reduced connective. -/
theorem isPart_of_joinArguments
    (hEach : ∀ f ∈ fs, f.IsNormal)
    (hJoined : joinArguments all fs = some gs) :
    ∀ g ∈ gs, IsPart all g := by
  induction fs generalizing gs with
  | nil =>
      cases hJoined
      exact List.forall_mem_nil _
  | cons f fs ih =>
      rw [List.forall_mem_cons] at hEach
      rw [joinArguments_cons] at hJoined
      by_cases hDecisive : f = constant !all
      · rw [if_pos hDecisive] at hJoined
        cases hJoined
      rw [if_neg hDecisive] at hJoined
      rcases Option.map_eq_some_iff.mp hJoined with
        ⟨rest, hRest, rfl⟩
      have hOthers := ih hEach.2 hRest
      by_cases hNeutral : f = constant all
      · rwa [if_pos hNeutral]
      rw [if_neg hNeutral, List.forall_mem_append]
      refine ⟨IsReduced.isPart_of_mem ?_, hOthers⟩
      -- A constant is decisive or neutral.
      rcases hEach.1 with rfl | rfl | hReduced
      · cases all <;> contradiction
      · cases all <;> contradiction
      · exact hReduced

theorem isNormal_ofJoined
    (hEach : ∀ g ∈ gs, IsPart all g) :
    (ofJoined all (some gs)).IsNormal := by
  match gs with
  | [] => exact isNormal_constant all
  | [g] => exact (hEach g List.mem_cons_self).isReduced.isNormal
  | g :: h :: rest =>
      have hTwo : 2 ≤ (g :: h :: rest).length := by simp
      exact (IsReduced.connective hTwo hEach).isNormal

/- Arguments of a reduced connective are joined as they are. -/
theorem joinArguments_eq_self
    (hEach : ∀ f ∈ fs, IsPart all f) :
    joinArguments all fs = some fs := by
  induction fs with
  | nil => rfl
  | cons f fs ih =>
      rw [List.forall_mem_cons] at hEach
      have hReduced := hEach.1.isReduced
      rw [joinArguments_cons, if_neg (hReduced.ne_constant _),
        ih hEach.2, Option.map_some,
        if_neg (hReduced.ne_constant _),
        parts_eq_singleton hEach.1.isOther]
      rfl

theorem ofJoined_eq_connective
    (hTwo : 2 ≤ fs.length) :
    ofJoined all (some fs) = connective all fs := by
  match fs with
  | [] => simp at hTwo
  | [_] => simp at hTwo
  | _ :: _ :: _ => rfl

------------------------------------------------------------
-- Simplified Formulas
------------------------------------------------------------

theorem isNormal_negateSimplified
    (hf : f.IsNormal) :
    (negateSimplified f).IsNormal := by
  rcases hf with rfl | rfl | hReduced
  · exact isNormal_constant false
  · exact isNormal_constant true
  · cases hReduced with
    | negation hInner _ => exact hInner.isNormal
    | literal name =>
        exact (IsReduced.negation (.literal name) nofun).isNormal
    | conj hTwo hEach hFlat =>
        exact
          (IsReduced.negation (.conj hTwo hEach hFlat)
            nofun).isNormal
    | disj hTwo hEach hFlat =>
        exact
          (IsReduced.negation (.disj hTwo hEach hFlat)
            nofun).isNormal

theorem simplify_connective
    (all : Bool)
    (fs : List Formula) :
    simplify (connective all fs) =
      ofJoined all (joinArguments all (fs.map simplify)) := by
  rw [← simplifyEach_eq]
  cases all <;> rfl

theorem isNormal_simplify_connective
    (all : Bool)
    (hEach : ∀ f ∈ fs, (simplify f).IsNormal) :
    (simplify (connective all fs)).IsNormal := by
  rw [simplify_connective]
  cases hJoined : joinArguments all (fs.map simplify) with
  | none => exact isNormal_constant _
  | some gs =>
      rw [← List.forall_mem_map] at hEach
      exact
        isNormal_ofJoined (isPart_of_joinArguments hEach hJoined)

/- Simplifying gives a normal formula. -/
theorem isNormal_simplify (f : Formula) : (simplify f).IsNormal := by
  induction f using Formula.induction with
  | truth => exact isNormal_constant true
  | falsity => exact isNormal_constant false
  | literal name => exact (IsReduced.literal name).isNormal
  | negation f ih => exact isNormal_negateSimplified ih
  | conj fs ih => exact isNormal_simplify_connective true ih
  | disj fs ih => exact isNormal_simplify_connective false ih

theorem simplify_connective_eq_self
    (all : Bool)
    (hReduced : (connective all fs).IsReduced)
    (hEach : ∀ f ∈ fs, f.IsReduced → simplify f = f) :
    simplify (connective all fs) = connective all fs := by
  rcases hReduced.of_connective with ⟨hTwo, hParts⟩
  have hSame : fs.map simplify = fs.map id :=
    List.map_congr_left fun f hf =>
      hEach f hf (hParts f hf).isReduced
  rw [simplify_connective, hSame, List.map_id,
    joinArguments_eq_self hParts, ofJoined_eq_connective hTwo]

/- A reduced formula stays as it is. -/
theorem IsReduced.simplify_eq_self
    (hReduced : f.IsReduced) :
    simplify f = f := by
  induction f using Formula.induction with
  | truth => cases hReduced
  | falsity => cases hReduced
  | literal name => rfl
  | negation f ih =>
      cases hReduced with
      | negation hInner hOnce =>
          rw [simplify, ih hInner]
          cases hInner with
          | negation => exact absurd rfl (hOnce _)
          | literal | conj | disj => rfl
  | conj fs ih =>
      exact simplify_connective_eq_self true hReduced ih
  | disj fs ih =>
      exact simplify_connective_eq_self false hReduced ih

/- The formulas that simplifying leaves alone are the normal ones. -/
theorem simplify_eq_self_iff (f : Formula) :
    simplify f = f ↔ f.IsNormal := by
  constructor
  · intro hSame
    rw [← hSame]
    exact isNormal_simplify f
  · rintro (rfl | rfl | hReduced)
    · rfl
    · rfl
    · exact hReduced.simplify_eq_self

/-
  A simplified formula has the value of the formula under every
  assignment and no other literals, and it is normal. So there is
  nothing left to simplify in it.
-/
theorem simplify_normalizes (f : Formula) :
    (∀ a, eval a (simplify f) = eval a f) ∧
      literals (simplify f) ⊆ literals f ∧
      (simplify f).IsNormal ∧
      simplify (simplify f) = simplify f :=
  ⟨fun a => eval_simplify a f,
    fun _ hName => mem_literals_of_simplify hName,
    isNormal_simplify f,
    (simplify_eq_self_iff _).mpr (isNormal_simplify f)⟩

end Formula

end Variability
