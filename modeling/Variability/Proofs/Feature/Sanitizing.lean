import Variability.Feature
import Variability.Proofs.Formula.Simplification

/-
  Formulas over known features.

  Putting false in place of what is no feature gives the value
  of the formula in the configurations in which nothing but
  features is chosen, whether anything had to be replaced or not.

  Main declarations:
    * `Formula.eval_mapLiterals`
    * `FeatureModel.mem_literals_of_sanitize`
    * `FeatureModel.eval_sanitize`
-/

namespace Variability

namespace Formula

theorem mapLiteralsOf_eq
    (h : String → Formula)
    (fs : List Formula) :
    mapLiteralsOf h fs = fs.map (mapLiterals h) := by
  induction fs with
  | nil => rfl
  | cons f fs ih => rw [mapLiteralsOf, ih, List.map_cons]

/- A formula in place of a literal stands for its value. -/
theorem eval_mapLiterals
    (h : String → Formula)
    (a : String → Bool)
    (f : Formula) :
    eval a (mapLiterals h f) =
      eval (fun name => eval a (h name)) f := by
  induction f using Formula.induction with
  | truth => rfl
  | falsity => rfl
  | literal name => rfl
  | negation f ih => rw [mapLiterals, eval, eval, ih]
  | conj fs ih =>
      rw [mapLiterals, mapLiteralsOf_eq, eval_conj, eval_conj]
      exact evalEach_map_congr true ih
  | disj fs ih =>
      rw [mapLiterals, mapLiteralsOf_eq, eval_disj, eval_disj]
      exact evalEach_map_congr false ih

/- The literals are those of the formulas put in place of literals. -/
theorem mem_literals_mapLiterals
    {h : String → Formula}
    {literal : String}
    {f : Formula} :
    literal ∈ (mapLiterals h f).literals ↔
      ∃ name ∈ f.literals, literal ∈ (h name).literals := by
  have hEach
      {fs : List Formula}
      (ih :
        ∀ f ∈ fs,
          literal ∈ (mapLiterals h f).literals ↔
            ∃ name ∈ f.literals, literal ∈ (h name).literals) :
      literal ∈ literalsOf (fs.map (mapLiterals h)) ↔
        ∃ name ∈ literalsOf fs, literal ∈ (h name).literals := by
    simp only [mem_literalsOf_iff, List.mem_map]
    constructor
    · rintro ⟨_, ⟨f, hf, rfl⟩, hLiteral⟩
      rcases (ih f hf).mp hLiteral with ⟨name, hName, hIn⟩
      exact ⟨name, ⟨f, hf, hName⟩, hIn⟩
    · rintro ⟨name, ⟨f, hf, hName⟩, hIn⟩
      exact
        ⟨_, ⟨f, hf, rfl⟩, (ih f hf).mpr ⟨name, hName, hIn⟩⟩
  induction f using Formula.induction with
  | truth => simp [mapLiterals, literals]
  | falsity => simp [mapLiterals, literals]
  | literal name => simp [mapLiterals, literals]
  | negation f ih => exact ih
  | conj fs ih =>
      rw [mapLiterals, mapLiteralsOf_eq]
      exact hEach ih
  | disj fs ih =>
      rw [mapLiterals, mapLiteralsOf_eq]
      exact hEach ih

theorem mem_insertName
    {name other : String}
    {names : List String} :
    name ∈ insertName other names ↔
      name = other ∨ name ∈ names := by
  induction names with
  | nil => simp [insertName]
  | cons first rest ih =>
      unfold insertName
      by_cases hSame : other = first
      · simp [hSame]
      · by_cases hLess : other < first
        · simp [hSame, hLess]
        · simp only [hSame, hLess, if_false, List.mem_cons,
            ih]
          exact or_left_comm

/- The names of a formula are those of its literals. -/
theorem mem_names_iff
    {name : String}
    {f : Formula} :
    name ∈ f.names ↔ name ∈ f.literals := by
  have hFold (found more : List String) :
      name ∈ more.foldl
          (fun names name => insertName name names) found ↔
        name ∈ found ∨ name ∈ more := by
    induction more generalizing found with
    | nil => simp
    | cons other more ih =>
        rw [List.foldl_cons, ih, mem_insertName,
          List.mem_cons, or_assoc, or_left_comm]
  unfold names
  rw [hFold]
  simp

end Formula

namespace FeatureModel

/- What is left of an assignment if only features can be chosen. -/
def restricted
    (m : FeatureModel)
    (a : String → Bool)
    (name : String) :
    Bool :=
  m.contains name && a name

theorem eval_known
    (m : FeatureModel)
    (a : String → Bool)
    (name : String) :
    (m.known name).eval a = m.restricted a name := by
  unfold known restricted
  cases m.contains name <;> simp [Formula.eval]

/- A formula over known features stays as it is. -/
theorem sanitize_eq_self
    {m : FeatureModel}
    {f : Formula}
    (hKnown :
      ∀ literal ∈ f.literals, m.contains literal = true)
    (context : String) :
    (m.sanitize context f).1 = f := by
  have hNone : m.unknown f = [] := by
    apply List.filter_eq_nil_iff.mpr
    intro name hName
    simp [hKnown name (Formula.mem_names_iff.mp hName)]
  unfold sanitize
  rw [if_pos hNone]

/- What is left of the literals of a formula are known features. -/
theorem mem_literals_of_sanitize
    {m : FeatureModel}
    {context literal : String}
    {f : Formula}
    (hLiteral :
      literal ∈ (m.sanitize context f).1.literals) :
    literal ∈ f.literals ∧ m.contains literal = true := by
  unfold sanitize at hLiteral
  by_cases hKnown : m.unknown f = []
  · rw [if_pos hKnown] at hLiteral
    have hNames := List.filter_eq_nil_iff.mp hKnown literal
      (Formula.mem_names_iff.mpr hLiteral)
    exact ⟨hLiteral, by simpa using hNames⟩
  · rw [if_neg hKnown] at hLiteral
    rcases
      Formula.mem_literals_mapLiterals.mp
        (Formula.mem_literals_of_simplify hLiteral) with
      ⟨name, hName, hKept⟩
    unfold known at hKept
    cases hFeature : m.contains name with
    | false => simp [hFeature, Formula.literals] at hKept
    | true =>
        simp only [hFeature, if_true, Formula.literals,
          List.mem_singleton] at hKept
        subst hKept
        exact ⟨hName, hFeature⟩

/- A sanitized formula has its values where features are chosen. -/
theorem eval_sanitize
    (m : FeatureModel)
    (context : String)
    (f : Formula)
    (a : String → Bool) :
    (m.sanitize context f).1.eval a =
      f.eval (m.restricted a) := by
  unfold sanitize
  by_cases hKnown : m.unknown f = []
  · rw [if_pos hKnown]
    apply Formula.eval_congr
    intro name hName
    have hNames := List.filter_eq_nil_iff.mp hKnown name
      (Formula.mem_names_iff.mpr hName)
    simp only [Bool.not_eq_eq_eq_not, Bool.not_true,
      Bool.not_eq_false] at hNames
    simp [restricted, hNames]
  · rw [if_neg hKnown]
    dsimp only
    rw [Formula.eval_simplify, Formula.eval_mapLiterals]
    simp only [eval_known]

end FeatureModel

end Variability
