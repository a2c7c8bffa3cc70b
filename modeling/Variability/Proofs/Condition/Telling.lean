import Variability.Proofs.Condition.Coupling

/-
  Conditions whose truth is known in advance.

  Where every atom is given a value, a condition tells a truth
  value if it has that value now and in every space that this
  one grows to. It may do so under a premise on the values only,
  and of a connective not every operand has to tell one.

  Main declarations:
    * `Space.Tells`
    * `Condition.ensures_tells_atom`
    * `Condition.ensures_tells_or`
    * `Condition.ensures_tells_and`
    * `Condition.ensures_tells_ite`
-/

namespace Variability

------------------------------------------------------------
-- Telling
------------------------------------------------------------

open InSpace

variable {s s' s₀ : Space}
variable {value : Atom → Bool}
variable {c d : Condition}

/-
  A condition that has a truth value, now and later, where every
  atom has the given value, provided that some premise about
  these values is true.
-/
structure Space.Tells
    (s : Space)
    (value : Atom → Bool)
    (premise : Prop)
    (holds : Bool)
    (c : Condition) : Prop where
  isLive : s.manager.IsLive c
  eval_eq :
    premise → ∀ s', s'.Sound → s.Grows s' → ∀ a,
      Coupling.Assigns s' value a →
        s'.manager.eval c a = holds

namespace Space

variable {premise : Prop}
variable {holds : Bool}

theorem Tells.grows
    (hTells : s.Tells value premise holds c)
    (hGrows : s.Grows s') :
    s'.Tells value premise holds c where
  isLive := hGrows.isLive hTells.isLive
  eval_eq := fun hPremise s'' hSound hGrows' =>
    hTells.eval_eq hPremise s'' hSound (hGrows.trans hGrows')

/- What a condition means tells its truth value. -/
theorem Means.tells
    {p : Space → (Nat → Bool) → Bool}
    (hMeans : s.Means p c)
    (hValue :
      premise → ∀ s', s'.Sound → s.Grows s' → ∀ a,
        Coupling.Assigns s' value a → p s' a = holds) :
    s.Tells value premise holds c where
  isLive := hMeans.isLive
  eval_eq := fun hPremise s' hSound hGrows a ha =>
    (hMeans.eval_eq s' hSound hGrows a).trans
      (hValue hPremise s' hSound hGrows a ha)

theorem tells_one (hSound : s.Sound) :
    s.Tells value premise true .one :=
  ⟨hSound.manager.reduced.isLive_one,
    fun _ s' _ _ a _ => s'.manager.eval_one a⟩

theorem tells_zero (hSound : s.Sound) :
    s.Tells value premise false .zero :=
  ⟨hSound.manager.reduced.isLive_zero,
    fun _ s' _ _ a _ => s'.manager.eval_zero a⟩

/- What holds at all is not the condition that never does. -/
theorem Tells.ne_zero
    (hTells : s.Tells value True true c)
    (hSound : s.Sound) :
    c ≠ .zero := by
  rintro rfl
  have hEval :=
    hTells.eval_eq trivial s hSound (.refl s)
      (Coupling.assignment s value)
      (Coupling.assigns_assignment s value)
  rw [Diagram.Manager.eval_zero] at hEval
  cases hEval

theorem Tells.neg
    (hTells : s.Tells value premise holds c) :
    s.Tells value premise (!holds) (-c) :=
  (means_self hTells.isLive).neg.tells
    fun hPremise s' hSound hGrows a ha => by
      rw [hTells.eval_eq hPremise s' hSound hGrows a ha]

end Space

/- The condition of an atom has the value that the atom is given. -/
theorem Condition.ensures_tells_atom
    (value : Atom → Bool)
    (atom : Atom) :
    Ensures s₀ (Condition.atom atom) fun s c =>
      s.Tells value True (value atom) c := by
  intro s hSound hGrows
  rcases Condition.ensures_atom atom s hSound hGrows with
    ⟨hSound', hGrows', hMeans⟩
  refine ⟨hSound', hGrows', hMeans.tells ?_⟩
  intro _ s' _ hGrows'' a ha
  exact
    ha atom
      (hGrows''.atoms.subset
        (Coupling.mem_atoms_atom s atom))

------------------------------------------------------------
-- Connectives
------------------------------------------------------------

section Connectives

variable {premise premise' premise'' truthful : Prop}
variable {p q r : Bool}
variable {e : Condition}

/- The second of two conditions matters where the first fails. -/
theorem Condition.ensures_tells_or
    (hc : s₀.Tells value premise p c)
    (hd : s₀.Tells value premise' q d)
    (hFirst : truthful → premise)
    (hSecond : p = false → truthful → premise') :
    Ensures s₀ (Condition.or c d) fun s out =>
      s.Tells value truthful (p || q) out := by
  have hOr :=
    Condition.ensures_or (Space.means_self hc.isLive)
      (Space.means_self hd.isLive)
  intro s hSound hGrows
  rcases hOr s hSound hGrows with
    ⟨hSound', hGrows', hMeans⟩
  have hGrowsAll := hGrows.trans hGrows'
  refine ⟨hSound', hGrows', hMeans.tells ?_⟩
  intro hTrue s' hSound'' hGrows'' a ha
  rw [(hc.grows hGrowsAll).eval_eq (hFirst hTrue) s'
    hSound'' hGrows'' a ha]
  cases hp : p with
  | true => rfl
  | false =>
      rw [(hd.grows hGrowsAll).eval_eq (hSecond hp hTrue)
        s' hSound'' hGrows'' a ha]

/- The second of two conditions matters where the first holds. -/
theorem Condition.ensures_tells_and
    (hc : s₀.Tells value premise p c)
    (hd : s₀.Tells value premise' q d)
    (hFirst : truthful → premise)
    (hSecond : p = true → truthful → premise') :
    Ensures s₀ (Condition.and c d) fun s out =>
      s.Tells value truthful (p && q) out := by
  have hAnd :=
    Condition.ensures_and (Space.means_self hc.isLive)
      (Space.means_self hd.isLive)
  intro s hSound hGrows
  rcases hAnd s hSound hGrows with
    ⟨hSound', hGrows', hMeans⟩
  have hGrowsAll := hGrows.trans hGrows'
  refine ⟨hSound', hGrows', hMeans.tells ?_⟩
  intro hTrue s' hSound'' hGrows'' a ha
  rw [(hc.grows hGrowsAll).eval_eq (hFirst hTrue) s'
    hSound'' hGrows'' a ha]
  cases hp : p with
  | false => rfl
  | true =>
      rw [(hd.grows hGrowsAll).eval_eq (hSecond hp hTrue)
        s' hSound'' hGrows'' a ha]

/- Of two alternatives the one that is chosen matters. -/
theorem Condition.ensures_tells_ite
    (hc : s₀.Tells value premise p c)
    (hd : s₀.Tells value premise' q d)
    (he : s₀.Tells value premise'' r e)
    (hTest : truthful → premise)
    (hYes : p = true → truthful → premise')
    (hNo : p = false → truthful → premise'') :
    Ensures s₀ (Condition.ite c d e) fun s out =>
      s.Tells value truthful (if p then q else r) out := by
  have hIte :=
    Condition.ensures_ite (Space.means_self hc.isLive)
      (Space.means_self hd.isLive)
      (Space.means_self he.isLive)
  intro s hSound hGrows
  rcases hIte s hSound hGrows with
    ⟨hSound', hGrows', hMeans⟩
  have hGrowsAll := hGrows.trans hGrows'
  refine ⟨hSound', hGrows', hMeans.tells ?_⟩
  intro hTrue s' hSound'' hGrows'' a ha
  rw [(hc.grows hGrowsAll).eval_eq (hTest hTrue) s' hSound''
    hGrows'' a ha]
  cases hp : p with
  | true =>
      exact
        (hd.grows hGrowsAll).eval_eq (hYes hp hTrue) s'
          hSound'' hGrows'' a ha
  | false =>
      exact
        (he.grows hGrowsAll).eval_eq (hNo hp hTrue) s'
          hSound'' hGrows'' a ha

end Connectives

end Variability
