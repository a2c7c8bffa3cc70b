import Variability.Proofs.Diagram.Garbage

/-
  Runs of decision diagrams.

  A run begins with a new manager, constructs handles from live
  ones and collects garbage in any order. Every manager of a run
  is sound: its handles are canonical, and whatever was computed
  before, if-then-else computes the right function.

  Main declarations:
    * `Construction`
    * `Manager.Reached`
    * `Manager.Reached.sound`
    * `Manager.Reached.eq_iff_eval_eq`
    * `Manager.Reached.ite_denotes`
-/

namespace Variability

namespace Diagram

------------------------------------------------------------
-- Constructions
------------------------------------------------------------

/- The operations that give a handle. -/
inductive Construction where
  | var (v : Nat)
  | node (v : Nat) (low high : Handle)
  | ite (f g h : Handle)
  | and (f g : Handle)
  | or (f g : Handle)
  | not (f : Handle)
  | andMany (fs : List Handle)
  | orMany (fs : List Handle)

namespace Construction

/-
  The arguments are live, variables are positive, and a variable
  of a node is above its children.
-/
def Allowed (m : Manager) : Construction → Prop
  | .var v => 0 < v
  | .node v low high =>
      0 < v ∧ (m.IsLive low ∧ m.IsLive high) ∧
        m.IsAbove v low ∧ m.IsAbove v high
  | .ite f g h => m.IsLive f ∧ m.IsLive g ∧ m.IsLive h
  | .and f g => m.IsLive f ∧ m.IsLive g
  | .or f g => m.IsLive f ∧ m.IsLive g
  | .not f => m.IsLive f
  | .andMany fs => ∀ f ∈ fs, m.IsLive f
  | .orMany fs => ∀ f ∈ fs, m.IsLive f

instance (m : Manager) (c : Construction) :
    Decidable (c.Allowed m) := by
  cases c <;> unfold Allowed <;> infer_instance

def run (m : Manager) : Construction → Handle × Manager
  | .var v => m.mkVar v
  | .node v low high => m.mkNode v low high
  | .ite f g h => m.ite f g h
  | .and f g => m.and f g
  | .or f g => m.or f g
  | .not f => (-f, m)
  | .andMany fs => m.andMany fs
  | .orMany fs => m.orMany fs

/- The function that is constructed. -/
def value (m : Manager) (a : Nat → Bool) : Construction → Bool
  | .var v => a v
  | .node v low high =>
      if a v then m.eval high a else m.eval low a
  | .ite f g h =>
      if m.eval f a then m.eval g a else m.eval h a
  | .and f g => m.eval f a && m.eval g a
  | .or f g => m.eval f a || m.eval g a
  | .not f => !m.eval f a
  | .andMany fs => fs.all (m.eval · a)
  | .orMany fs => fs.any (m.eval · a)

end Construction

namespace Manager

variable {m : Manager}
variable {f g h r s : Handle}

/- Every construction makes its function. -/
theorem Sound.makes_construction
    (hSound : m.Sound)
    (c : Construction)
    (hAllowed : c.Allowed m) :
    m.Makes (c.value m ·) (c.run m) := by
  cases c with
  | var v => exact hSound.makes_mkVar hAllowed
  | node v low high =>
      rcases hAllowed with
        ⟨hv, ⟨hLow, hHigh⟩, hAboveLow, hAboveHigh⟩
      exact
        hSound.makes_mkNode hv hLow hHigh hAboveLow
          hAboveHigh
  | ite f g h =>
      rcases hAllowed with ⟨hf, hg, hh⟩
      exact hSound.makes_ite hf hg hh
  | and f g => exact hSound.makes_and hAllowed.1 hAllowed.2
  | or f g => exact hSound.makes_or hAllowed.1 hAllowed.2
  | not f => exact hSound.makes_neg hAllowed
  | andMany fs => exact hSound.makes_andMany hAllowed
  | orMany fs => exact hSound.makes_orMany hAllowed

------------------------------------------------------------
-- Reached Managers
------------------------------------------------------------

/- The managers of all runs. -/
inductive Reached : Manager → Prop where
  | create {bits : Nat} {m : Manager}
      (hCreate : Manager.create? bits = some m) :
      Reached m
  | construct {m : Manager}
      (hReached : Reached m)
      (c : Construction)
      (hAllowed : c.Allowed m) :
      Reached (c.run m).2
  | collect {m : Manager}
      (hReached : Reached m)
      (roots : List Handle)
      (hRoots : ∀ r ∈ roots, m.IsLive r) :
      Reached (m.collectGarbage roots)

/- A manager is created empty. -/
theorem eq_empty_of_create?
    {bits : Nat}
    (hCreate : Manager.create? bits = some m) :
    m = Manager.empty bits := by
  unfold Manager.create? at hCreate
  split at hCreate
  · exact (Option.some.inj hCreate).symm
  · cases hCreate

/- A run may begin with a manager whose size was not chosen. -/
theorem reached_default : (default : Manager).Reached := by
  have hBits : defaultBits ≤ maxBits := by decide
  have hCreate :
      Manager.create? defaultBits = some default := by
    unfold create?
    rw [if_pos hBits]
    rfl
  exact .create hCreate

/- Every step of a run keeps the manager sound. -/
theorem Reached.sound
    (hReached : m.Reached) :
    m.Sound := by
  induction hReached with
  | @create bits m hCreate =>
      rw [eq_empty_of_create? hCreate]
      exact Sound.empty bits
  | construct _ c hAllowed ih =>
      exact (ih.makes_construction c hAllowed).sound
  | collect _ roots hRoots ih =>
      exact (ih.collectGarbage hRoots).sound

/-
  Constructed handles are live and live handles stay live, up to
  a collection, which keeps what its roots reach.
-/
structure Lasting (m : Manager) : Prop where
  constructed :
    ∀ c : Construction, c.Allowed m →
      (c.run m).2.IsLive (c.run m).1 ∧
        ∀ r, m.IsLive r → (c.run m).2.IsLive r
  collected :
    ∀ roots, (∀ r ∈ roots, m.IsLive r) →
      ∀ r, (m.collectGarbage roots).IsLive r ↔
        m.IsLive r ∧ m.IsRooted roots r

theorem Sound.lasting
    (hSound : m.Sound) :
    m.Lasting where
  constructed := fun c hAllowed => by
    have hMade := hSound.makes_construction c hAllowed
    exact ⟨hMade.isLive, fun _ => hMade.keeps.isLive⟩
  collected := fun _ hRoots =>
    (hSound.collectGarbage hRoots).isLive_iff

/-
  Canonicity: in every manager of a run all nodes are canonical
  and unshared by value, so a function has one live handle.
-/
theorem Reached.eq_iff_eval_eq
    (hReached : m.Reached) :
    m.Lasting ∧
      (∀ i, m.IsNode i →
        m.IsCanonical (m.nodes.value i)) ∧
      (∀ i j, m.IsNode i → m.IsNode j →
        m.nodes.value i = m.nodes.value j → i = j) ∧
      ∀ r s, m.IsLive r → m.IsLive s →
        (r = s ↔ ∀ a, m.eval r a = m.eval s a) := by
  have hSound := hReached.sound
  have hReduced := hSound.reduced
  refine
    ⟨hSound.lasting, hReduced.isCanonical, ?_, ?_⟩
  · intro i j hi hj hValue
    exact hReduced.eq_of_value_eq hi hj hValue
  · intro r s hr hs
    constructor
    · rintro rfl a
      rfl
    · exact hReduced.eq_of_eval_eq hr hs

/- A short run: two variables, negated, and their disjunction. -/
def shortRun : Manager :=
  (((((Manager.empty 2).mkVar 1).2.mkVar 2).2).or ⟨-2⟩ ⟨-3⟩).2

theorem reached_shortRun : shortRun.Reached := by
  have hCreate : (Manager.empty 2).Reached :=
    .create (rfl : Manager.create? 2 = some _)
  have hFirst :=
    hCreate.construct (.var 1) (by decide)
  have hSecond :=
    hFirst.construct (.var 2) (by decide)
  exact
    hSecond.construct (.or ⟨-2⟩ ⟨-3⟩) (by decide +kernel)

theorem eq_iff_eval_eq_shortRun :
    (shortRun.collectGarbage [⟨4⟩]).Reached ∧
      ∀ r s,
        (shortRun.collectGarbage [⟨4⟩]).IsLive r →
          (shortRun.collectGarbage [⟨4⟩]).IsLive s →
            (r = s ↔
              ∀ a,
                (shortRun.collectGarbage [⟨4⟩]).eval r a =
                  (shortRun.collectGarbage [⟨4⟩]).eval
                    s a) := by
  have hReached :
      (shortRun.collectGarbage [⟨4⟩]).Reached :=
    reached_shortRun.collect [⟨4⟩] (by decide +kernel)
  exact
    ⟨hReached,
      (Reached.eq_iff_eval_eq hReached).2.2.2⟩

------------------------------------------------------------
-- If-Then-Else in Runs
------------------------------------------------------------

/-
  A live handle of a function, in a manager where every handle
  that was live in another one has the function it had there.
-/
structure Denotes
    (m : Manager)
    (value : (Nat → Bool) → Bool)
    (out : Handle × Manager) : Prop where
  isLive : out.2.IsLive out.1
  eval_eq : ∀ a, out.2.eval out.1 a = value a
  unchanged :
    ∀ r, m.IsLive r →
      out.2.IsLive r ∧
        ∀ a, out.2.eval r a = m.eval r a

theorem Makes.denotes
    {value : (Nat → Bool) → Bool}
    {out : Handle × Manager}
    (hMade : m.Makes value out)
    (hReduced : m.Reduced) :
    m.Denotes value out where
  isLive := hMade.isLive
  eval_eq := hMade.eval_eq
  unchanged := fun _ hLive =>
    ⟨hMade.keeps.isLive hLive,
      fun _ =>
        hMade.keeps.eval_eq hReduced hMade.sound.reduced
          hLive⟩

/-
  If-then-else ends with the function it names, whatever was
  computed before; so do conjunction, disjunction and
  implication, which are instances of it.
-/
theorem Reached.ite_denotes
    (hReached : m.Reached)
    (hf : m.IsLive f)
    (hg : m.IsLive g)
    (hh : m.IsLive h) :
    (∀ r m', Computes ⟨f, g, h⟩ m r m' ↔
        (r, m') = m.ite f g h) ∧
      m.Denotes
        (fun a =>
          if m.eval f a then m.eval g a else m.eval h a)
        (m.ite f g h) ∧
      m.Denotes (fun a => m.eval f a && m.eval g a)
        (m.and f g) ∧
      m.Denotes (fun a => m.eval f a || m.eval g a)
        (m.or f g) ∧
      ((m.implies f g).1 = true ↔
        ∀ a, m.eval f a = true → m.eval g a = true) ∧
      ∀ r, m.IsLive r →
        (m.implies f g).2.IsLive r ∧
          ∀ a, (m.implies f g).2.eval r a = m.eval r a := by
  have hSound := hReached.sound
  have hReduced := hSound.reduced
  have hComputes := (hSound.ite hf hg hh).computes
  have hgNeg := (m.isLive_neg g).mpr hg
  refine
    ⟨?_, (hSound.makes_ite hf hg hh).denotes hReduced,
      (hSound.makes_and hf hg).denotes hReduced,
      (hSound.makes_or hf hg).denotes hReduced,
      hSound.implies_iff hf hg,
      ((hSound.makes_and hf hgNeg).denotes
        hReduced).unchanged⟩
  intro r m'
  constructor
  · intro hOther
    rcases hOther.unique hComputes with ⟨rfl, rfl⟩
    rfl
  · intro hEq
    rw [← hEq] at hComputes
    exact hComputes

theorem ite_denotes_shortRun :
    shortRun.IsLive ⟨2⟩ ∧ shortRun.IsLive ⟨4⟩ ∧
      shortRun.IsLive ⟨-3⟩ ∧
      shortRun.Denotes
        (fun a =>
          if shortRun.eval ⟨2⟩ a then shortRun.eval ⟨4⟩ a
          else shortRun.eval ⟨-3⟩ a)
        (shortRun.ite ⟨2⟩ ⟨4⟩ ⟨-3⟩) := by
  have hf : shortRun.IsLive ⟨2⟩ := by decide +kernel
  have hg : shortRun.IsLive ⟨4⟩ := by decide +kernel
  have hh : shortRun.IsLive ⟨-3⟩ := by decide +kernel
  exact
    ⟨hf, hg, hh,
      (Reached.ite_denotes reached_shortRun
        hf hg hh).2.1⟩

end Manager

end Diagram

end Variability
