import Variability.Proofs.Diagram.IfThenElse

/-
  The connectives compute what their names say.

  Every operation on a sound manager gives a sound manager that
  keeps all live handles, and a live handle of a function that
  can be told from those of its arguments.

  Main declarations:
    * `Manager.Makes`
    * `Manager.Sound.makes_and`, `Manager.Sound.makes_or`
    * `Manager.Sound.makes_andMany`, `Manager.Sound.makes_orMany`
    * `Manager.Sound.implies_iff`
-/

namespace Variability

namespace Diagram

namespace Manager

variable {m m' : Manager}
variable {f g h r : Handle}
variable {fs : List Handle}

------------------------------------------------------------
-- Functions Made by Operations
------------------------------------------------------------

/-
  A handle of a function of the assignments, in a sound manager
  that keeps what was live in another one.
-/
structure Makes
    (m : Manager)
    (value : (Nat → Bool) → Bool)
    (out : Handle × Manager) : Prop where
  sound : out.2.Sound
  keeps : m.Extends out.2
  isLive : out.2.IsLive out.1
  eval_eq : ∀ a, out.2.eval out.1 a = value a

namespace Sound

theorem makes_one
    (hSound : m.Sound) :
    m.Makes (fun _ => true) (.one, m) :=
  ⟨hSound, Extends.refl m, hSound.reduced.isLive_one,
    m.eval_one⟩

theorem makes_zero
    (hSound : m.Sound) :
    m.Makes (fun _ => false) (.zero, m) :=
  ⟨hSound, Extends.refl m, hSound.reduced.isLive_zero,
    m.eval_zero⟩

theorem makes_neg
    (hSound : m.Sound)
    (hLive : m.IsLive r) :
    m.Makes (fun a => !m.eval r a) (-r, m) :=
  ⟨hSound, Extends.refl m, (m.isLive_neg r).mpr hLive,
    fun _ => hSound.reduced.eval_neg hLive⟩

theorem makes_mkNode
    (hSound : m.Sound)
    {v : Nat}
    (hv : 0 < v)
    (hf : m.IsLive f)
    (hg : m.IsLive g)
    (hAboveLow : m.IsAbove v f)
    (hAboveHigh : m.IsAbove v g) :
    m.Makes
      (fun a => if a v then m.eval g a else m.eval f a)
      (m.mkNode v f g) := by
  have hMade :=
    hSound.reduced.mkNode hv hf hg hAboveLow hAboveHigh
  exact
    ⟨hSound.mkNode hv hf hg hAboveLow hAboveHigh,
      hMade.keeps, hMade.isLive, hMade.eval_eq⟩

theorem makes_mkVar
    (hSound : m.Sound)
    {v : Nat}
    (hv : 0 < v) :
    m.Makes (fun a => a v) (m.mkVar v) := by
  have hMade :=
    hSound.makes_mkNode hv
      hSound.reduced.isLive_zero hSound.reduced.isLive_one
      (Or.inl Handle.isTerminal_zero)
      (Or.inl Handle.isTerminal_one)
  refine ⟨hMade.sound, hMade.keeps, hMade.isLive, ?_⟩
  intro a
  rw [mkVar, hMade.eval_eq]
  cases a v <;> simp

theorem makes_ite
    (hSound : m.Sound)
    (hf : m.IsLive f)
    (hg : m.IsLive g)
    (hh : m.IsLive h) :
    m.Makes
      (fun a =>
        if m.eval f a then m.eval g a else m.eval h a)
      (m.ite f g h) := by
  have hAnswers := hSound.ite hf hg hh
  refine
    ⟨hAnswers.sound, hAnswers.keeps,
      hAnswers.solves.isLive, ?_⟩
  intro a
  rw [hAnswers.solves.eval_eq,
    hAnswers.keeps.triple_eval_eq hSound.reduced
      hAnswers.sound.reduced ⟨hf, hg, hh⟩]
  rfl

theorem makes_and
    (hSound : m.Sound)
    (hf : m.IsLive f)
    (hg : m.IsLive g) :
    m.Makes (fun a => m.eval f a && m.eval g a)
      (m.and f g) := by
  have hMade :=
    hSound.makes_ite hf hg hSound.reduced.isLive_zero
  refine ⟨hMade.sound, hMade.keeps, hMade.isLive, ?_⟩
  intro a
  rw [Manager.and, hMade.eval_eq]
  cases m.eval f a <;> simp

theorem makes_or
    (hSound : m.Sound)
    (hf : m.IsLive f)
    (hg : m.IsLive g) :
    m.Makes (fun a => m.eval f a || m.eval g a)
      (m.or f g) := by
  have hMade :=
    hSound.makes_ite hf hSound.reduced.isLive_one hg
  refine ⟨hMade.sound, hMade.keeps, hMade.isLive, ?_⟩
  intro a
  rw [Manager.or, hMade.eval_eq]
  cases m.eval f a <;> simp

end Sound

------------------------------------------------------------
-- Connectives of Lists
------------------------------------------------------------

/- What is made of live handles can be made of what was made. -/
theorem Makes.trans
    {value value' : (Nat → Bool) → Bool}
    {out out' : Handle × Manager}
    (hFirst : m.Makes value out)
    (hSecond : out.2.Makes value' out') :
    m.Makes value' out' :=
  ⟨hSecond.sound, hFirst.keeps.trans hSecond.keeps,
    hSecond.isLive, hSecond.eval_eq⟩

theorem Makes.congr
    {value value' : (Nat → Bool) → Bool}
    {out : Handle × Manager}
    (hMade : m.Makes value out)
    (hValue : ∀ a, value a = value' a) :
    m.Makes value' out :=
  ⟨hMade.sound, hMade.keeps, hMade.isLive,
    fun a => (hMade.eval_eq a).trans (hValue a)⟩

/-
  Folding a connective over live handles folds its meaning over
  their values, because the handles that are still to come keep
  their values while the others are connected.
-/
theorem Makes.foldl
    {connect : Manager → Handle → Handle → Handle × Manager}
    {meaning : Bool → Bool → Bool}
    (hConnect :
      ∀ {m : Manager} {f g : Handle}, m.Sound →
        m.IsLive f → m.IsLive g →
        m.Makes (fun a => meaning (m.eval f a) (m.eval g a))
          (connect m f g))
    {value : (Nat → Bool) → Bool}
    {out : Handle × Manager}
    (hReduced : m.Reduced)
    (hOut : m.Makes value out)
    (hLive : ∀ f ∈ fs, m.IsLive f) :
    m.Makes
      (fun a =>
        fs.foldl (fun x f => meaning x (m.eval f a))
          (value a))
      (fs.foldl (fun (r, m) f => connect m r f) out) := by
  induction fs generalizing value out with
  | nil => exact hOut
  | cons f fs ih =>
      have hf := hLive f List.mem_cons_self
      have hStep :=
        hConnect hOut.sound hOut.isLive
          (hOut.keeps.isLive hf)
      have hNext :
          m.Makes (fun a => meaning (value a) (m.eval f a))
            (connect out.2 out.1 f) := by
        apply (hOut.trans hStep).congr
        intro a
        rw [hOut.eval_eq,
          hOut.keeps.eval_eq hReduced hOut.sound.reduced hf]
      exact
        ih hNext fun g hg =>
          hLive g (List.mem_cons_of_mem f hg)

theorem foldl_and_eq_all
    {α : Type}
    (xs : List α)
    (p : α → Bool)
    (x : Bool) :
    xs.foldl (fun x y => x && p y) x = (x && xs.all p) := by
  induction xs generalizing x with
  | nil => simp
  | cons y ys ih => simp [ih, Bool.and_assoc]

theorem foldl_or_eq_any
    {α : Type}
    (xs : List α)
    (p : α → Bool)
    (x : Bool) :
    xs.foldl (fun x y => x || p y) x = (x || xs.any p) := by
  induction xs generalizing x with
  | nil => simp
  | cons y ys ih => simp [ih, Bool.or_assoc]

namespace Sound

theorem makes_andMany
    (hSound : m.Sound)
    (hLive : ∀ f ∈ fs, m.IsLive f) :
    m.Makes (fun a => fs.all (m.eval · a))
      (m.andMany fs) := by
  have hFold :=
    Makes.foldl (fun hSound hf hg => hSound.makes_and hf hg)
      hSound.reduced hSound.makes_one hLive
  apply hFold.congr
  intro a
  simp [foldl_and_eq_all]

theorem makes_orMany
    (hSound : m.Sound)
    (hLive : ∀ f ∈ fs, m.IsLive f) :
    m.Makes (fun a => fs.any (m.eval · a))
      (m.orMany fs) := by
  have hFold :=
    Makes.foldl (fun hSound hf hg => hSound.makes_or hf hg)
      hSound.reduced hSound.makes_zero hLive
  apply hFold.congr
  intro a
  simp [foldl_or_eq_any]

------------------------------------------------------------
-- Implication
------------------------------------------------------------

/- A handle is a constant exactly if its function is. -/
theorem eq_zero_iff
    (hSound : m.Sound)
    (hLive : m.IsLive r) :
    r = .zero ↔ ∀ a, m.eval r a = false := by
  constructor
  · rintro rfl a
    exact m.eval_zero a
  · intro hFalse
    apply
      hSound.reduced.eq_of_eval_eq hLive
        hSound.reduced.isLive_zero
    intro a
    rw [hFalse, eval_zero]

/- Implication of handles is implication of their values. -/
theorem implies_iff
    (hSound : m.Sound)
    (hf : m.IsLive f)
    (hg : m.IsLive g) :
    (m.implies f g).1 = true ↔
      ∀ a, m.eval f a = true → m.eval g a = true := by
  have hMade :=
    hSound.makes_and hf ((m.isLive_neg g).mpr hg)
  have hValue (a : Nat → Bool) :
      (m.and f (-g)).2.eval (m.and f (-g)).1 a =
        (m.eval f a && !m.eval g a) := by
    rw [hMade.eval_eq, hSound.reduced.eval_neg hg]
  change ((m.and f (-g)).1 == .zero) = true ↔ _
  rw [beq_iff_eq, hMade.sound.eq_zero_iff hMade.isLive]
  apply forall_congr'
  intro a
  rw [hValue]
  cases m.eval f a <;> simp

end Sound

end Manager

end Diagram

end Variability
