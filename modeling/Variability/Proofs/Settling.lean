/-
  Computations that need fuel.

  A machine that may call itself without a bound is a family of
  computations, one for every amount of fuel, and none of them
  has an answer where the fuel is used up. It settles if enough
  fuel always gives the answer of a computation that needs none,
  and any more of it the same one. Besides its answer the machine
  takes notes, of which each has to be in order.

  Main declarations:
    * `Settles`
    * `Settles.bind`
    * `Settles.succ`
    * `Settles.within`
-/

namespace Variability

variable {σ τ ε α β : Type}

/-
  With enough fuel the machine does to its state what `g` does,
  and adds to its notes some that are `ok`. Its configurations
  are given by `place`, from the state and the notes.
-/
def Settles
    (place : σ → List ε → τ)
    (ok : ε → Prop)
    (f : Nat → StateT τ Option α)
    (g : StateM σ α) : Prop :=
  ∀ st notes, ∃ least more,
    (∀ n ∈ more, ok n) ∧
      ∀ fuel, least ≤ fuel →
        f fuel (place st notes) =
          some ((g st).1, place (g st).2 (notes ++ more))

namespace Settles

variable {place : σ → List ε → τ}
variable {ok : ε → Prop}
variable {f f' : Nat → StateT τ Option α}
variable {g : StateM σ α}

/- A computation that calls nothing again needs no fuel. -/
theorem ofStep
    (hStep :
      ∀ fuel st notes,
        f fuel (place st notes) =
          some ((g st).1, place (g st).2 notes)) :
    Settles place ok f g := by
  intro st notes
  refine ⟨0, [], by simp, fun fuel _ => ?_⟩
  rw [List.append_nil]
  exact hStep fuel st notes

theorem pure (a : α) :
    Settles place ok (fun _ => Pure.pure a) (Pure.pure a) :=
  ofStep fun _ _ _ => rfl

/- What is done next needs to settle for what was done so far. -/
theorem bind
    {f' : Nat → α → StateT τ Option β}
    {g' : α → StateM σ β}
    (hFirst : Settles place ok f g)
    (hNext :
      ∀ st,
        Settles place ok (fun fuel => f' fuel (g st).1)
          (g' (g st).1)) :
    Settles place ok (fun fuel => f fuel >>= f' fuel)
      (g >>= g') := by
  intro st notes
  rcases hFirst st notes with ⟨least, more, hMore, hRun⟩
  rcases hNext st (g st).2 (notes ++ more) with
    ⟨least', more', hMore', hRun'⟩
  refine
    ⟨max least least', more ++ more', ?_, fun fuel hFuel => ?_⟩
  · intro n hMem
    exact (List.mem_append.mp hMem).elim (hMore n) (hMore' n)
  · have hHere := hRun fuel (by omega)
    have hThen := hRun' fuel (by omega)
    rw [List.append_assoc] at hThen
    calc
      (f fuel >>= f' fuel) (place st notes) =
          (f fuel (place st notes)).bind fun out =>
            f' fuel out.1 out.2 := rfl
      _ = f' fuel (g st).1 (place (g st).2 (notes ++ more)) := by
        rw [hHere, Option.bind_some]
      _ = _ := hThen

theorem map
    (h : α → β)
    (hFirst : Settles place ok f g) :
    Settles place ok (fun fuel => h <$> f fuel) (h <$> g) := by
  have hMapped :
      Settles place ok
        (fun fuel => f fuel >>= fun a => Pure.pure (h a))
        (g >>= fun a => Pure.pure (h a)) :=
    hFirst.bind fun _ => .pure _
  exact hMapped

/- Only what happens in these configurations counts. -/
theorem congr
    (hSettles : Settles place ok f g)
    (hSame :
      ∀ fuel st notes,
        f' fuel (place st notes) = f fuel (place st notes)) :
    Settles place ok f' g := by
  intro st notes
  rcases hSettles st notes with ⟨least, more, hMore, hRun⟩
  refine ⟨least, more, hMore, fun fuel hFuel => ?_⟩
  rw [hSame]
  exact hRun fuel hFuel

/- A call that hands on less fuel settles if what it calls does. -/
theorem succ
    (hDeeper : Settles place ok f g)
    (hStep :
      ∀ fuel st notes,
        f' (fuel + 1) (place st notes) =
          f fuel (place st notes)) :
    Settles place ok f' g := by
  intro st notes
  rcases hDeeper st notes with ⟨least, more, hMore, hRun⟩
  refine ⟨least + 1, more, hMore, fun fuel hFuel => ?_⟩
  obtain ⟨fuel, rfl⟩ : ∃ n, fuel = n + 1 :=
    ⟨fuel - 1, by omega⟩
  rw [hStep]
  exact hRun fuel (by omega)

/-
  A call in other configurations settles if what it calls does
  there, and on the way back takes a note that is in order.
-/
theorem within
    {place' : σ → List ε → τ}
    {n : ε}
    (back : α × τ → Option (α × τ))
    (hInside : Settles place' ok f g)
    (hNote : ok n)
    (hStep :
      ∀ fuel st notes,
        f' fuel (place st notes) =
          (f fuel (place' st notes)).bind back)
    (hBack :
      ∀ a st notes,
        back (a, place' st notes) =
          some (a, place st (notes ++ [n]))) :
    Settles place ok f' g := by
  intro st notes
  rcases hInside st notes with ⟨least, more, hMore, hRun⟩
  refine ⟨least, more ++ [n], ?_, fun fuel hFuel => ?_⟩
  · intro n' hMem
    rcases List.mem_append.mp hMem with hMem | hMem
    · exact hMore n' hMem
    · rwa [List.mem_singleton.mp hMem]
  · rw [hStep, hRun fuel hFuel, Option.bind_some, hBack,
      List.append_assoc]

/- Nothing more is done where there is no value. -/
theorem bindValue
    {f : Nat → OptionT (StateT τ Option) α}
    {g : OptionT (StateM σ) α}
    {f' : Nat → α → OptionT (StateT τ Option) β}
    {g' : α → OptionT (StateM σ) β}
    (hFirst : Settles place ok (fun fuel => (f fuel).run) g.run)
    (hNext :
      ∀ a, Settles place ok (fun fuel => (f' fuel a).run)
        (g' a).run) :
    Settles place ok (fun fuel => (f fuel >>= f' fuel).run)
      (g >>= g').run := by
  simp only [OptionT.run_bind, Option.elimM]
  apply hFirst.bind
  intro st
  cases (g.run st).1 with
  | some a => exact hNext a
  | none => exact .pure none

theorem mapValue
    {f : Nat → OptionT (StateT τ Option) α}
    {g : OptionT (StateM σ) α}
    (h : α → β)
    (hFirst :
      Settles place ok (fun fuel => (f fuel).run) g.run) :
    Settles place ok (fun fuel => (h <$> f fuel).run)
      (h <$> g).run :=
  hFirst.bindValue fun a => .pure (some (h a))

theorem lift (hFirst : Settles place ok f g) :
    Settles place ok
      (fun fuel =>
        (liftM (f fuel) : OptionT (StateT τ Option) α).run)
      (liftM g : OptionT (StateM σ) α).run :=
  hFirst.map some

end Settles

end Variability
