import Variability.Expression

/-
  Tokens that belong to one argument.

  An argument list is split at its commas, except for those in
  inner parentheses. Some tokens are unsplit when they belong to
  one argument wherever they stand in a list: their parentheses
  match, and their commas are inside. What the tokens of a whole
  list do to the open parentheses is told by the same relation.

  Main declarations:
    * `Expression.Passes`
    * `Expression.IsUnsplit`
    * `Expression.exists_isUnsplit_of_argumentList`
-/

namespace Variability

namespace Expression

------------------------------------------------------------
-- Unsplit Tokens
------------------------------------------------------------

/- Put tokens in front of the first argument. -/
def prepend
    (ts : List Token)
    (out : List (List Token) × List Token) :
    List (List Token) × List Token :=
  (ts.foldr consToken out.1, out.2)

/-
  In an argument list some tokens belong to one argument, and
  they change the number of open parentheses.
-/
def Passes (ts : List Token) (opened left : Nat) : Prop :=
  ∀ depth tail,
    argumentsWithin (opened + depth) (ts ++ tail) =
      (argumentsWithin (left + depth) tail).map (prepend ts)

/- Tokens that belong to one argument wherever they stand. -/
def IsUnsplit (ts : List Token) : Prop :=
  Passes ts 0 0

variable {s ts us rest : List Token}
variable {t : Token}
variable {m n k : Nat}

theorem isUnsplit_nil : IsUnsplit [] := by
  intro depth tail
  have hId : prepend [] = id := rfl
  rw [List.nil_append, hId, Option.map_id]
  rfl

theorem Passes.append
    (hFirst : Passes ts m n)
    (hSecond : Passes us n k) :
    Passes (ts ++ us) m k := by
  intro depth tail
  rw [List.append_assoc, hFirst, hSecond, Option.map_map]
  congr 1
  funext out
  exact congrArg (·, out.2) List.foldr_append.symm

/- More parentheses may be open around the tokens. -/
theorem Passes.add
    (hPasses : Passes ts m n)
    (k : Nat) :
    Passes ts (m + k) (n + k) := by
  intro depth tail
  rw [Nat.add_assoc, Nat.add_assoc]
  exact hPasses (k + depth) tail

/- A parenthesis closes one that was opened inside the list. -/
theorem argumentsWithin_of_close
    (ht : t.is ")" = true)
    (depth : Nat)
    (s : List Token) :
    argumentsWithin (depth + 1) (t :: s) =
      (argumentsWithin depth s).map (prepend [t]) := by
  rw [argumentsWithin.eq_def]
  simp only [ht, if_true]
  rfl

/- Other tokens than those that end an argument belong to it. -/
theorem argumentsWithin_of_inside
    {depth : Nat}
    (hClose : t.is ")" = false)
    (hComma : ¬ (t.is "," = true ∧ depth = 0))
    (s : List Token) :
    argumentsWithin depth (t :: s) =
      (argumentsWithin
        (if t.is "(" then depth + 1 else depth) s).map
        (prepend [t]) := by
  rw [argumentsWithin.eq_def]
  simp only [hClose, hComma, Bool.false_eq_true, if_false]
  rfl

theorem passes_open (ht : t.is "(" = true) :
    Passes [t] 0 1 := by
  have hText : t.text = "(" := beq_iff_eq.mp ht
  have hOther : t.is ")" = false ∧ t.is "," = false := by
    unfold Token.is
    rw [hText]
    decide
  intro depth tail
  rw [List.singleton_append,
    argumentsWithin_of_inside hOther.1 (by simp [hOther.2]),
    if_pos ht, Nat.zero_add, Nat.add_comm]

theorem passes_close (ht : t.is ")" = true) :
    Passes [t] 1 0 := by
  intro depth tail
  rw [List.singleton_append, Nat.add_comm,
    argumentsWithin_of_close ht, Nat.zero_add]

/- Inside parentheses a comma does not end an argument. -/
theorem passes_inside
    (hOpen : t.is "(" = false)
    (hClose : t.is ")" = false) :
    Passes [t] 1 1 := by
  intro depth tail
  rw [List.singleton_append,
    argumentsWithin_of_inside hClose fun h => by omega, hOpen]
  rfl

theorem isUnsplit_singleton
    (ht : t.text ∉ ["(", ")", ","]) :
    IsUnsplit [t] := by
  have hOther
      (text : String)
      (hText : text ∈ ["(", ")", ","]) :
      t.is text = false := by
    apply beq_eq_false_iff_ne.mpr
    rintro rfl
    exact ht hText
  have hOpen := hOther "(" (by decide)
  have hClose := hOther ")" (by decide)
  have hComma := hOther "," (by decide)
  intro depth tail
  rw [List.singleton_append,
    argumentsWithin_of_inside hClose (by simp [hComma]),
    hOpen]
  rfl

theorem IsUnsplit.append
    (hFirst : IsUnsplit ts)
    (hSecond : IsUnsplit us) :
    IsUnsplit (ts ++ us) :=
  Passes.append hFirst hSecond

/- Unsplit tokens in parentheses are unsplit. -/
theorem IsUnsplit.parentheses
    {opening closing : Token}
    (hOpen : opening.is "(" = true)
    (hUnsplit : IsUnsplit ts)
    (hClose : closing.is ")" = true) :
    IsUnsplit (opening :: (ts ++ [closing])) :=
  (passes_open hOpen).append
    ((hUnsplit.add 1).append (passes_close hClose))

------------------------------------------------------------
-- Argument Lists
------------------------------------------------------------

/- The tokens of an argument list close all its parentheses. -/
theorem exists_passes_of_argumentsWithin
    {depth : Nat}
    {out : List (List Token) × List Token}
    (hRead : argumentsWithin depth s = some out) :
    ∃ used, s = used ++ out.2 ∧ Passes used (depth + 1) 0 := by
  induction s generalizing depth out with
  | nil => cases hRead
  | cons t s ih =>
      -- the token changes the depth as it says itself
      have hStep
          {depth' : Nat}
          {f : List (List Token) × List Token →
            List (List Token) × List Token}
          (hMap :
            (argumentsWithin depth' s).map f = some out)
          (hSame : ∀ out, (f out).2 = out.2)
          (hToken : Passes [t] (depth + 1) (depth' + 1)) :
          ∃ used, t :: s = used ++ out.2 ∧
            Passes used (depth + 1) 0 := by
        rcases Option.map_eq_some_iff.mp hMap with
          ⟨out', hRead', rfl⟩
        rcases ih hRead' with ⟨used, hSplit, hPasses⟩
        refine ⟨t :: used, ?_, hToken.append hPasses⟩
        rw [hSame, List.cons_append, ← hSplit]
      by_cases hClose : t.is ")" = true
      · cases depth with
        | zero =>
            rw [argumentsWithin.eq_def] at hRead
            simp only [hClose, if_true] at hRead
            cases hRead
            exact ⟨[t], rfl, passes_close hClose⟩
        | succ depth =>
            rw [argumentsWithin_of_close hClose] at hRead
            refine hStep hRead (fun _ => rfl) ?_
            have hPasses := (passes_close hClose).add (depth + 1)
            rwa [Nat.add_comm, Nat.zero_add] at hPasses
      rw [Bool.not_eq_true] at hClose
      by_cases hComma : t.is "," = true ∧ depth = 0
      · rw [argumentsWithin.eq_def] at hRead
        simp only [hClose, hComma, Bool.false_eq_true, if_false,
          and_self, if_true] at hRead
        refine hStep hRead (fun _ => rfl) ?_
        rw [hComma.2]
        have hText : t.text = "," := beq_iff_eq.mp hComma.1
        apply passes_inside _ hClose
        unfold Token.is
        rw [hText]
        decide
      rw [argumentsWithin_of_inside hClose hComma] at hRead
      refine hStep hRead (fun _ => rfl) ?_
      by_cases hOpen : t.is "(" = true
      · rw [if_pos hOpen]
        have hPasses := (passes_open hOpen).add (depth + 1)
        rwa [Nat.zero_add, Nat.add_comm 1] at hPasses
      · rw [if_neg hOpen]
        rw [Bool.not_eq_true] at hOpen
        have hPasses := (passes_inside hOpen hClose).add depth
        rwa [Nat.add_comm] at hPasses

/- Where an argument list ends does not depend on what follows. -/
theorem argumentsWithin_append
    {depth : Nat}
    {out : List (List Token) × List Token}
    (hRead : argumentsWithin depth s = some out)
    (tail : List Token) :
    argumentsWithin depth (s ++ tail) =
      some (out.1, out.2 ++ tail) := by
  induction s generalizing depth out with
  | nil => cases hRead
  | cons t s ih =>
      have hStep
          {depth' : Nat}
          {f : List (List Token) → List (List Token)}
          (hMap :
            (argumentsWithin depth' s).map
              (fun x => (f x.1, x.2)) = some out) :
          (argumentsWithin depth' (s ++ tail)).map
              (fun x => (f x.1, x.2)) =
            some (out.1, out.2 ++ tail) := by
        rcases Option.map_eq_some_iff.mp hMap with
          ⟨out', hRead', rfl⟩
        rw [ih hRead']
        rfl
      rw [argumentsWithin.eq_def] at hRead
      rw [List.cons_append, argumentsWithin.eq_def]
      dsimp only at hRead ⊢
      by_cases hClose : t.is ")" = true
      · rw [if_pos hClose] at hRead ⊢
        cases depth with
        | zero =>
            cases hRead
            rfl
        | succ depth => exact hStep hRead
      rw [if_neg hClose] at hRead ⊢
      by_cases hComma : t.is "," = true ∧ depth = 0
      · rw [if_pos hComma] at hRead ⊢
        exact hStep hRead
      · rw [if_neg hComma] at hRead ⊢
        exact hStep hRead

/- The tokens of an argument list are unsplit. -/
theorem exists_isUnsplit_of_argumentList
    {out : List (List Token) × List Token}
    (hRead : argumentList s = some out) :
    (∃ used, s = used ++ out.2 ∧ IsUnsplit used) ∧
      ∀ tail,
        argumentList (s ++ tail) =
          some (out.1, out.2 ++ tail) := by
  cases s with
  | nil => cases hRead
  | cons t s =>
      rw [argumentList] at hRead
      by_cases hOpen : t.is "(" = true
      · rw [if_pos hOpen] at hRead
        rcases Option.map_eq_some_iff.mp hRead with
          ⟨out', hRead', rfl⟩
        rcases exists_passes_of_argumentsWithin hRead' with
          ⟨used, hSplit, hPasses⟩
        constructor
        · exact
            ⟨t :: used, congrArg (t :: ·) hSplit,
              (passes_open hOpen).append hPasses⟩
        · intro tail
          rw [List.cons_append, argumentList, if_pos hOpen,
            argumentsWithin_append hRead' tail]
          rfl
      · rw [if_neg hOpen] at hRead
        cases hRead

end Expression

end Variability
