import Variability.Proofs.Condition.Expansion
import Variability.Proofs.Expression.Constants
import Variability.Proofs.Expression.Inlining

/-
  Conditions with a macro replaced by its body.

  Two conditions that test no verbatim atoms are the same handle
  if they agree wherever these atoms are false. So a condition
  stays the same handle when a macro is replaced by its body as
  an operand. It does not stay the same when the tokens of the
  body are put in without parentheses.

  Main declarations:
    * `World.plain`
    * `Evaluator.condition_eq_of_spliced`
    * `condition_ne_of_bare_body`
-/

namespace Variability

variable {s : Space}
variable {c : Condition}
variable {table : Definitions}

------------------------------------------------------------
-- Worlds without Verbatim Atoms
------------------------------------------------------------

/- An assignment with all verbatim atoms set to false. -/
def Space.withoutVerbatim
    (s : Space)
    (a : Nat → Bool)
    (v : Nat) :
    Bool :=
  match s.atomOf? v with
  | some (.verbatim _) => false
  | _ => a v

/- The world of an assignment in which verbatim atoms are false. -/
def World.plain (s : Space) (a : Nat → Bool) : World where
  holds c := s.manager.eval c (s.withoutVerbatim a)
  value
    | .defined name => s.atomValue a (.defined name)
    | .verbatim _ => false

theorem World.realizes_plain
    (table : Definitions)
    (s : Space)
    (a : Nat → Bool) :
    (World.plain s a).Realizes table s
      (s.withoutVerbatim a) where
  assigns := by
    intro atom hAtom
    have hVariable := Coupling.atomOf?_idxOf hAtom
    unfold Space.atomValue Space.withoutVerbatim
    rw [hVariable]
    cases atom <;> rfl
  eval_eq := fun _ _ _ => rfl

/- A condition about macros does not see verbatim atoms. -/
theorem Space.IsAboutMacros.eval_withoutVerbatim
    (hMacros : s.IsAboutMacros c)
    (hReduced : s.manager.Reduced)
    (hLive : s.manager.IsLive c)
    (a : Nat → Bool) :
    s.manager.eval c (s.withoutVerbatim a) =
      s.manager.eval c a := by
  apply hReduced.eval_congr hLive
  intro v hTests
  rcases hMacros v hTests with ⟨name, hAtom⟩
  unfold Space.withoutVerbatim
  rw [hAtom]

------------------------------------------------------------
-- Conditions
------------------------------------------------------------

namespace Evaluator

variable {e : Evaluator}
variable {name : String}
variable {body tokens tokens' : List Token}

/-
  The condition of some tokens, and that of the tokens in which
  a macro is replaced by its body as an operand, are one handle
  if both are about macros only. It does not matter which of the
  two is built first.
-/
theorem condition_eq_of_spliced
    {s₁ s₂ s₃ : Space}
    (hInlines : e.Inlines name body)
    (hSpliced :
      (e.inlining name body).Spliced false tokens tokens')
    (hSound₁ : s₁.Sound)
    (hSound₂ : s₂.Sound)
    (hSound₃ : s₃.Sound)
    (hTable₁ : Definitions.IsLive s₁ e.definitions)
    (hTable₂ : Definitions.IsLive s₂ e.definitions)
    (hGrows₁ : (e.condition tokens s₁).2.Grows s₃)
    (hGrows₂ : (e.condition tokens' s₂).2.Grows s₃)
    (hMacros₁ : s₃.IsAboutMacros (e.condition tokens s₁).1)
    (hMacros₂ : s₃.IsAboutMacros (e.condition tokens' s₂).1) :
    (e.condition tokens s₁).1 = (e.condition tokens' s₂).1 := by
  have hSays₁ (W : World) :=
    (ensures_condition_in hTable₁ W tokens s₁ hSound₁
      (.refl s₁)).2.2
  have hSays₂ (W : World) :=
    (ensures_condition_in hTable₂ W tokens' s₂ hSound₂
      (.refl s₂)).2.2
  have hReduced := hSound₃.manager.reduced
  have hLive₁ :=
    hGrows₁.isLive (hSays₁ (.plain s₃ fun _ => false)).isLive
  have hLive₂ :=
    hGrows₂.isLive (hSays₂ (.plain s₃ fun _ => false)).isLive
  apply hReduced.eq_of_eval_eq hLive₁ hLive₂
  intro a
  have hRealizes := World.realizes_plain e.definitions s₃ a
  calc
    s₃.manager.eval (e.condition tokens s₁).1 a
      = s₃.manager.eval (e.condition tokens s₁).1
          (s₃.withoutVerbatim a) :=
        (hMacros₁.eval_withoutVerbatim hReduced hLive₁
          a).symm
    _ = e.holdsIn (.plain s₃ a) tokens :=
        (hSays₁ _).eval_eq s₃ hSound₃ hGrows₁ _ hRealizes
    _ = e.holdsIn (.plain s₃ a) tokens' :=
        holdsIn_spliced hInlines (fun _ => rfl) hSpliced
    _ = s₃.manager.eval (e.condition tokens' s₂).1
          (s₃.withoutVerbatim a) :=
        ((hSays₂ _).eval_eq s₃ hSound₃ hGrows₂ _
          hRealizes).symm
    _ = s₃.manager.eval (e.condition tokens' s₂).1 a :=
        hMacros₂.eval_withoutVerbatim hReduced hLive₂ a

end Evaluator

------------------------------------------------------------
-- Bodies without Parentheses
------------------------------------------------------------

section Bare

open Grammar

/- A table in which `N` stands for some tokens everywhere. -/
def standsFor (body : List Token) : Evaluator where
  definitions := [("N", [⟨.one, some ⟨none, false, body⟩⟩])]
  isFree _ := false

/- The tokens of `1 + 1`. -/
def sum : List Token :=
  joined .plus [one.token] [one.token]

/- The name that stands for them. -/
def named : Token := tokenOf .identifier "N"

/- Tokens in parentheses. -/
def enclosed (tokens : List Token) : List Token :=
  tokenOf .punctuation "(" ::
    (tokens ++ [tokenOf .punctuation ")"])

/- Twice some operand, compared with four. -/
def doubled (operand : List Token) : List Token :=
  joined .equal (joined .times operand [two.token])
    [four.token]

variable {body : List Token}

/- The table has decided one thing. -/
theorem eq_of_mem_decisions
    {name : String}
    {d : Decision}
    (hd : d ∈ (standsFor body).definitions.decisions name) :
    d = ⟨.one, some ⟨none, false, body⟩⟩ := by
  unfold Definitions.decisions at hd
  cases hFind : Dict.find? name (standsFor body).definitions with
  | none =>
      rw [hFind] at hd
      cases hd
  | some ds =>
      rw [hFind] at hd
      rcases Dict.mem_of_find?_eq hFind with ⟨key, -, hMem⟩
      cases List.mem_singleton.mp hMem
      exact List.mem_singleton.mp hd

theorem isLive_standsFor
    (hSound : s.Sound) :
    Definitions.IsLive s (standsFor body).definitions := by
  intro name d hd
  rw [eq_of_mem_decisions hd]
  exact hSound.manager.reduced.isLive_one

theorem writes_sum :
    Writes 0
      (.operation .plus (.literal one) (.literal one)) sum :=
  (writes_joined .plus (writes_token one) (writes_token one)
    (by decide) (by decide)).of_le (Nat.zero_le _)

theorem value_lt (l : Literal) (h : l ∈ [one, two, four]) :
    l.value < 2 ^ 64 := by
  revert l
  decide

theorem read_sum (takesArguments : String → Bool) :
    ∃ text,
      Expression.read takesArguments sum =
        .operation .plus (.number 1) (.number 1) text := by
  have hOne : one.value < 2 ^ 64 := by
    decide
  have hRead :
      ReadAs (.operation .plus (.literal one) (.literal one))
        (Expression.read takesArguments sum) :=
    writes_sum.readAs ⟨hOne, hOne⟩
  generalize Expression.read takesArguments sum = f at hRead ⊢
  cases hRead with
  | operation _ hLeft hRight =>
      cases hLeft
      cases hRight
      exact ⟨_, rfl⟩

/- The name stands for a whole expression without names. -/
theorem inlines_sum : (standsFor sum).Inlines "N" sum where
  isIdentifier := by decide
  ne_defined := by decide
  not_builtin := by decide
  isFree_eq := rfl
  entries_eq := ⟨false, rfl⟩
  hasNames := by
    unfold Expression.HasNames
    decide
  isOver := by
    rcases read_sum fun _ => false with ⟨text, hRead⟩
    rw [hRead]
    rfl
  isForwarding := by
    intro other m hEntries parameters hParameters
    have hMem :
        (Diagram.Handle.one, m) ∈
          (standsFor sum).definitions.entries other := by
      rw [hEntries]
      exact List.mem_singleton_self _
    cases
      eq_of_mem_decisions (Definitions.mem_entries_iff.mp hMem)
    cases hParameters

/- The sum is put in the place of the name, in parentheses. -/
theorem spliced_doubled :
    ((standsFor sum).inlining "N" sum).Spliced false
      (doubled [named]) (doubled (enclosed sum)) := by
  have hName : IsName "N" named := ⟨rfl, rfl, by decide⟩
  have hOperand : IsOperandOf sum (enclosed sum) :=
    .parentheses ⟨rfl, rfl⟩ ⟨rfl, rfl⟩
  have hReplaced :
      ((standsFor sum).inlining "N" sum).Spliced false [named]
        (enclosed sum ++ []) :=
    .replaced hName hOperand .nil
  rw [List.append_nil] at hReplaced
  unfold doubled joined
  rw [List.append_assoc, List.append_assoc]
  apply hReplaced.append
  apply Inlining.Spliced.of_no_names
  decide

/- Twice the name, compared with four, as a tree. -/
def doubledTree : Tree :=
  .operation .equal
    (.operation .times (.reference "N") (.literal two))
    (.literal four)

theorem outcome?_doubled
    {f : Expression}
    {m : Outcomes}
    (hRead : ReadAs doubledTree f)
    (hName : m.reference "N" = .number 2) :
    f.outcome? m = some (.number 1) := by
  cases hRead with
  | operation _ hProduct hFour =>
      cases hProduct with
      | operation _ hReference hTwo =>
          cases hReference
          cases hTwo
          cases hFour
          simp only [Expression.outcome?, hName]
          rfl

theorem writes_doubledTree :
    Writes 0 doubledTree (doubled [named]) := by
  have hName : Writes 12 (.reference "N") [named] :=
    .reference ⟨rfl, rfl, by decide⟩
  have hTimes :=
    writes_joined .times hName (writes_token two)
      (by decide) (by decide)
  have hEqual :=
    writes_joined .equal hTimes (writes_token four)
      (by decide) (by decide)
  exact hEqual.of_le (Nat.zero_le _)

theorem holdsIn_doubled (W : World) :
    (standsFor sum).holdsIn W (doubled [named]) = true := by
  have hReadable :
      doubledTree.Readable ((standsFor sum).takesArguments []) :=
    ⟨⟨⟨by decide, by decide,
          inlines_sum.takesArguments_eq []⟩,
        value_lt two (by simp)⟩,
      value_lt four (by simp)⟩
  have hRead := writes_doubledTree.readAs hReadable
  have hSum :
      (standsFor sum).bodyOutcome W 1 ["N"] sum =
        .number 2 := by
    unfold Evaluator.bodyOutcome
    rw [Evaluator.outcomeWithin_succ]
    rcases read_sum _ with ⟨text, hRead⟩
    rw [hRead]
    rfl
  unfold Evaluator.holdsIn Evaluator.bodyOutcome
  rw [Evaluator.outcomeWithin_succ, outcome?_doubled hRead]
  · rfl
  · rw [inlines_sum.reference_eq List.not_mem_nil]
    exact hSum

theorem writes_doubled :
    Writes 0
      (.operation .equal
        (.operation .plus (.literal one)
          (.operation .times (.literal one) (.literal two)))
        (.literal four))
      (doubled sum) := by
  have hTimes :=
    writes_joined .times (writes_token one) (writes_token two)
      (by decide) (by decide)
  have hPlus :=
    writes_joined .plus (writes_token one) hTimes
      (by decide) (by decide)
  have hEqual :=
    writes_joined .equal hPlus (writes_token four)
      (by decide) (by decide)
  exact hEqual.of_le (Nat.zero_le _)

/- The product with the sum in parentheses. -/
theorem writes_doubled_enclosed :
    Writes 0
      (.operation .equal
        (.operation .times
          (.operation .plus (.literal one) (.literal one))
          (.literal two))
        (.literal four))
      (doubled (enclosed sum)) := by
  have hSum : Writes 12 _ (enclosed sum) :=
    .parentheses ⟨rfl, rfl⟩ writes_sum ⟨rfl, rfl⟩
  have hTimes :=
    writes_joined .times hSum (writes_token two)
      (by decide) (by decide)
  have hEqual :=
    writes_joined .equal hTimes (writes_token four)
      (by decide) (by decide)
  exact hEqual.of_le (Nat.zero_le _)

theorem sound_condition
    (tokens : List Token)
    (hSound : s.Sound) :
    ((standsFor body).condition tokens s).2.Sound ∧
      s.Grows ((standsFor body).condition tokens s).2 := by
  rcases
      Evaluator.ensures_condition_in (isLive_standsFor hSound)
        (.ofSpace s fun _ => false) tokens s hSound
        (.refl s) with
    ⟨hSound', hGrows, -⟩
  exact ⟨hSound', hGrows⟩

theorem condition_doubled_enclosed
    (hSound : s.Sound) :
    ((standsFor sum).condition (doubled (enclosed sum)) s).1 =
      .one :=
  (writes_doubled_enclosed.condition_eq_of_isAdmitted hSound
    (isLive_standsFor hSound) (by decide) rfl).trans
    (by decide)

theorem condition_doubled
    (hSound : s.Sound) :
    ((standsFor sum).condition (doubled [named]) s).1 = .one :=
  Evaluator.condition_eq_of_holdsIn hSound
    (isLive_standsFor hSound) fun _ => holdsIn_doubled _

/- The sum is not doubled if it has no parentheses around it. -/
theorem condition_doubled_bare
    (hSound : s.Sound) :
    ((standsFor sum).condition (doubled sum) s).1 = .zero :=
  (writes_doubled.condition_eq_of_isAdmitted hSound
    (isLive_standsFor hSound) (by decide) rfl).trans
    (by decide)

/-
  Putting in a body as it is written, without parentheses around
  it, is not the same: twice `1 + 1` is four, and `1 + 1 * 2` is
  not.
-/
theorem condition_ne_of_bare_body :
    let e := standsFor sum
    let bare (t : Token) := if t.is "N" then sum else [t]
    let out := e.condition (doubled [named]) .empty
    let out' :=
      e.condition ((doubled [named]).flatMap bare) out.2
    (e.isFree "N" = false ∧
        e.definitions.decisions "N" =
          [⟨.one, some ⟨none, false, sum⟩⟩] ∧
        sum ≠ [] ∧
        ∀ t ∈ sum, e.definitions.contains t.text = false) ∧
      (out'.2.IsAboutMacros out.1 ∧
          out'.2.IsAboutMacros out'.1) ∧
        out.1 ≠ out'.1 := by
  intro e bare out out'
  have hSound := Space.Reached.empty.sound
  rcases sound_condition (doubled [named]) hSound with
    ⟨hSound', -⟩
  have hOne : out.1 = .one := condition_doubled hSound
  have hZero : out'.1 = .zero := condition_doubled_bare hSound'
  rw [hOne, hZero]
  exact
    ⟨⟨rfl, rfl, by decide, by decide⟩,
      ⟨Space.isAboutMacros_one _,
        Space.isAboutMacros_zero _⟩,
      by decide⟩

/- It is the same if the body is put in parentheses. -/
theorem condition_eq_of_spliced_enclosed :
    let e := standsFor sum
    let out := e.condition (doubled [named]) .empty
    let out' := e.condition (doubled (enclosed sum)) out.2
    (e.Inlines "N" sum ∧
        (e.inlining "N" sum).Spliced false (doubled [named])
          (doubled (enclosed sum)) ∧
        (Space.empty.Sound ∧ out.2.Sound ∧ out'.2.Sound) ∧
        (Definitions.IsLive .empty e.definitions ∧
          Definitions.IsLive out.2 e.definitions) ∧
        (out.2.Grows out'.2 ∧ out'.2.Grows out'.2) ∧
        out'.2.IsAboutMacros out.1 ∧
          out'.2.IsAboutMacros out'.1) ∧
      out.1 = out'.1 := by
  intro e out out'
  have hSound := Space.Reached.empty.sound
  rcases sound_condition (doubled [named]) hSound with
    ⟨hSound', -⟩
  rcases sound_condition (doubled (enclosed sum)) hSound' with
    ⟨hSound'', hGrows⟩
  have hTable : Definitions.IsLive .empty e.definitions :=
    isLive_standsFor hSound
  have hTable' : Definitions.IsLive out.2 e.definitions :=
    isLive_standsFor hSound'
  have hMacros : out'.2.IsAboutMacros out.1 := by
    rw [condition_doubled hSound]
    exact Space.isAboutMacros_one _
  have hMacros' : out'.2.IsAboutMacros out'.1 := by
    rw [condition_doubled_enclosed hSound']
    exact Space.isAboutMacros_one _
  exact
    ⟨⟨inlines_sum, spliced_doubled,
        ⟨hSound, hSound', hSound''⟩, ⟨hTable, hTable'⟩,
        ⟨hGrows, .refl _⟩, hMacros, hMacros'⟩,
      Evaluator.condition_eq_of_spliced inlines_sum
        spliced_doubled hSound hSound' hSound'' hTable hTable'
        hGrows (.refl _) hMacros hMacros'⟩

end Bare

end Variability
