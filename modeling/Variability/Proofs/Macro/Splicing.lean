import Variability.Macro
import Variability.Proofs.Expression.Unsplit
import Variability.Proofs.Expression.Grammar

/-
  Other tokens in the place of a name.

  A name is replaced by tokens that are an operand wherever they
  stand. It stays where it is asked whether it is defined, and
  it is not replaced directly behind a name that would take the
  tokens for its arguments. Replacing in this way goes through
  the splitting of argument lists, and through the substitution
  of arguments in the body of a macro.

  Main declarations:
    * `Inlining`
    * `Inlining.Spliced`
    * `Inlining.Spliced.argumentList`
    * `Inlining.Spliced.substitute`
-/

namespace Variability

open Expression
open Grammar

/- A name, and what may stand in its place. -/
structure Inlining where
  name : String
  Operand : List Token → Prop
  /- Whether a name may have an argument list behind it. -/
  isCallable : String → Bool

namespace Inlining

/- Whether an argument list may follow a token. -/
def calls (i : Inlining) (t : Token) : Bool :=
  decide (t.kind = .identifier) && i.isCallable t.text

/-
  The second tokens are the first ones with the name replaced in
  some places. It stays where it comes first, if the tokens in
  front of it end in a name that may be called.
-/
inductive Spliced (i : Inlining) :
    Bool → List Token → List Token → Prop where
  | nil {called : Bool} : i.Spliced called [] []
  | defined {called : Bool} {name : String} {word t : Token}
      {s s' : List Token}
      (hWord : IsName "defined" word)
      (ht : IsName name t)
      (hRest : i.Spliced false s s') :
      i.Spliced called (word :: t :: s) (word :: t :: s')
  | definedWithin {called : Bool} {name : String}
      {word opening t closing : Token} {s s' : List Token}
      (hWord : IsName "defined" word)
      (hOpen : IsMark "(" opening)
      (ht : IsName name t)
      (hClose : IsMark ")" closing)
      (hRest : i.Spliced false s s') :
      i.Spliced called (word :: opening :: t :: closing :: s)
        (word :: opening :: t :: closing :: s')
  | replaced {t : Token} {us s s' : List Token}
      (ht : IsName i.name t)
      (hOperand : i.Operand us)
      (hRest : i.Spliced false s s') :
      i.Spliced false (t :: s) (us ++ s')
  | kept {called : Bool} {t : Token} {s s' : List Token}
      (hWord : t.kind = .identifier → t.text ≠ "defined")
      (hRest : i.Spliced (i.calls t) s s') :
      i.Spliced called (t :: s) (t :: s')

variable {i : Inlining}
variable {s s' u u' : List Token}
variable {called : Bool}

namespace Spliced

/- A name that may not be replaced in front may be kept there. -/
theorem weaken
    (hSpliced : i.Spliced true s s') :
    i.Spliced called s s' := by
  cases hSpliced with
  | nil => exact .nil
  | defined hWord ht hRest => exact .defined hWord ht hRest
  | definedWithin hWord hOpen ht hClose hRest =>
      exact .definedWithin hWord hOpen ht hClose hRest
  | kept hWord hRest => exact .kept hWord hRest

theorem loosen
    (hSpliced : i.Spliced called s s') :
    i.Spliced false s s' := by
  cases called with
  | false => exact hSpliced
  | true => exact hSpliced.weaken

theorem append
    (hFirst : i.Spliced called s s')
    (hSecond : i.Spliced true u u') :
    i.Spliced called (s ++ u) (s' ++ u') := by
  induction hFirst with
  | nil => exact hSecond.weaken
  | defined hWord ht _ ih => exact .defined hWord ht ih
  | definedWithin hWord hOpen ht hClose _ ih =>
      exact .definedWithin hWord hOpen ht hClose ih
  | @replaced t us s s' ht hOperand _ ih =>
      rw [List.append_assoc]
      exact .replaced ht hOperand ih
  | kept hWord _ ih => exact .kept hWord ih

/- There is nothing to replace in tokens without names. -/
theorem of_no_names
    (hNames : ∀ t ∈ s, t.kind ≠ .identifier) :
    i.Spliced called s s := by
  induction s generalizing called with
  | nil => exact .nil
  | cons t s ih =>
      rcases List.forall_mem_cons.mp hNames with ⟨ht, hRest⟩
      exact .kept (fun hKind => absurd hKind ht) (ih hRest)

end Spliced

------------------------------------------------------------
-- Argument Lists
------------------------------------------------------------

/- A name in which an argument list is not split is replaced. -/
structure IsProper (i : Inlining) : Prop where
  isIdentifier : Lexer.isIdentifier i.name = true
  isUnsplit : ∀ us, i.Operand us → IsUnsplit us
  ne_nil : ∀ us, i.Operand us → us ≠ []

/- Arguments with the name replaced in some places. -/
def SplicedArguments
    (i : Inlining)
    (called : Bool)
    (as as' : List (List Token)) : Prop :=
  ∃ a a' more more', as = a :: more ∧ as' = a' :: more' ∧
    i.Spliced called a a' ∧
      List.Forall₂ (i.Spliced false) more more'

/- The same for arguments and what follows them. -/
def SplicedLists
    (i : Inlining)
    (called : Bool)
    (out out' : List (List Token) × List Token) : Prop :=
  i.SplicedArguments called out.1 out'.1 ∧
    i.Spliced false out.2 out'.2

theorem foldr_consToken
    (ts a : List Token)
    (as : List (List Token)) :
    ts.foldr consToken (a :: as) = (ts ++ a) :: as := by
  induction ts with
  | nil => rfl
  | cons t ts ih =>
      rw [List.foldr_cons, ih]
      rfl

theorem rel_map
    {α β γ δ : Type}
    {R : α → β → Prop}
    {S : γ → δ → Prop}
    {f : α → γ}
    {g : β → δ}
    {x : Option α}
    {y : Option β}
    (hRel : Option.Rel R x y)
    (hMap : ∀ a b, R a b → S (f a) (g b)) :
    Option.Rel S (x.map f) (y.map g) := by
  cases hRel with
  | none => exact .none
  | some hR => exact .some (hMap _ _ hR)

/- Tokens in front belong to the first of the arguments. -/
theorem rel_prepend
    {called' : Bool}
    {ts ts' : List Token}
    {out out' : Option (List (List Token) × List Token)}
    (hRel : Option.Rel (i.SplicedLists called') out out')
    (hFront :
      ∀ a a', i.Spliced called' a a' →
        i.Spliced called (ts ++ a) (ts' ++ a')) :
    Option.Rel (i.SplicedLists called)
      (out.map (prepend ts)) (out'.map (prepend ts')) := by
  apply rel_map hRel
  rintro ⟨_, rest⟩ ⟨_, rest'⟩
    ⟨⟨a, a', more, more', rfl, rfl, hFirst, hMore⟩, hRest⟩
  refine ⟨?_, hRest⟩
  exact
    ⟨_, _, _, _, foldr_consToken ts a more,
      foldr_consToken ts' a' more', hFront a a' hFirst, hMore⟩

theorem rel_of_isUnsplit
    {ts ts' : List Token}
    {depth : Nat}
    (hUnsplit : IsUnsplit ts)
    (hUnsplit' : IsUnsplit ts')
    (hRel :
      Option.Rel (i.SplicedLists false)
        (argumentsWithin depth s) (argumentsWithin depth s'))
    (hFront :
      ∀ a a', i.Spliced false a a' →
        i.Spliced called (ts ++ a) (ts' ++ a')) :
    Option.Rel (i.SplicedLists called)
      (argumentsWithin depth (ts ++ s))
      (argumentsWithin depth (ts' ++ s')) := by
  have hEq := hUnsplit depth s
  have hEq' := hUnsplit' depth s'
  rw [Nat.zero_add] at hEq hEq'
  rw [hEq, hEq']
  exact rel_prepend hRel hFront

theorem isUnsplit_of_isName
    {name : String}
    {t : Token}
    (ht : IsName name t) :
    IsUnsplit [t] := by
  have hMarks :
      ∀ mark ∈ ["(", ")", ","],
        Lexer.isIdentifier mark = false := by
    decide
  apply isUnsplit_singleton
  rw [ht.text_eq]
  intro hMem
  have hNot := hMarks name hMem
  rw [ht.isIdentifier] at hNot
  cases hNot

namespace Spliced

/-
  Argument lists are split in the same way after a name was
  replaced in them.
-/
theorem argumentsWithin
    (hProper : i.IsProper)
    (hSpliced : i.Spliced called s s')
    (depth : Nat) :
    Option.Rel (i.SplicedLists called)
      (argumentsWithin depth s)
      (argumentsWithin depth s') := by
  induction hSpliced generalizing depth with
  | nil =>
      rw [argumentsWithin.eq_def]
      exact .none
  | @defined called name word t s s' hWord ht hRest ih =>
      have hUnsplit : IsUnsplit [word, t] :=
        (isUnsplit_of_isName hWord).append
          (isUnsplit_of_isName ht)
      exact
        rel_of_isUnsplit hUnsplit hUnsplit (ih depth)
          fun _ _ h => .defined hWord ht h
  | @definedWithin called name word opening t closing s s' hWord
      hOpen ht hClose hRest ih =>
      have hUnsplit : IsUnsplit [word, opening, t, closing] :=
        (isUnsplit_of_isName hWord).append
          ((isUnsplit_of_isName ht).parentheses
            (beq_iff_eq.mpr hOpen.text_eq)
            (beq_iff_eq.mpr hClose.text_eq))
      exact
        rel_of_isUnsplit hUnsplit hUnsplit (ih depth)
          fun _ _ h => .definedWithin hWord hOpen ht hClose h
  | @replaced t us s s' ht hOperand hRest ih =>
      exact
        rel_of_isUnsplit (isUnsplit_of_isName ht)
          (hProper.isUnsplit us hOperand) (ih depth)
          fun _ _ h => .replaced ht hOperand h
  | @kept called t s s' hWord hRest ih =>
      have hFront (a a' : List Token)
          (h : i.Spliced (i.calls t) a a') :
          i.Spliced called ([t] ++ a) ([t] ++ a') :=
        .kept hWord h
      by_cases hClose : t.is ")" = true
      · cases depth with
        | zero =>
            rw [argumentsWithin.eq_def, argumentsWithin.eq_def]
            simp only [hClose, if_true]
            exact
              .some ⟨⟨[], [], [], [], rfl, rfl, .nil, .nil⟩,
                hRest.loosen⟩
        | succ depth =>
            rw [argumentsWithin_of_close hClose,
              argumentsWithin_of_close hClose]
            exact rel_prepend (ih depth) hFront
      rw [Bool.not_eq_true] at hClose
      by_cases hComma : t.is "," = true ∧ depth = 0
      · rw [argumentsWithin.eq_def, argumentsWithin.eq_def]
        simp only [hClose, hComma, Bool.false_eq_true,
          and_self, if_false, if_true]
        apply rel_map (ih 0)
        rintro ⟨_, rest⟩ ⟨_, rest'⟩
          ⟨⟨a, a', more, more', rfl, rfl, hFirst, hMore⟩,
            hBehind⟩
        exact
          ⟨⟨[], [], _, _, rfl, rfl, .nil,
            .cons hFirst.loosen hMore⟩, hBehind⟩
      · rw [argumentsWithin_of_inside hClose hComma,
          argumentsWithin_of_inside hClose hComma]
        exact rel_prepend (ih _) hFront

theorem eq_nil_iff
    (hProper : i.IsProper)
    (hSpliced : i.Spliced called s s') :
    s = [] ↔ s' = [] := by
  cases hSpliced with
  | nil => exact Iff.rfl
  | @replaced t us s s' ht hOperand hRest =>
      have hNil := hProper.ne_nil us hOperand
      simp [hNil]
  | _ => simp

/- A name that takes arguments finds them all the same. -/
theorem argumentList
    (hProper : i.IsProper)
    (hSpliced : i.Spliced true s s') :
    Option.Rel
      (fun out out' =>
        List.Forall₂ (i.Spliced false) out.1 out'.1 ∧
          i.Spliced false out.2 out'.2)
      (argumentList s) (argumentList s') := by
  have hNone {word : Token} (hWord : IsName "defined" word)
      (s : List Token) :
      Expression.argumentList (word :: s) = none := by
    have hOpen : word.is "(" = false := by
      unfold Token.is
      rw [hWord.text_eq]
      rfl
    simp [Expression.argumentList, hOpen]
  cases hSpliced with
  | nil => exact .none
  | defined hWord ht hRest =>
      rw [hNone hWord, hNone hWord]
      exact .none
  | definedWithin hWord hOpen ht hClose hRest =>
      rw [hNone hWord, hNone hWord]
      exact .none
  | @kept _ t s s' hWord hRest =>
      rw [Expression.argumentList, Expression.argumentList]
      by_cases hOpen : t.is "(" = true
      · rw [if_pos hOpen, if_pos hOpen]
        apply rel_map (hRest.argumentsWithin hProper 0)
        rintro ⟨_, rest⟩ ⟨_, rest'⟩
          ⟨⟨a, a', more, more', rfl, rfl, hFirst, hMore⟩,
            hBehind⟩
        refine ⟨?_, hBehind⟩
        have hEmpty :
            a' :: more' = [[]] ↔ a :: more = [[]] := by
          simp only [List.cons.injEq,
            hFirst.eq_nil_iff hProper]
          exact
            and_congr_right fun _ =>
              ⟨fun h => by cases h; cases hMore; rfl,
                fun h => by cases h; cases hMore; rfl⟩
        dsimp only
        simp only [hEmpty]
        split
        · exact .nil
        · exact .cons hFirst.loosen hMore
      · rw [if_neg hOpen, if_neg hOpen]
        exact .none

end Spliced

------------------------------------------------------------
-- Substitution
------------------------------------------------------------

/-
  A body that hands its arguments on as operands: they do not
  come behind `defined`, and further arguments, which are not in
  parentheses, do not come behind a name that may be called.
-/
inductive Forwards
    (i : Inlining)
    (parameters : List String)
    (variadic : Bool) :
    Bool → List Token → Prop where
  | nil {called : Bool} : i.Forwards parameters variadic called []
  | defined {called : Bool} {name : String} {word t : Token}
      {s : List Token}
      (hWord : IsName "defined" word)
      (ht : IsName name t)
      (hFree : "defined" ∉ parameters ∧ name ∉ parameters)
      (hRest : i.Forwards parameters variadic false s) :
      i.Forwards parameters variadic called (word :: t :: s)
  | definedWithin {called : Bool} {name : String}
      {word opening t closing : Token} {s : List Token}
      (hWord : IsName "defined" word)
      (hOpen : IsMark "(" opening)
      (ht : IsName name t)
      (hClose : IsMark ")" closing)
      (hFree : "defined" ∉ parameters ∧ name ∉ parameters)
      (hRest : i.Forwards parameters variadic false s) :
      i.Forwards parameters variadic called
        (word :: opening :: t :: closing :: s)
  | parameter {called : Bool} {t : Token} {index : Nat}
      {s : List Token}
      (hKind : t.kind = .identifier)
      (hIndex : parameters.idxOf? t.text = some index)
      (hPlain :
        ¬ (variadic = true ∧ index + 1 = parameters.length))
      (hRest : i.Forwards parameters variadic false s) :
      i.Forwards parameters variadic called (t :: s)
  | further {t : Token} {index : Nat} {s : List Token}
      (hKind : t.kind = .identifier)
      (hIndex : parameters.idxOf? t.text = some index)
      (hLast : variadic = true ∧ index + 1 = parameters.length)
      (hRest : i.Forwards parameters variadic true s) :
      i.Forwards parameters variadic false (t :: s)
  | kept {called : Bool} {t : Token} {s : List Token}
      (hFree :
        t.kind = .identifier →
          t.text ≠ "defined" ∧ t.text ∉ parameters)
      (hRest : i.Forwards parameters variadic (i.calls t) s) :
      i.Forwards parameters variadic called (t :: s)

/- A macro whose body hands its arguments on. -/
def IsForwarding (i : Inlining) (m : Macro) : Prop :=
  ∀ parameters, m.parameters = some parameters →
    m.body.any Macro.isSpellingOperator = false →
      i.Forwards parameters m.variadic false m.body

variable {parameters : List String}
variable {variadic : Bool}
variable {as as' : List (List Token)}

/- A mark takes no arguments. -/
theorem Spliced.mark
    {t : Token}
    (ht : t.kind = .punctuation)
    (hRest : i.Spliced false s s') :
    i.Spliced called (t :: s) (t :: s') := by
  have hCalls : i.calls t = false := by
    simp [calls, ht]
  refine .kept (fun hKind => ?_) (hCalls ▸ hRest)
  rw [ht] at hKind
  cases hKind

/- Arguments with the name replaced, and commas between them. -/
theorem spliced_intersperse
    {comma : Token}
    (hComma : comma.kind = .punctuation)
    (hArguments : List.Forall₂ (i.Spliced false) as as') :
    i.Spliced false
      (List.flatten (as.intersperse [comma]))
      (List.flatten (as'.intersperse [comma])) := by
  induction hArguments with
  | nil => exact .nil
  | @cons a a' more more' hFirst hMore ih =>
      cases hMore with
      | nil => simpa using hFirst
      | @cons b b' more more' hSecond hMore =>
          exact hFirst.append (Spliced.mark hComma ih)

theorem spliced_getD
    (hArguments : List.Forall₂ (i.Spliced false) as as')
    (index : Nat) :
    i.Spliced false (as.getD index []) (as'.getD index []) := by
  induction hArguments generalizing index with
  | nil => exact .nil
  | cons hFirst _ ih =>
      cases index with
      | zero => exact hFirst
      | succ index => exact ih index

theorem replacement_of_not_mem
    {t : Token}
    (hFree : t.kind = .identifier → t.text ∉ parameters) :
    Macro.replacement parameters variadic as t = [t] := by
  unfold Macro.replacement
  split
  · rename_i hKind
    rw [List.idxOf?_eq_none_iff.mpr (hFree hKind)]
  · rfl

theorem Forwards.spliced
    {body : List Token}
    (hBody : i.Forwards parameters variadic called body)
    (hArguments : List.Forall₂ (i.Spliced false) as as') :
    i.Spliced called
      (body.flatMap (Macro.replacement parameters variadic as))
      (body.flatMap
        (Macro.replacement parameters variadic as')) := by
  have hStays {name : String} {t : Token}
      (ht : IsName name t)
      (hFree : name ∉ parameters)
      (as : List (List Token)) :
      Macro.replacement parameters variadic as t = [t] :=
    replacement_of_not_mem fun _ => ht.text_eq ▸ hFree
  have hMark {text : String} {t : Token}
      (ht : IsMark text t)
      (as : List (List Token)) :
      Macro.replacement parameters variadic as t = [t] :=
    replacement_of_not_mem fun hKind => by
      rw [ht.kind_eq] at hKind
      cases hKind
  induction hBody with
  | nil => exact .nil
  | defined hWord ht hFree _ ih =>
      simp only [List.flatMap_cons, hStays hWord hFree.1,
        hStays ht hFree.2]
      exact .defined hWord ht ih
  | definedWithin hWord hOpen ht hClose hFree _ ih =>
      simp only [List.flatMap_cons, hStays hWord hFree.1,
        hMark hOpen, hStays ht hFree.2, hMark hClose]
      exact .definedWithin hWord hOpen ht hClose ih
  | @parameter called t index s hKind hIndex hPlain hRest ih =>
      have hReplaced (as : List (List Token)) :
          Macro.replacement parameters variadic as t =
            t.mark "(" :: as.getD index [] ++
              [t.mark ")"] := by
        simp only [Macro.replacement, hKind, hIndex, hPlain,
          if_true, if_false]
      have hArgument := spliced_getD hArguments index
      simp only [List.flatMap_cons, hReplaced,
        List.cons_append, List.append_assoc]
      exact .mark rfl (hArgument.append (.mark rfl ih))
  | @further t index s hKind hIndex hLast hRest ih =>
      have hReplaced (as : List (List Token)) :
          Macro.replacement parameters variadic as t =
            List.flatten
              ((as.drop index).intersperse [t.mark ","]) := by
        simp only [Macro.replacement, hKind, hIndex, hLast,
          and_self, if_true]
      simp only [List.flatMap_cons, hReplaced]
      exact
        (spliced_intersperse rfl
          (List.forall₂_drop index hArguments)).append ih
  | kept hFree _ ih =>
      simp only [List.flatMap_cons,
        replacement_of_not_mem fun hKind => (hFree hKind).2]
      exact .kept (fun hKind => (hFree hKind).1) ih

/- The substituted body with the name replaced in arguments. -/
theorem IsForwarding.substitute
    {m : Macro}
    (hMacro : i.IsForwarding m)
    (hArguments : List.Forall₂ (i.Spliced false) as as') :
    Option.Rel (i.Spliced false) (m.substitute as)
      (m.substitute as') := by
  unfold Macro.substitute
  cases hParameters : m.parameters with
  | none => exact .none
  | some parameters =>
      dsimp only [Option.bind_eq_bind, Option.bind_some]
      by_cases hSpelling : m.body.any Macro.isSpellingOperator
      · rw [if_pos hSpelling, if_pos hSpelling]
        exact .none
      rw [if_neg hSpelling, if_neg hSpelling,
        hArguments.length_eq]
      rw [Bool.not_eq_true] at hSpelling
      split
      · exact
          .some ((hMacro parameters hParameters
            hSpelling).spliced hArguments)
      · exact .none

end Inlining

end Variability
