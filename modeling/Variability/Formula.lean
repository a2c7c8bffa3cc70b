/-
  Propositional formulas over named literals.

  Conjunctions and disjunctions take any number of arguments;
  the empty conjunction is true, the empty disjunction false.

  Main definitions:
    * `Formula`
    * `Formula.eval`
    * `Formula.simplify`
    * `Formula.text`
-/

namespace Variability

------------------------------------------------------------
-- Formulas
------------------------------------------------------------

/- A propositional formula. -/
inductive Formula where
  | truth
  | falsity
  | literal (name : String)
  | negation (f : Formula)
  | conj (fs : List Formula)
  | disj (fs : List Formula)
  deriving Repr, Inhabited

namespace Formula

mutual

/- Decide whether two formulas are written alike. -/
def decEq : (f g : Formula) → Decidable (f = g)
  | .truth, .truth => isTrue rfl
  | .falsity, .falsity => isTrue rfl
  | .literal a, .literal b =>
      if h : a = b then isTrue (by rw [h]) else isFalse (by simp [h])
  | .negation f, .negation g =>
      match decEq f g with
      | isTrue h => isTrue (by rw [h])
      | isFalse h => isFalse (by simp [h])
  | .conj fs, .conj gs =>
      match decEqList fs gs with
      | isTrue h => isTrue (by rw [h])
      | isFalse h => isFalse (by simp [h])
  | .disj fs, .disj gs =>
      match decEqList fs gs with
      | isTrue h => isTrue (by rw [h])
      | isFalse h => isFalse (by simp [h])
  | .truth, .falsity | .truth, .literal _ | .truth, .negation _
  | .truth, .conj _ | .truth, .disj _
  | .falsity, .truth | .falsity, .literal _ | .falsity, .negation _
  | .falsity, .conj _ | .falsity, .disj _
  | .literal _, .truth | .literal _, .falsity | .literal _, .negation _
  | .literal _, .conj _ | .literal _, .disj _
  | .negation _, .truth | .negation _, .falsity | .negation _, .literal _
  | .negation _, .conj _ | .negation _, .disj _
  | .conj _, .truth | .conj _, .falsity | .conj _, .literal _
  | .conj _, .negation _ | .conj _, .disj _
  | .disj _, .truth | .disj _, .falsity | .disj _, .literal _
  | .disj _, .negation _ | .disj _, .conj _ =>
      isFalse (by simp)

/- Decide whether two lists of formulas are written alike. -/
def decEqList : (fs gs : List Formula) → Decidable (fs = gs)
  | [], [] => isTrue rfl
  | [], _ :: _ | _ :: _, [] => isFalse (by simp)
  | f :: fs, g :: gs =>
      match decEq f g, decEqList fs gs with
      | isTrue h, isTrue hs => isTrue (by rw [h, hs])
      | isFalse h, _ => isFalse (by simp [h])
      | _, isFalse hs => isFalse (by simp [hs])

end

instance : DecidableEq Formula := decEq

/- The formula of a truth value. -/
def constant : Bool → Formula
  | true => .truth
  | false => .falsity

/- Negation that takes a negation off instead of doubling it. -/
def not : Formula → Formula
  | .negation f => f
  | f => .negation f

/- The conjunction of two formulas. -/
def and (f g : Formula) : Formula :=
  .conj [f, g]

/- The disjunction of two formulas. -/
def or (f g : Formula) : Formula :=
  .disj [f, g]

/- The formula that chooses between two others by a test. -/
def choice (test high low : Formula) : Formula :=
  .or (.and test high) (.and (.not test) low)

------------------------------------------------------------
-- Meaning
------------------------------------------------------------

mutual

/- The value of a formula under an assignment of its literals. -/
def eval (a : String → Bool) : Formula → Bool
  | .truth => true
  | .falsity => false
  | .literal name => a name
  | .negation f => !eval a f
  | .conj fs => evalAll a fs
  | .disj fs => evalAny a fs

/- Whether all formulas hold. -/
def evalAll (a : String → Bool) : List Formula → Bool
  | [] => true
  | f :: fs => eval a f && evalAll a fs

/- Whether some formula holds. -/
def evalAny (a : String → Bool) : List Formula → Bool
  | [] => false
  | f :: fs => eval a f || evalAny a fs

end

------------------------------------------------------------
-- Literals
------------------------------------------------------------

mutual

/- The names of all literals from left to right. -/
def literals : Formula → List String
  | .truth | .falsity => []
  | .literal name => [name]
  | .negation f => literals f
  | .conj fs | .disj fs => literalsOf fs

/- The names of all literals of a list from left to right. -/
def literalsOf : List Formula → List String
  | [] => []
  | f :: fs => literals f ++ literalsOf fs

end

/- Put a name into a sorted list, once. -/
def insertName (name : String) : List String → List String
  | [] => [name]
  | other :: names =>
      if name = other then
        other :: names
      else if name < other then
        name :: other :: names
      else
        other :: insertName name names

/- The names of the literals in order, each once. -/
def names (f : Formula) : List String :=
  f.literals.foldl (fun names name => insertName name names) []

mutual

/- Put a formula in place of every literal. -/
def mapLiterals (h : String → Formula) : Formula → Formula
  | .truth => .truth
  | .falsity => .falsity
  | .literal name => h name
  | .negation f => .negation (mapLiterals h f)
  | .conj fs => .conj (mapLiteralsOf h fs)
  | .disj fs => .disj (mapLiteralsOf h fs)

/- Put a formula in place of every literal of a list. -/
def mapLiteralsOf (h : String → Formula) : List Formula → List Formula
  | [] => []
  | f :: fs => mapLiterals h f :: mapLiteralsOf h fs

end

/- Rename every literal. -/
def rename (h : String → String) (f : Formula) : Formula :=
  f.mapLiterals fun name => .literal (h name)

------------------------------------------------------------
-- Simplification
------------------------------------------------------------

/- Negate a simplified formula. -/
def negateSimplified : Formula → Formula
  | .truth => .falsity
  | .falsity => .truth
  | f => not f

/-
  Join simplified arguments: for a conjunction (`all`) true is
  left out, false is the result, and inner conjunctions are
  taken apart; for a disjunction the other way round.
-/
def joinArguments (all : Bool) : List Formula → Option (List Formula)
  | [] => some []
  | f :: fs =>
      if f = constant !all then
        none
      else
        (joinArguments all fs).map fun rest =>
          if f = constant all then
            rest
          else
            match all, f with
            | true, .conj inner => inner ++ rest
            | false, .disj inner => inner ++ rest
            | _, _ => f :: rest

/- The simplest formula for the joined arguments. -/
def ofJoined (all : Bool) : Option (List Formula) → Formula
  | none => constant !all
  | some [] => constant all
  | some [f] => f
  | some fs => if all then .conj fs else .disj fs

mutual

/- Fold constants and flatten nested connectives of one kind. -/
def simplify : Formula → Formula
  | .truth => .truth
  | .falsity => .falsity
  | .literal name => .literal name
  | .negation f => negateSimplified (simplify f)
  | .conj fs => ofJoined true (joinArguments true (simplifyEach fs))
  | .disj fs => ofJoined false (joinArguments false (simplifyEach fs))

/- Simplify every formula of a list. -/
def simplifyEach : List Formula → List Formula
  | [] => []
  | f :: fs => simplify f :: simplifyEach fs

end

------------------------------------------------------------
-- Text
------------------------------------------------------------

mutual

/- The written form: `-` before a negated formula, arguments in parentheses. -/
def text : Formula → String
  | .truth => "true"
  | .falsity => "false"
  | .literal name => name
  | .negation f => "-" ++ text f
  | .conj [] => "true"
  | .disj [] => "false"
  | .conj (f :: fs) => "(" ++ text f ++ textRest " & " fs ++ ")"
  | .disj (f :: fs) => "(" ++ text f ++ textRest " | " fs ++ ")"

/- Further arguments, each after the sign of its connective. -/
def textRest (sign : String) : List Formula → String
  | [] => ""
  | f :: fs => sign ++ text f ++ textRest sign fs

end

end Formula

end Variability
