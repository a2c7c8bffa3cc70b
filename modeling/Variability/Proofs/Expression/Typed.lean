import Variability.Proofs.Expression.Trees

/-
  Integers with types.

  The language has signed and unsigned integers of 64 bits. If
  one operand of an operation is unsigned, the other one is
  converted; what does not fit a signed integer has no value.
  Words that all count as signed are congruent to these values,
  and agree about order, quotients and shifts to the right as
  long as no unsigned operand reaches the sign bit.

  Main declarations:
    * `Grammar.Tree.typedValue?`
    * `Grammar.Tree.StaysLow`
    * `Grammar.Tree.constant_eq_word`
-/

namespace Variability

------------------------------------------------------------
-- Types
------------------------------------------------------------

/- Whether an integer is one of a type. -/
def InType (unsigned : Bool) (n : Int) : Prop :=
  if unsigned then 0 ≤ n ∧ n < 2 ^ 64
  else -2 ^ 63 ≤ n ∧ n < 2 ^ 63

instance (unsigned : Bool) (n : Int) :
    Decidable (InType unsigned n) := by
  unfold InType
  infer_instance

/- An integer of another type in a type that it is converted to. -/
def convert (unsigned : Bool) (n : Int) : Int :=
  if unsigned then n % 2 ^ 64 else n

/- The result of a computation: unsigned integers wrap around. -/
def fit? (unsigned : Bool) (n : Int) : Option Int :=
  if unsigned then some (n % 2 ^ 64)
  else if InType false n then some n
  else none

/- An operation on the bits of two integers of a type. -/
def bitsOf
    (unsigned : Bool)
    (f : BitVec 64 → BitVec 64 → BitVec 64)
    (a b : Int) :
    Int :=
  convert unsigned (onBits f a b)

/- The value of an operator in front of an integer of a type. -/
def Sign.typedValue?
    (unsigned : Bool)
    (n : Int) :
    Sign → Option Int
  | .not => some (if n = 0 then 1 else 0)
  | .minus => fit? unsigned (-n)
  | .plus => some n
  | .complement => fit? unsigned (-n - 1)

namespace Operator

/- Whether the operands keep the types that they have. -/
def isShift : Operator → Bool
  | .shiftLeft | .shiftRight => true
  | _ => false

/- Whether the result is a truth value. -/
def isComparison : Operator → Bool
  | .equal | .unequal | .less | .greater | .lessEqual
  | .greaterEqual => true
  | _ => false

/-
  The value of an operation on integers of a type. Of a shift
  this is the type of what is shifted; one by less than nothing
  or by all bits has no value, nor has one of a negative integer.
-/
def typedValue?
    (unsigned : Bool)
    (a b : Int) :
    Operator → Option Int
  | .bitOr => some (bitsOf unsigned (· ||| ·) a b)
  | .bitXor => some (bitsOf unsigned (· ^^^ ·) a b)
  | .bitAnd => some (bitsOf unsigned (· &&& ·) a b)
  | .equal => some (if a = b then 1 else 0)
  | .unequal => some (if a = b then 0 else 1)
  | .less => some (if a < b then 1 else 0)
  | .greater => some (if b < a then 1 else 0)
  | .lessEqual => some (if a ≤ b then 1 else 0)
  | .greaterEqual => some (if b ≤ a then 1 else 0)
  | .shiftLeft =>
      if 0 ≤ a ∧ 0 ≤ b ∧ b < 64 then
        fit? unsigned (a * 2 ^ b.toNat)
      else none
  | .shiftRight =>
      if 0 ≤ a ∧ 0 ≤ b ∧ b < 64 then some (a / 2 ^ b.toNat)
      else none
  | .plus => fit? unsigned (a + b)
  | .minus => fit? unsigned (a - b)
  | .times => fit? unsigned (a * b)
  | .divide =>
      if b = 0 then none else fit? unsigned (a.tdiv b)
  | .remainder =>
      if b = 0 then none
      else (fit? unsigned (a.tdiv b)).map fun _ => a.tmod b

/-
  Whether words that count as signed do as the integers of a
  type do: the sign bit of unsigned operands must not matter.
-/
def IgnoresSign
    (unsigned : Bool)
    (a b : Int) :
    Operator → Prop
  | .less | .greater | .lessEqual | .greaterEqual =>
      unsigned = true → (a < 2 ^ 63 ↔ b < 2 ^ 63)
  | .divide | .remainder =>
      unsigned = true → a < 2 ^ 63 ∧ b < 2 ^ 63
  | .shiftRight => unsigned = true → a < 2 ^ 63 ∨ b = 0
  | _ => True

end Operator

namespace Grammar

/- Whether an integer is unsigned as it is written. -/
def Literal.isUnsigned (l : Literal) : Bool :=
  l.suffix.toList.any (fun c => c == 'u' || c == 'U') ||
    l.radix ≠ .decimal && 2 ^ 63 ≤ l.value

namespace Tree

/- Whether the value of a tree is unsigned. -/
def isUnsigned : Tree → Bool
  | .literal l => l.isUnsigned
  | .character _ | .defined _ | .reference _ => false
  | .sign .not _ => false
  | .sign _ t => t.isUnsigned
  | .operation op l r =>
      if op.isComparison then false
      else if op.isShift then l.isUnsigned
      else l.isUnsigned || r.isUnsigned
  | .connective _ _ _ => false
  | .conditional _ yes no => yes.isUnsigned || no.isUnsigned

/- The type in which an operation is carried out. -/
def operandType (op : Operator) (l r : Tree) : Bool :=
  if op.isShift then l.isUnsigned
  else l.isUnsigned || r.isUnsigned

/- The right operand of an operation, converted if need be. -/
def rightOperand
    (op : Operator)
    (l r : Tree)
    (b : Int) :
    Int :=
  if op.isShift then b else convert (operandType op l r) b

/-
  The value of a tree of integers in its type, if it has one.
  What a connective or a choice does not need may have none.
-/
def typedValue? : Tree → Option Int
  | .literal l => some l.value
  | .character _ | .defined _ | .reference _ => none
  | .sign op t =>
      t.typedValue?.bind fun n =>
        op.typedValue? t.isUnsigned n
  | .operation op l r =>
      l.typedValue?.bind fun a =>
        r.typedValue?.bind fun b =>
          op.typedValue? (operandType op l r)
            (convert (operandType op l r) a)
            (rightOperand op l r b)
  | .connective op l r =>
      l.typedValue?.bind fun a =>
        if a = 0 ↔ op = .or then
          r.typedValue?.map fun b => if b ≠ 0 then 1 else 0
        else
          some (if a ≠ 0 then 1 else 0)
  | .conditional test yes no =>
      test.typedValue?.bind fun c =>
        (if c ≠ 0 then yes.typedValue?
          else no.typedValue?).map
          (convert (yes.isUnsigned || no.isUnsigned))

/-
  A tree of integers only, each of which fits a type that it can
  have: a decimal one is signed unless a letter says otherwise.
-/
def IsIntegral : Tree → Prop
  | .literal l => InType l.isUnsigned l.value
  | .character _ | .defined _ | .reference _ => False
  | .sign _ t => t.IsIntegral
  | .operation _ l r | .connective _ l r =>
      l.IsIntegral ∧ r.IsIntegral
  | .conditional test yes no =>
      test.IsIntegral ∧ yes.IsIntegral ∧ no.IsIntegral

instance decidableIsIntegral :
    (t : Tree) → Decidable t.IsIntegral
  | .literal l =>
      inferInstanceAs (Decidable (InType l.isUnsigned l.value))
  | .character _ | .defined _ | .reference _ =>
      inferInstanceAs (Decidable False)
  | .sign _ t => decidableIsIntegral t
  | .operation _ l r | .connective _ l r =>
      have := decidableIsIntegral l
      have := decidableIsIntegral r
      inferInstanceAs (Decidable (l.IsIntegral ∧ r.IsIntegral))
  | .conditional test yes no =>
      have := decidableIsIntegral test
      have := decidableIsIntegral yes
      have := decidableIsIntegral no
      inferInstanceAs
        (Decidable
          (test.IsIntegral ∧ yes.IsIntegral ∧ no.IsIntegral))

/- No operand whose value counts has a sign bit that matters. -/
def StaysLow : Tree → Prop
  | .literal _ | .character _ | .defined _ | .reference _ =>
      True
  | .sign _ t => t.StaysLow
  | .operation op l r =>
      l.StaysLow ∧ r.StaysLow ∧
        ∀ a b, l.typedValue? = some a →
          r.typedValue? = some b →
            op.IgnoresSign (operandType op l r)
              (convert (operandType op l r) a)
              (rightOperand op l r b)
  | .connective op l r =>
      l.StaysLow ∧
        ∀ a, l.typedValue? = some a →
          (a = 0 ↔ op = .or) → r.StaysLow
  | .conditional test yes no =>
      test.StaysLow ∧
        ∀ c, test.typedValue? = some c →
          (c ≠ 0 → yes.StaysLow) ∧ (c = 0 → no.StaysLow)

end Tree

end Grammar

------------------------------------------------------------
-- Words
------------------------------------------------------------

section Words

variable {unsigned : Bool}
variable {a b n : Int}

theorem word_word (n : Int) : word (word n) = word n :=
  Int.bmod_bmod ..

theorem word_convert (unsigned : Bool) (n : Int) :
    word (convert unsigned n) = word n := by
  unfold convert word
  cases unsigned
  · rfl
  · exact Int.emod_bmod ..

theorem inType_convert
    {type : Bool}
    (hn : InType type n)
    (hSigned : unsigned = false → type = false) :
    InType unsigned (convert unsigned n) := by
  cases unsigned with
  | false =>
      have hType := hSigned rfl
      subst hType
      exact hn
  | true =>
      exact
        ⟨Int.emod_nonneg n (by decide),
          Int.emod_lt_of_pos n (by decide)⟩

theorem word_fit?
    (hFit : fit? unsigned a = some n) :
    word n = word a ∧ InType unsigned n := by
  unfold fit? at hFit
  cases unsigned with
  | true =>
      rw [if_pos rfl, Option.some.injEq] at hFit
      subst hFit
      exact
        ⟨Int.emod_bmod .., Int.emod_nonneg a (by decide),
          Int.emod_lt_of_pos a (by decide)⟩
  | false =>
      simp only [Bool.false_eq_true, if_false,
        Option.ite_none_right_eq_some, Option.some.injEq]
        at hFit
      rcases hFit with ⟨hType, rfl⟩
      exact ⟨rfl, hType⟩

/- The word of an integer of a type is told by its sign bit. -/
theorem word_of_inType
    (hType : InType unsigned n) :
    word n = if n < 2 ^ 63 then n else n - 2 ^ 64 := by
  unfold word
  unfold InType at hType
  rw [Int.bmod_def]
  cases unsigned <;> simp at hType <;> split <;> split <;> omega

/- Different integers of a type are different words. -/
theorem word_inj
    (ha : InType unsigned a)
    (hb : InType unsigned b) :
    word a = word b ↔ a = b := by
  rw [word_of_inType ha, word_of_inType hb]
  unfold InType at ha hb
  cases unsigned <;> simp at ha hb <;> split <;> split <;> omega

/- Only zero is the word zero. -/
theorem word_eq_zero_iff
    (hType : InType unsigned n) :
    word n = 0 ↔ n = 0 := by
  rw [word_of_inType hType]
  unfold InType at hType
  cases unsigned <;> simp at hType <;> split <;> omega

/- Words are in order where the sign bits of integers are equal. -/
theorem word_lt_iff
    (ha : InType unsigned a)
    (hb : InType unsigned b)
    (hSame : unsigned = true → (a < 2 ^ 63 ↔ b < 2 ^ 63)) :
    word a < word b ↔ a < b := by
  rw [word_of_inType ha, word_of_inType hb]
  unfold InType at ha hb
  cases unsigned <;> simp at ha hb hSame <;>
    split <;> split <;> omega

/- Below the sign bit an integer is its word. -/
theorem word_of_lt
    (hType : InType unsigned n)
    (hLow : unsigned = true → n < 2 ^ 63) :
    word n = n := by
  rw [word_of_inType hType]
  unfold InType at hType
  cases unsigned <;> simp at hType hLow <;> omega

theorem Sign.value_word
    (op : Sign)
    (ha : InType unsigned a)
    (hValue : op.typedValue? unsigned a = some n) :
    op.value (word a) = word n ∧
      InType (if op = .not then false else unsigned) n := by
  cases op with
  | not =>
      simp only [typedValue?, Option.some.injEq] at hValue
      subst hValue
      rw [if_pos rfl, value]
      simp only [word_eq_zero_iff ha]
      split <;> decide
  | minus =>
      rcases word_fit? hValue with ⟨hWord, hType⟩
      refine ⟨?_, hType⟩
      rw [hWord]
      exact Int.bmod_neg_bmod ..
  | plus =>
      simp only [typedValue?, Option.some.injEq] at hValue
      subst hValue
      exact ⟨rfl, ha⟩
  | complement =>
      rcases word_fit? hValue with ⟨hWord, hType⟩
      refine ⟨?_, hType⟩
      have hCongr : word (-word a - 1) = word (-a - 1) := by
        have hSub :
            -word a - 1 = -1 - word a ∧ -a - 1 = -1 - a := by
          omega
        rw [hSub.1, hSub.2]
        exact Int.sub_bmod_bmod
      have hFits : word (-word a - 1) = -word a - 1 := by
        refine word_of_lt (?_ : InType false _) ?_
        · rw [word_of_inType ha]
          unfold InType at ha ⊢
          cases unsigned <;> simp at ha ⊢ <;> split <;> omega
        · exact fun h => by cases h
      rw [hWord, ← hCongr, hFits]
      rfl

/- An operation on bits does not see the type. -/
theorem onBits_word
    (f : BitVec 64 → BitVec 64 → BitVec 64)
    (a b : Int) :
    onBits f (word a) (word b) = onBits f a b := by
  have hBits (n : Int) :
      BitVec.ofInt 64 (word n) = BitVec.ofInt 64 n := by
    apply BitVec.eq_of_toInt_eq
    rw [BitVec.toInt_ofInt, BitVec.toInt_ofInt]
    exact word_word n
  unfold onBits
  rw [hBits, hBits]

theorem bitsOf_word
    (unsigned : Bool)
    (f : BitVec 64 → BitVec 64 → BitVec 64)
    (a b : Int) :
    onBits f (word a) (word b) =
        word (bitsOf unsigned f a b) ∧
      InType unsigned (bitsOf unsigned f a b) := by
  have hType : InType false (onBits f a b) :=
    ⟨BitVec.le_toInt _, BitVec.toInt_lt⟩
  constructor
  · unfold bitsOf
    rw [onBits_word, word_convert]
    exact (BitVec.toInt_bmod_cancel _).symm
  · exact inType_convert hType fun h => rfl

/- A truth value has the word that it is. -/
theorem truth_word
    {p q : Prop}
    [Decidable p]
    [Decidable q]
    (hIff : p ↔ q) :
    (if p then (1 : Int) else 0) =
        word (if q then 1 else 0) ∧
      InType false (if q then 1 else 0) := by
  by_cases hq : q
  · rw [if_pos hq, if_pos (hIff.mpr hq)]
    decide
  · rw [if_neg hq, if_neg (hIff.not.mpr hq)]
    decide

/- Below the sign bit words are divided as integers are. -/
theorem quotient?_word
    {f : Int → Int → Int}
    {q : Int}
    (ha : InType unsigned a)
    (hb : InType unsigned b)
    (hLow : unsigned = true → a < 2 ^ 63 ∧ b < 2 ^ 63)
    (hNonzero : b ≠ 0)
    (hFit : fit? unsigned (a.tdiv b) = some q) :
    quotient? f (word a) (word b) = some (f a b) ∧
      q = a.tdiv b ∧ word q = q := by
  have hQuotient :
      q = a.tdiv b ∧ InType false (a.tdiv b) := by
    unfold fit? at hFit
    cases unsigned with
    | false =>
        simp only [Bool.false_eq_true, if_false,
          Option.ite_none_right_eq_some,
          Option.some.injEq] at hFit
        exact ⟨hFit.2.symm, hFit.1⟩
    | true =>
        rw [if_pos rfl, Option.some.injEq] at hFit
        have hSmaller := Int.tdiv_le_self b ha.1
        have hNonneg := Int.tdiv_nonneg ha.1 hb.1
        have hBound := (hLow rfl).1
        rw [Int.emod_eq_of_lt hNonneg (by omega)] at hFit
        refine ⟨hFit.symm, ?_, ?_⟩ <;> omega
  rcases hQuotient with ⟨rfl, hType⟩
  have hWord : word (a.tdiv b) = a.tdiv b :=
    word_of_lt hType fun h => by cases h
  refine ⟨?_, rfl, hWord⟩
  rw [word_of_lt ha fun h => (hLow h).1,
    word_of_lt hb fun h => (hLow h).2]
  unfold quotient?
  rw [hWord]
  simp [hNonzero]

/- A remainder is less than what it is the remainder of. -/
theorem inType_tmod
    (ha : InType unsigned a)
    (hb : InType unsigned b)
    (hNonzero : b ≠ 0)
    (hLow : unsigned = true → a < 2 ^ 63 ∧ b < 2 ^ 63) :
    InType unsigned (a.tmod b) ∧
      word (a.tmod b) = a.tmod b := by
  have hAbs := Int.natAbs_tmod a b
  have hLess : a.natAbs % b.natAbs < b.natAbs :=
    Nat.mod_lt _ (by omega)
  have hNonneg := fun h => Int.tmod_nonneg (a := a) b h
  have hType : InType unsigned (a.tmod b) := by
    unfold InType at ha hb ⊢
    cases unsigned <;> simp at ha hb ⊢ <;> omega
  refine ⟨hType, word_of_lt hType ?_⟩
  intro h
  have hBounds := hLow h
  subst h
  unfold InType at hb
  simp at hb
  omega

/- What is shifted is shifted by as many bits as before. -/
theorem word_amount
    (hPos : 0 ≤ b)
    (hLess : b < 64) :
    word b = b :=
  Int.bmod_eq_of_le (by omega) (by omega)

theorem Operator.shiftLeft_word
    (hValue :
      Operator.shiftLeft.typedValue? unsigned a b = some n) :
    Operator.shiftLeft.value? (word a) (word b) =
        some (word n) ∧
      InType unsigned n := by
  simp only [typedValue?, Option.ite_none_right_eq_some]
    at hValue
  rcases hValue with ⟨⟨-, hPos, hLess⟩, hFit⟩
  rcases word_fit? hFit with ⟨hWord, hType⟩
  refine ⟨congrArg some ?_, hType⟩
  rw [hWord, word_amount hPos hLess,
    Int.emod_eq_of_lt hPos hLess]
  exact Int.bmod_mul_bmod

/-
  What is shifted to the right gets no larger, so its sign bit
  stays clear; a shift by no bits keeps that bit.
-/
theorem Operator.shiftRight_word
    (ha : InType unsigned a)
    (hValue :
      Operator.shiftRight.typedValue? unsigned a b = some n)
    (hSign : unsigned = true → a < 2 ^ 63 ∨ b = 0) :
    Operator.shiftRight.value? (word a) (word b) =
        some (word n) ∧
      InType unsigned n := by
  simp only [typedValue?, Option.ite_none_right_eq_some,
    Option.some.injEq] at hValue
  rcases hValue with ⟨⟨hLeft, hPos, hLess⟩, rfl⟩
  have hSmaller : a / 2 ^ b.toNat ≤ a :=
    Int.ediv_le_self _ hLeft
  have hNonneg : 0 ≤ a / 2 ^ b.toNat :=
    Int.ediv_nonneg hLeft (by positivity)
  have hType : InType unsigned (a / 2 ^ b.toNat) := by
    unfold InType at ha ⊢
    cases unsigned <;> simp at ha ⊢ <;> omega
  refine ⟨congrArg some ?_, hType⟩
  rw [word_amount hPos hLess, Int.emod_eq_of_lt hPos hLess]
  by_cases hZero : b = 0
  · subst hZero
    simp
  · have hLow : unsigned = true → a < 2 ^ 63 := fun h =>
      (hSign h).resolve_right hZero
    rw [word_of_lt ha hLow, word_of_lt hType]
    intro h
    exact hSmaller.trans_lt (hLow h)

theorem Operator.value?_word
    (op : Operator)
    (ha : InType unsigned a)
    (hb : op.isShift = false → InType unsigned b)
    (hValue : op.typedValue? unsigned a b = some n)
    (hSign : op.IgnoresSign unsigned a b) :
    op.value? (word a) (word b) = some (word n) ∧
      InType (if op.isComparison then false else unsigned)
        n := by
  cases op with
  | bitOr | bitXor | bitAnd =>
      cases hValue
      rcases bitsOf_word unsigned _ a b with ⟨hBits, hType⟩
      exact ⟨congrArg some hBits, hType⟩
  | equal =>
      cases hValue
      have hTruth := truth_word (word_inj ha (hb rfl))
      exact ⟨congrArg some hTruth.1, hTruth.2⟩
  | unequal =>
      cases hValue
      have hTruth :=
        truth_word (word_inj ha (hb rfl)).not
      simp only [ite_not] at hTruth
      exact ⟨congrArg some hTruth.1, hTruth.2⟩
  | less =>
      cases hValue
      have hTruth := truth_word (word_lt_iff ha (hb rfl) hSign)
      exact ⟨congrArg some hTruth.1, hTruth.2⟩
  | greater =>
      cases hValue
      have hTruth :=
        truth_word
          (word_lt_iff (hb rfl) ha fun h => (hSign h).symm)
      exact ⟨congrArg some hTruth.1, hTruth.2⟩
  | lessEqual =>
      cases hValue
      have hTruth :=
        truth_word
          (word_lt_iff (hb rfl) ha
            fun h => (hSign h).symm).not
      simp only [not_lt] at hTruth
      exact ⟨congrArg some hTruth.1, hTruth.2⟩
  | greaterEqual =>
      cases hValue
      have hTruth :=
        truth_word (word_lt_iff ha (hb rfl) hSign).not
      simp only [not_lt] at hTruth
      exact ⟨congrArg some hTruth.1, hTruth.2⟩
  | plus =>
      rcases word_fit? hValue with ⟨hWord, hType⟩
      refine ⟨congrArg some ?_, hType⟩
      rw [hWord]
      exact (Int.add_bmod ..).symm
  | minus =>
      rcases word_fit? hValue with ⟨hWord, hType⟩
      refine ⟨congrArg some ?_, hType⟩
      rw [hWord]
      exact (Int.sub_bmod ..).symm
  | times =>
      rcases word_fit? hValue with ⟨hWord, hType⟩
      refine ⟨congrArg some ?_, hType⟩
      rw [hWord]
      exact (Int.mul_bmod ..).symm
  | shiftLeft => exact shiftLeft_word hValue
  | shiftRight => exact shiftRight_word ha hValue hSign
  | divide =>
      simp only [typedValue?,
        Option.ite_none_left_eq_some] at hValue
      rcases hValue with ⟨hNonzero, hFit⟩
      rcases quotient?_word (f := Int.tdiv) ha (hb rfl) hSign
          hNonzero hFit with
        ⟨hQuotient, rfl, hWord⟩
      rw [hWord]
      exact ⟨hQuotient, (word_fit? hFit).2⟩
  | remainder =>
      simp only [typedValue?, Option.ite_none_left_eq_some,
        Option.map_eq_some_iff] at hValue
      rcases hValue with ⟨hNonzero, q, hFit, rfl⟩
      rcases inType_tmod ha (hb rfl) hNonzero hSign with
        ⟨hType, hWord⟩
      rw [hWord]
      exact
        ⟨(quotient?_word ha (hb rfl) hSign hNonzero hFit).1,
          hType⟩

/- A connective that its first operand decides has its truth. -/
theorem Connective.value_of_first
    (op : Connective)
    {k k' : Int}
    (hZero : k = 0 ↔ a = 0)
    (hDecides : ¬ (a = 0 ↔ op = .or)) :
    op.value k k' = if a ≠ 0 then 1 else 0 := by
  cases op <;> simp at hDecides <;>
    simp [Connective.value, hZero, hDecides]

/- Otherwise it has the truth of the second one. -/
theorem Connective.value_of_second
    (op : Connective)
    {k k' : Int}
    (hZero : k = 0 ↔ a = 0)
    (hZero' : k' = 0 ↔ b = 0)
    (hOpen : a = 0 ↔ op = .or) :
    op.value k k' = if b ≠ 0 then 1 else 0 := by
  cases op <;>
    simp [Connective.value, hZero, hZero', hOpen]

end Words

namespace Grammar

namespace Tree

section Operands

variable {a b n : Int}
variable {l r : Tree}

/- Operands have the type that an operator brings them to. -/
theorem inType_leftOperand
    (op : Operator)
    (r : Tree)
    (hType : InType l.isUnsigned a) :
    InType (operandType op l r)
      (convert (operandType op l r) a) := by
  apply inType_convert hType
  unfold operandType
  cases op.isShift <;> simp
  tauto

theorem inType_rightOperand
    (op : Operator)
    (l : Tree)
    (hType : InType r.isUnsigned b)
    (hShift : op.isShift = false) :
    InType (operandType op l r) (rightOperand op l r b) := by
  unfold rightOperand
  rw [hShift, if_neg Bool.false_ne_true]
  apply inType_convert hType
  unfold operandType
  rw [hShift]
  simp

theorem word_rightOperand
    (op : Operator)
    (l r : Tree)
    (b : Int) :
    word (rightOperand op l r b) = word b := by
  unfold rightOperand
  split
  · rfl
  · exact word_convert _ _

/-
  A connective has the word of its truth, if the operands that
  count have the words of their values.
-/
theorem constant_connective
    {op : Connective}
    (hLeft :
      ∀ a, l.typedValue? = some a →
        l.constant = word a ∧ InType l.isUnsigned a)
    (hRight :
      ∀ a b, l.typedValue? = some a → (a = 0 ↔ op = .or) →
        r.typedValue? = some b →
          r.constant = word b ∧ InType r.isUnsigned b)
    (hValue :
      (Tree.connective op l r).typedValue? = some n) :
    (Tree.connective op l r).constant = word n ∧
      InType false n := by
  have hTruth (k : Int) :
      (if k ≠ 0 then (1 : Int) else 0) =
          word (if k ≠ 0 then 1 else 0) ∧
        InType false (if k ≠ 0 then 1 else 0) :=
    truth_word Iff.rfl
  rcases Option.bind_eq_some_iff.mp hValue with
    ⟨a, ha, hRest⟩
  rcases hLeft a ha with ⟨hWord, hType⟩
  have hZero : l.constant = 0 ↔ a = 0 := by
    rw [hWord, word_eq_zero_iff hType]
  by_cases hOther : a = 0 ↔ op = .or
  · rw [if_pos hOther] at hRest
    rcases Option.map_eq_some_iff.mp hRest with
      ⟨b, hb, rfl⟩
    rcases hRight a b ha hOther hb with ⟨hWord', hType'⟩
    have hZero' : r.constant = 0 ↔ b = 0 := by
      rw [hWord', word_eq_zero_iff hType']
    refine ⟨?_, (hTruth b).2⟩
    rw [← (hTruth b).1]
    exact op.value_of_second hZero hZero' hOther
  · rw [if_neg hOther, Option.some.injEq] at hRest
    subst hRest
    refine ⟨?_, (hTruth a).2⟩
    rw [← (hTruth a).1]
    exact op.value_of_first hZero hOther

/- A choice has the word of what it chooses, converted. -/
theorem constant_conditional
    {test yes no : Tree}
    (hTest :
      ∀ c, test.typedValue? = some c →
        test.constant = word c ∧ InType test.isUnsigned c)
    (hYes :
      ∀ c n, test.typedValue? = some c → c ≠ 0 →
        yes.typedValue? = some n →
          yes.constant = word n ∧ InType yes.isUnsigned n)
    (hNo :
      ∀ c n, test.typedValue? = some c → c = 0 →
        no.typedValue? = some n →
          no.constant = word n ∧ InType no.isUnsigned n)
    (hValue :
      (Tree.conditional test yes no).typedValue? = some n) :
    (Tree.conditional test yes no).constant = word n ∧
      InType (yes.isUnsigned || no.isUnsigned) n := by
  rcases Option.bind_eq_some_iff.mp hValue with
    ⟨c, hc, hRest⟩
  rcases Option.map_eq_some_iff.mp hRest with ⟨m, hm, rfl⟩
  rcases hTest c hc with ⟨hWord, hType⟩
  have hZero : test.constant ≠ 0 ↔ c ≠ 0 := by
    rw [hWord, Ne, word_eq_zero_iff hType]
  have hConstant :
      (Tree.conditional test yes no).constant =
        if test.constant ≠ 0 then yes.constant
        else no.constant := rfl
  rw [hConstant, word_convert]
  simp only [hZero]
  by_cases hChoice : c ≠ 0
  · rw [if_pos hChoice] at hm ⊢
    rcases hYes c m hc hChoice hm with ⟨hWord', hType'⟩
    refine ⟨hWord', inType_convert hType' ?_⟩
    intro h
    exact (Bool.or_eq_false_iff.mp h).1
  · rw [if_neg hChoice] at hm ⊢
    rcases hNo c m hc (not_not.mp hChoice) hm with
      ⟨hWord', hType'⟩
    refine ⟨hWord', inType_convert hType' ?_⟩
    intro h
    exact (Bool.or_eq_false_iff.mp h).2

end Operands

/-
  The word of a tree is that of its value in its type, by
  induction on the tree.
-/
theorem constant_eq_word
    {tree : Tree}
    {n : Int}
    (hIntegral : tree.IsIntegral)
    (hLow : tree.StaysLow)
    (hValue : tree.typedValue? = some n) :
    tree.constant = word n ∧ InType tree.isUnsigned n := by
  induction tree generalizing n with
  | literal l =>
      cases hValue
      exact ⟨rfl, hIntegral⟩
  | character text => cases hIntegral
  | defined name => cases hIntegral
  | reference name => cases hIntegral
  | sign op t ih =>
      rcases Option.bind_eq_some_iff.mp hValue with
        ⟨a, ha, hResult⟩
      rcases ih hIntegral hLow ha with ⟨hWord, hType⟩
      rcases op.value_word hType hResult with
        ⟨hValueWord, hValueType⟩
      refine ⟨?_, ?_⟩
      · rw [← hValueWord, ← hWord]
        rfl
      · cases op <;> exact hValueType
  | operation op l r ihl ihr =>
      rcases Option.bind_eq_some_iff.mp hValue with
        ⟨a, ha, hRest⟩
      rcases Option.bind_eq_some_iff.mp hRest with
        ⟨b, hb, hResult⟩
      rcases hLow with ⟨hLeft, hRight, hSign⟩
      rcases ihl hIntegral.1 hLeft ha with ⟨hWord, hType⟩
      rcases ihr hIntegral.2 hRight hb with ⟨hWord', hType'⟩
      rcases
          op.value?_word (inType_leftOperand op r hType)
            (inType_rightOperand op l hType') hResult
            (hSign a b ha hb) with
        ⟨hValueWord, hValueType⟩
      rw [word_convert, word_rightOperand, ← hWord, ← hWord']
        at hValueWord
      refine ⟨?_, ?_⟩
      · change (op.value? l.constant r.constant).getD 0 = _
        rw [hValueWord]
        rfl
      · unfold isUnsigned
        cases op <;> exact hValueType
  | connective op l r ihl ihr =>
      rcases hIntegral with ⟨hLeft, hRight⟩
      rcases hLow with ⟨hLowLeft, hLowRight⟩
      apply constant_connective _ _ hValue
      · intro a ha
        exact ihl hLeft hLowLeft ha
      · intro a b ha hOther hb
        exact ihr hRight (hLowRight a ha hOther) hb
  | conditional test yes no ihTest ihYes ihNo =>
      rcases hIntegral with ⟨hTest, hYes, hNo⟩
      rcases hLow with ⟨hLowTest, hLowRest⟩
      apply constant_conditional _ _ _ hValue
      · intro c hc
        exact ihTest hTest hLowTest hc
      · intro c m hc hChoice hm
        exact ihYes hYes ((hLowRest c hc).1 hChoice) hm
      · intro c m hc hChoice hm
        exact ihNo hNo ((hLowRest c hc).2 hChoice) hm

end Tree

end Grammar

end Variability
