import Mathlib.Data.Int.Bitwise
import Variability.Proofs.Expression.Concrete

/-
  The operators on integers.

  The words of 64 bits compute what the operators are for
  integers with sign: sums, products and what is shifted to the
  left are taken modulo 2 to the power of 64, and an amount to
  shift by is taken modulo 64.

  Main declarations:
    * `Operator.value?`
    * `Operator.toInt_compute?`
-/

namespace Variability

/- The integer with sign that fits 64 bits and is congruent. -/
def word (n : Int) : Int :=
  n.bmod (2 ^ 64)

/- The value of an operator in front of an integer. -/
def Sign.value (n : Int) : Sign → Int
  | .not => if n = 0 then 1 else 0
  | .minus => word (-n)
  | .plus => n
  | .complement => -n - 1

/- The value of a connective of integers. -/
def Connective.value (a b : Int) : Connective → Int
  | .or => if a ≠ 0 ∨ b ≠ 0 then 1 else 0
  | .and => if a ≠ 0 ∧ b ≠ 0 then 1 else 0

/- An operation on the bits of two integers. -/
def onBits
    (f : BitVec 64 → BitVec 64 → BitVec 64)
    (a b : Int) :
    Int :=
  (f (BitVec.ofInt 64 a) (BitVec.ofInt 64 b)).toInt

/- What a division gives, unless it fails. -/
def quotient? (f : Int → Int → Int) (a b : Int) : Option Int :=
  if b = 0 ∨ a.tdiv b ≠ word (a.tdiv b) then none
  else some (f a b)

/-
  The value of an operation on integers. A division fails if it
  is by zero or its quotient does not fit.
-/
def Operator.value? (a b : Int) : Operator → Option Int
  | .bitOr => some (onBits (· ||| ·) a b)
  | .bitXor => some (onBits (· ^^^ ·) a b)
  | .bitAnd => some (onBits (· &&& ·) a b)
  | .equal => some (if a = b then 1 else 0)
  | .unequal => some (if a = b then 0 else 1)
  | .less => some (if a < b then 1 else 0)
  | .greater => some (if b < a then 1 else 0)
  | .lessEqual => some (if a ≤ b then 1 else 0)
  | .greaterEqual => some (if b ≤ a then 1 else 0)
  | .shiftLeft => some (word (a * 2 ^ (b % 64).toNat))
  | .shiftRight => some (a / 2 ^ (b % 64).toNat)
  | .plus => some (word (a + b))
  | .minus => some (word (a - b))
  | .times => some (word (a * b))
  | .divide => quotient? Int.tdiv a b
  | .remainder => quotient? Int.tmod a b

variable {v w : Int64}

theorem word_toInt (v : Int64) : word v.toInt = v.toInt :=
  v.toInt_bmod

/- A truth value as a word. -/
theorem toInt_ite
    {p : Prop}
    [Decidable p]
    (a b : Int64) :
    (if p then a else b).toInt =
      if p then a.toInt else b.toInt := by
  split <;> rfl

theorem toInt_eq_zero_iff (v : Int64) :
    v.toInt = 0 ↔ v = 0 := by
  rw [← Int64.toInt_inj]
  rfl

theorem Connective.toInt_apply
    (op : Connective)
    (v w : Int64) :
    (op.apply v w).toInt = op.value v.toInt w.toInt := by
  cases op <;>
    simp only [apply, value, holds, toInt_ite, ne_eq,
      toInt_eq_zero_iff, decide_eq_true_eq] <;>
    rfl

theorem Sign.toInt_apply
    (op : Sign)
    (v : Int64) :
    (op.apply v).toInt = op.value v.toInt := by
  cases op with
  | not =>
      simp only [apply, value, toInt_ite, toInt_eq_zero_iff]
      rfl
  | minus => exact v.toInt_neg
  | plus => rfl
  | complement =>
      rw [apply, Int64.toInt_not, value]
      have hLow := v.le_toInt
      have hHigh := v.toInt_lt
      exact Int.bmod_eq_of_le (by omega) (by omega)

theorem toInt_onBits
    (f : BitVec 64 → BitVec 64 → BitVec 64)
    (v w : Int64) :
    (f v.toBitVec w.toBitVec).toInt =
      onBits f v.toInt w.toInt := by
  unfold onBits
  rw [← Int64.toInt_toBitVec, ← Int64.toInt_toBitVec,
    BitVec.ofInt_toInt, BitVec.ofInt_toInt]

/- A word shifts by the low six bits of its amount. -/
theorem toNat_smod (w : Int64) :
    (w.toBitVec.smod 64).toNat = (w.toInt % 64).toNat := by
  have hInt : (w.toBitVec.smod 64).toInt = w.toInt % 64 := by
    rw [BitVec.toInt_smod, Int64.toInt_toBitVec]
    exact Int.fmod_eq_emod_of_nonneg _ (by decide)
  have hLow : 0 ≤ w.toInt % 64 := by omega
  rw [← hInt] at hLow ⊢
  have hCond :=
    BitVec.toInt_eq_toNat_cond (w.toBitVec.smod 64)
  have hLt := (w.toBitVec.smod 64).isLt
  split at hCond <;> omega

theorem toInt_shiftLeft (v w : Int64) :
    (v <<< w).toInt =
      word (v.toInt * 2 ^ (w.toInt % 64).toNat) := by
  have hBits :
      v.toInt = ((v.toBitVec.toNat : Nat) : Int).bmod (2 ^ 64) := by
    rw [← Int64.toInt_toBitVec]
    exact BitVec.toInt_eq_toNat_bmod _
  unfold word
  rw [← Int64.toInt_toBitVec, Int64.toBitVec_shiftLeft,
    BitVec.shiftLeft_eq', BitVec.toInt_shiftLeft, toNat_smod,
    Nat.shiftLeft_eq, hBits, Int.bmod_mul_bmod]
  norm_cast

theorem toInt_shiftRight (v w : Int64) :
    (v >>> w).toInt =
      v.toInt / 2 ^ (w.toInt % 64).toNat := by
  rw [← Int64.toInt_toBitVec, Int64.toBitVec_shiftRight,
    BitVec.sshiftRight', BitVec.toInt_sshiftRight,
    toNat_smod, Int.shiftRight_eq_div_pow,
    Int64.toInt_toBitVec]
  norm_cast

/- A quotient of words fits except for one. -/
theorem quotient_fits_iff :
    v.toInt.tdiv w.toInt = word (v.toInt.tdiv w.toInt) ↔
      ¬ (v = Int64.minValue ∧ w = -1) := by
  constructor
  · rintro hFits ⟨rfl, rfl⟩
    revert hFits
    decide
  · intro hOther
    have hQuotient : (v / w).toInt = v.toInt.tdiv w.toInt := by
      rcases not_and_or.mp hOther with hv | hw
      · exact Int64.toInt_div_of_ne_left v w hv
      · exact Int64.toInt_div_of_ne_right v w hw
    rw [← hQuotient, word_toInt]

theorem toInt_divided?
    {f : Int64 → Int64 → Int64}
    {g : Int → Int → Int}
    (hValue :
      v.toInt.tdiv w.toInt = word (v.toInt.tdiv w.toInt) →
        (f v w).toInt = g v.toInt w.toInt) :
    (divided? f v w).map Int64.toInt =
      quotient? g v.toInt w.toInt := by
  have hZero := (toInt_eq_zero_iff w).symm
  have hFails :
      (w = 0 ∨ v = Int64.minValue ∧ w = -1) ↔
        (w.toInt = 0 ∨
          v.toInt.tdiv w.toInt ≠
            word (v.toInt.tdiv w.toInt)) := by
    rw [Ne, quotient_fits_iff, not_not, hZero]
  unfold divided? quotient?
  by_cases hFail : w = 0 ∨ v = Int64.minValue ∧ w = -1
  · rw [if_pos hFail, if_pos (hFails.mp hFail)]
    rfl
  · rw [if_neg hFail, if_neg (hFails.not.mp hFail),
      Option.map_some]
    refine congrArg some (hValue ?_)
    exact quotient_fits_iff.mpr fun h => hFail (.inr h)

/- The operators compute what they are for integers. -/
theorem Operator.toInt_compute?
    (op : Operator)
    (v w : Int64) :
    (op.compute? v w).map Int64.toInt =
      op.value? v.toInt w.toInt := by
  have hEq : v = w ↔ v.toInt = w.toInt :=
    Int64.toInt_inj.symm
  cases op with
  | bitOr => exact congrArg some (toInt_onBits (· ||| ·) v w)
  | bitXor => exact congrArg some (toInt_onBits (· ^^^ ·) v w)
  | bitAnd => exact congrArg some (toInt_onBits (· &&& ·) v w)
  | equal | unequal =>
      simp only [compute?, value?, Option.map_some, toInt_ite,
        hEq]
      rfl
  | less | greater =>
      simp only [compute?, value?, Option.map_some, toInt_ite,
        Int64.lt_iff_toInt_lt]
      rfl
  | lessEqual | greaterEqual =>
      simp only [compute?, value?, Option.map_some, toInt_ite,
        Int64.le_iff_toInt_le]
      rfl
  | shiftLeft => exact congrArg some (toInt_shiftLeft v w)
  | shiftRight => exact congrArg some (toInt_shiftRight v w)
  | plus => exact congrArg some (Int64.toInt_add v w)
  | minus => exact congrArg some (Int64.toInt_sub v w)
  | times => exact congrArg some (Int64.toInt_mul v w)
  | divide =>
      apply toInt_divided?
      intro hFits
      rw [Int64.toInt_div]
      exact hFits.symm
  | remainder =>
      apply toInt_divided?
      intro _
      exact Int64.toInt_mod v w

end Variability
