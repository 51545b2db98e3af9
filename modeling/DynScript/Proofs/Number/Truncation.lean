import Mathlib
import DynScript.Run.Native
import DynScript.Run.Operators

/-!
# Numbers that are cut down to whole ones

The bounds of a loop and the code of an exit are whole numbers of 64 and of 32 bits. A number is brought to one of them
by leaving out its fraction, whatever its sign, and by taking the nearest end of the range where it lies outside; what
is not a number becomes 0. Here this is said of the rational numbers that floating-point numbers are.
-/

namespace DynScript.Number

open Float.Model
open Float.Model.UnpackedFloat (Sign ExtendedMantissa)

/-- How much a number is. -/
inductive Amount where
  /-- It is none. -/
  | notANumber
  /-- Less than every rational number. -/
  | below
  /-- More than every rational number. -/
  | above
  /-- A rational number. -/
  | rational (q : ℚ)

/-- How much a floating-point number is. -/
def amount (x : Float) : Amount :=
  match x.toModel.unpack with
  | .notANumber => .notANumber
  | .infinity .negative => .below
  | .infinity .positive => .above
  | .zero _ => .rational 0
  | .finite sign mantissa exponent _ => .rational (sign.apply mantissa * 2 ^ exponent)

/-- A rational number without its fraction. -/
def towardZero (q : ℚ) : ℤ := if 0 ≤ q then ⌊q⌋ else ⌈q⌉

/-- The whole number between `low` and `high` that a number is cut down to. -/
def cut (low high : ℤ) (x : Float) : ℤ :=
  match amount x with
  | .notANumber => 0
  | .below => low
  | .above => high
  | .rational q => max low (min high (towardZero q))

theorem towardZero_of_nonneg {q : ℚ} (h : 0 ≤ q) : towardZero q = ⌊q⌋ := if_pos h

theorem towardZero_neg (q : ℚ) : towardZero (-q) = -towardZero q := by
  unfold towardZero
  rcases lt_trichotomy q 0 with h | rfl | h
  · rw [if_pos (by linarith), if_neg (by linarith), Int.floor_neg]
  · simp
  · rw [if_neg (by linarith), if_pos h.le, Int.ceil_neg]

/-- The fraction is left out of the amount without the sign. -/
theorem towardZero_apply (s : Sign) (n : ℕ) (q : ℚ) :
    towardZero (s.apply n * q) = s.apply (towardZero (n * q)) := by
  cases s with
  | negative =>
    rw [show ((Sign.negative.apply n : ℤ) : ℚ) * q = -(n * q) by simp [Sign.apply], towardZero_neg]
    rfl
  | positive =>
    rw [show ((Sign.positive.apply n : ℤ) : ℚ) * q = n * q by simp [Sign.apply]]
    rfl

theorem mantissa_shiftRight (em : ExtendedMantissa) (n : ℕ) : (em >>> n).mantissa = em.mantissa / 2 ^ n := by
  induction n with
  | zero => exact (Nat.div_one _).symm
  | succ n ih =>
    rw [show (em >>> (n + 1)).mantissa = (em >>> n).mantissa / 2 from rfl, ih, Nat.div_div_eq_div_mul, pow_succ]

/-- Bits are dropped from a mantissa, or added to it, until the exponent is 0. -/
theorem roundToInt_eq (s : Sign) (m : ℕ) (e : ℤ) :
    UnpackedFloat.roundToInt s m e = towardZero (s.apply m * 2 ^ e) := by
  have hmantissa : UnpackedFloat.roundToInt s m e =
      s.apply ((m <<< (e - 0).toNat / 2 ^ (0 - (e - (e - 0).toNat)).toNat : ℕ) : ℤ) :=
    congrArg (fun n : ℕ => s.apply n) (mantissa_shiftRight _ _)
  rw [hmantissa, towardZero_apply, Nat.shiftLeft_eq]
  refine congrArg s.apply ?_
  rcases le_total 0 e with he | he
  · obtain ⟨k, rfl⟩ := Int.eq_ofNat_of_zero_le he
    have hwhole : (m : ℚ) * 2 ^ (k : ℤ) = ((m * 2 ^ k : ℕ) : ℚ) := by
      push_cast
      rw [zpow_natCast]
    rw [hwhole, towardZero_of_nonneg (Nat.cast_nonneg _), Int.floor_natCast]
    simp
  · obtain ⟨k, hk⟩ := Int.eq_ofNat_of_zero_le (Int.neg_nonneg.2 he)
    obtain rfl : e = -(k : ℤ) := by omega
    have hquotient : (m : ℚ) * 2 ^ (-(k : ℤ)) = (m : ℚ) / ((2 ^ k : ℕ) : ℚ) := by
      rw [zpow_neg, zpow_natCast, div_eq_mul_inv]
      push_cast
      rfl
    rw [hquotient, towardZero_of_nonneg (by positivity), Rat.floor_natCast_div_natCast]
    simp

/-- Ends of a range apart, a number is cut down to what its fraction leaves of it. -/
theorem cut_eq (low high : ℤ) (hlow : low ≤ 0) (hhigh : 0 ≤ high) (x : Float) :
    cut low high x = max low (min high (x.toModel.unpack.toInt low high)) := by
  unfold cut amount
  cases x.toModel.unpack with
  | notANumber => simp [UnpackedFloat.toInt, hlow, hhigh]
  | infinity s => cases s <;> simp [UnpackedFloat.toInt, hlow.trans hhigh]
  | zero s => simp [UnpackedFloat.toInt, towardZero]
  | finite s m e h => rw [UnpackedFloat.toInt, roundToInt_eq]

theorem toInt_ofIntClamp_int32 (n : ℤ) : (Int32.ofIntClamp n).toInt = max (-2 ^ 31) (min (2 ^ 31 - 1) n) := by
  have hlow : Int32.minValue.toInt = -2 ^ 31 := rfl
  have hhigh : Int32.maxValue.toInt = 2 ^ 31 - 1 := rfl
  unfold Int32.ofIntClamp
  split_ifs with h h'
  · rw [Int32.toInt_ofIntLE]
    omega
  · omega
  · omega

theorem toInt_ofIntClamp_int64 (n : ℤ) : (Int64.ofIntClamp n).toInt = max (-2 ^ 63) (min (2 ^ 63 - 1) n) := by
  have hlow : Int64.minValue.toInt = -2 ^ 63 := rfl
  have hhigh : Int64.maxValue.toInt = 2 ^ 63 - 1 := rfl
  unfold Int64.ofIntClamp
  split_ifs with h h'
  · rw [Int64.toInt_ofIntLE]
    omega
  · omega
  · omega

/-- The code of an exit has 32 bits. -/
theorem exitCode_eq_cut (x : Float) : Native.exitCode x = cut (-2 ^ 31) (2 ^ 31 - 1) x := by
  rw [cut_eq _ _ (by norm_num) (by norm_num)]
  exact toInt_ofIntClamp_int32 _

/-- The bounds of a loop have 64 bits. -/
theorem integer_eq_cut (x : Float) : Value.integer x = cut (-2 ^ 63) (2 ^ 63 - 1) x := by
  rw [cut_eq _ _ (by norm_num) (by norm_num)]
  exact toInt_ofIntClamp_int64 _

end DynScript.Number
