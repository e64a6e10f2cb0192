import Mathlib

/-! C `double`s: the values, IEEE comparison, and rounding to binary64 (to nearest, ties to even). -/
namespace Hscl

/-- A `double`: a finite value, an infinity (`neg` for `-inf`), or NaN. -/
inductive Dbl (R : Type)
  | num (v : R)
  | inf (neg : Bool)
  | nan
  deriving DecidableEq, Repr

namespace Dbl
variable {R : Type} [LinearOrder R]

/-- IEEE `<`, false when an operand is NaN. -/
def lt : Dbl R → Dbl R → Bool
  | num a, num b => decide (a < b)
  | inf true, num _ | num _, inf false | inf true, inf false => true
  | _, _ => false

/-- IEEE `<=`, false when an operand is NaN. -/
def le : Dbl R → Dbl R → Bool
  | num a, num b => decide (a ≤ b)
  | inf true, num _ | num _, inf false => true
  | inf s, inf t => s || !t
  | _, _ => false

variable {a b : R}

@[simp] theorem lt_num : lt (num a) (num b) = decide (a < b) := rfl
@[simp] theorem le_num : le (num a) (num b) = decide (a ≤ b) := rfl

end Dbl

open Dbl
variable {R : Type} [LinearOrderedField R] [FloorRing R]

/-- `y` rounded to the nearest integer, a tie to the even one. -/
def roundEven (y : R) : ℤ :=
  if y - ⌊y⌋ < 1 / 2 then ⌊y⌋
  else if 1 / 2 < y - ⌊y⌋ then ⌊y⌋ + 1
  else if ⌊y⌋ % 2 = 0 then ⌊y⌋ else ⌊y⌋ + 1

/-- `x` as a `double`: 53 significant bits at exponents from `-1022` up and the spacing
`2^-1074` below, to nearest with ties to even, and an infinity once the rounded magnitude
reaches `2^1024`. The sign of zero is not kept. -/
@[irreducible] def roundBinary64 (x : R) : Dbl R :=
  let q : R := 2 ^ (max (Int.log 2 |x|) (-1022) - 52)
  let r : R := roundEven (|x| / q) * q
  if (2 : R) ^ 1024 ≤ r then inf (decide (x < 0)) else num (if x < 0 then -r else r)

section RoundEven
variable {y : R} {m : ℤ}

@[simp] theorem roundEven_intCast (m : ℤ) : roundEven (m : R) = m := by
  simp [roundEven]

theorem roundEven_eq (h₁ : (m : R) - 1 / 2 < y) (h₂ : y < m + 1 / 2) : roundEven y = m := by
  rcases le_or_lt (m : R) y with hm | hm
  · have hf : ⌊y⌋ = m := Int.floor_eq_iff.mpr ⟨hm, by linarith⟩
    rw [roundEven, hf, if_pos (by linarith)]
  · have hf : ⌊y⌋ = m - 1 := Int.floor_eq_iff.mpr ⟨by push_cast; linarith, by push_cast; linarith⟩
    rw [roundEven, hf, if_neg (by push_cast; linarith), if_pos (by push_cast; linarith), sub_add_cancel]

theorem roundEven_add_half (hm : m % 2 = 0) : roundEven ((m : R) + 1 / 2) = m := by
  have hf : ⌊(m : R) + 1 / 2⌋ = m := Int.floor_eq_iff.mpr ⟨by linarith, by linarith⟩
  rw [roundEven, hf, add_sub_cancel_left, if_neg (lt_irrefl _), if_neg (lt_irrefl _), if_pos hm]

end RoundEven

section Round
variable {x : R}

theorem log_two_eq {e : ℤ} (hx : 0 < x) (h₁ : (2 : R) ^ e ≤ x) (h₂ : x < 2 ^ (e + 1)) :
    Int.log 2 x = e := by
  have h₁' := (Int.zpow_le_iff_le_log (R := R) (b := 2) one_lt_two hx).mp (by exact_mod_cast h₁)
  have h₂' := (Int.lt_zpow_iff_log_lt (R := R) (b := 2) one_lt_two hx).mp (by exact_mod_cast h₂)
  omega

/-- A positive `x` in `[2^e, 2^(e+1))` with `e ≥ -1022` rounds at spacing `2^(e-52)`. -/
theorem roundBinary64_of_pos {e : ℤ} (hx : 0 < x) (h₁ : (2 : R) ^ e ≤ x) (h₂ : x < 2 ^ (e + 1))
    (he : -1022 ≤ e) (hov : (roundEven (x / 2 ^ (e - 52)) : R) * 2 ^ (e - 52) < 2 ^ 1024) :
    roundBinary64 x = num ((roundEven (x / 2 ^ (e - 52)) : R) * 2 ^ (e - 52)) := by
  rw [roundBinary64, abs_of_pos hx, log_two_eq hx h₁ h₂, max_eq_left he]
  simp only [if_neg (not_le.mpr hov), if_neg (not_lt.mpr hx.le)]

/-- A value `m 2^k` with `|m| < 2^53` and `-1074 ≤ k ≤ 971` is a `double`: rounding leaves it
unchanged. -/
theorem roundBinary64_of_repr {m k : ℤ} (hm : |m| < 2 ^ 53) (hk : -1074 ≤ k) (hk' : k ≤ 971) :
    roundBinary64 ((m : R) * 2 ^ k) = num ((m : R) * 2 ^ k) := by
  rcases eq_or_ne m 0 with rfl | hm0
  · have h0 : roundEven (0 : R) = 0 := by simpa using roundEven_intCast (R := R) 0
    simp [roundBinary64, h0]
  have hlt : |(m : R) * 2 ^ k| < ((2 : ℕ) : R) ^ (k + 53) := by
    rw [Nat.cast_ofNat, abs_mul, abs_of_pos (zpow_pos (two_pos (α := R)) k), zpow_add₀ two_ne_zero,
      mul_comm (2 ^ k : R)]
    exact mul_lt_mul_of_pos_right (by exact_mod_cast hm) (zpow_pos two_pos k)
  have hov : |(m : R) * 2 ^ k| < 2 ^ 1024 := by
    refine hlt.trans_le ?_
    rw [Nat.cast_ofNat, ← zpow_natCast]
    exact zpow_le_zpow_right₀ one_le_two (by omega)
  set E := max (Int.log 2 |(m : R) * 2 ^ k|) (-1022)
  have hE : E - 52 ≤ k := by
    have hpos : (0 : R) < |(m : R) * 2 ^ k| := abs_pos.mpr (mul_ne_zero (by exact_mod_cast hm0) (by positivity))
    have := (Int.lt_zpow_iff_log_lt (b := 2) one_lt_two hpos).mp hlt
    omega
  obtain ⟨j, hj⟩ : ∃ j : ℕ, k - (E - 52) = j := ⟨(k - (E - 52)).toNat, (Int.toNat_of_nonneg (by omega)).symm⟩
  have hdiv : |(m : R) * 2 ^ k| / 2 ^ (E - 52) = ((|m| * 2 ^ j : ℤ) : R) := by
    rw [abs_mul, abs_of_pos (zpow_pos (two_pos (α := R)) k), mul_div_assoc, ← zpow_sub₀ two_ne_zero, hj,
      zpow_natCast]
    push_cast; rfl
  have hr : (roundEven (|(m : R) * 2 ^ k| / 2 ^ (E - 52)) : R) * 2 ^ (E - 52) = |(m : R) * 2 ^ k| := by
    rw [hdiv, roundEven_intCast, ← hdiv, div_mul_cancel₀ _ (zpow_ne_zero _ two_ne_zero)]
  rw [roundBinary64]
  simp only [hr, if_neg (not_le.mpr hov)]
  split_ifs with hneg
  · rw [abs_of_neg hneg, neg_neg]
  · rw [abs_of_nonneg (not_lt.mp hneg)]

theorem roundBinary64_natCast {n : ℕ} (h : n < 2 ^ 53) : roundBinary64 (n : R) = num (n : R) := by
  simpa using roundBinary64_of_repr (R := R) (m := n) (k := 0)
    (by rw [abs_of_nonneg (by positivity)]; exact_mod_cast h) (by norm_num) (by norm_num)

theorem roundBinary64_two_pow {k : ℕ} (hk : k ≤ 971) : roundBinary64 ((2 : R) ^ k) = num (2 ^ k) := by
  simpa using roundBinary64_of_repr (R := R) (m := 1) (k := k) (by norm_num) (by omega) (by omega)

@[simp] theorem roundBinary64_zero : roundBinary64 (0 : R) = num 0 := by
  simpa using roundBinary64_natCast (R := R) (n := 0) (by norm_num)

@[simp] theorem roundBinary64_one : roundBinary64 (1 : R) = num 1 := by
  simpa using roundBinary64_natCast (R := R) (n := 1) (by norm_num)

@[simp] theorem roundBinary64_ofNat (n : ℕ) [n.AtLeastTwo] (h : n < 2 ^ 53) :
    roundBinary64 (no_index (OfNat.ofNat n) : R) = num (OfNat.ofNat n) := by
  simpa using roundBinary64_natCast (R := R) h

theorem roundBinary64_ne_nan (x : R) : roundBinary64 x ≠ nan := by
  intro h
  unfold roundBinary64 at h
  dsimp only at h
  split at h <;> cases h

end Round

end Hscl
