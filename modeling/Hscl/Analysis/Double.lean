import Hscl.Harness.Binary64

/-! The analyzers' `double` arithmetic, each result rounded by the carrier's `Rounding`. -/
namespace Hscl
open Dbl

/-- How an operation's exact result, or a converted integer, becomes a `double`. -/
class Rounding (R : Type) where
  round : R → Dbl R

/-- Exact arithmetic, the rounding of a plain field: nothing is rounded. -/
instance (priority := low) Rounding.exact {R : Type} : Rounding R := ⟨num⟩

/-- The rationals as the code's doubles compute with them: every result rounded to binary64. -/
def Binary64 : Type := ℚ

instance : LinearOrderedField Binary64 := inferInstanceAs (LinearOrderedField ℚ)
instance : FloorRing Binary64 := inferInstanceAs (FloorRing ℚ)
instance : Rounding Binary64 := ⟨roundBinary64⟩

/-- `(double)x` of an unsigned integer `x`. -/
def toDouble {R : Type} [NatCast R] [Rounding R] (x : ℕ) : Dbl R := Rounding.round (x : R)

namespace Dbl
variable {R : Type}

def neg [Neg R] : Dbl R → Dbl R
  | num a => num (-a)
  | inf s => inf (!s)
  | nan => nan

def fabs [LinearOrderedField R] : Dbl R → Dbl R
  | num a => num |a|
  | inf _ => inf false
  | nan => nan

/-- A value `printf` shows as a number. -/
def isFinite : Dbl R → Bool
  | num _ => true
  | _ => false

variable [LinearOrderedField R] [Rounding R]

/-- IEEE addition: opposite infinities give NaN, NaN absorbs. -/
def add : Dbl R → Dbl R → Dbl R
  | num a, num b => Rounding.round (a + b)
  | num _, inf s | inf s, num _ => inf s
  | inf s, inf t => if s = t then inf s else nan
  | _, _ => nan

/-- IEEE multiplication: zero times an infinity is NaN. -/
def mul : Dbl R → Dbl R → Dbl R
  | num a, num b => Rounding.round (a * b)
  | num a, inf s | inf s, num a => if a = 0 then nan else inf (s != decide (a < 0))
  | inf s, inf t => inf (s != t)
  | _, _ => nan

/-- IEEE division: a nonzero value over zero is an infinity, `0/0` and `inf/inf` are NaN. -/
def div : Dbl R → Dbl R → Dbl R
  | num a, num b => if b = 0 then (if a = 0 then nan else inf (decide (a < 0))) else Rounding.round (a / b)
  | num _, inf _ => num 0
  | inf s, num b => inf (s != decide (b < 0))
  | _, _ => nan

instance : Add (Dbl R) := ⟨add⟩
instance : Neg (Dbl R) := ⟨neg⟩
instance : Sub (Dbl R) := ⟨fun x y => add x (neg y)⟩
instance : Mul (Dbl R) := ⟨mul⟩
instance : Div (Dbl R) := ⟨div⟩

/-- `sqrt`, with the square root of the exact values given as `sqrt`. -/
def sqrt (sqrt : R → R) : Dbl R → Dbl R
  | num a => if a < 0 then nan else Rounding.round (sqrt a)
  | inf false => inf false
  | _ => nan

/-- A `for` loop summing into a `double` that starts at `0.0`. -/
def sum (xs : List (Dbl R)) : Dbl R := xs.foldl (· + ·) (num 0)

variable {a b : R}

theorem round_add : (num a + num b : Dbl R) = Rounding.round (a + b) := rfl
theorem round_sub : (num a - num b : Dbl R) = Rounding.round (a - b) := by
  show Rounding.round (a + -b) = _; rw [sub_eq_add_neg]
theorem round_mul : (num a * num b : Dbl R) = Rounding.round (a * b) := rfl
theorem round_div (hb : b ≠ 0) : (num a / num b : Dbl R) = Rounding.round (a / b) := by
  show div _ _ = _; simp [div, hb]

theorem num_zero_div_zero : (num 0 / num 0 : Dbl R) = nan := by
  show div _ _ = _; simp [div]

end Dbl

namespace Dbl
variable {R : Type} [LinearOrderedField R] {a b : R}

omit [LinearOrderedField R] in
@[simp] theorem round_exact : (Rounding.round a : Dbl R) = num a := rfl
@[simp] theorem toDouble_exact (x : ℕ) : (toDouble x : Dbl R) = num (x : R) := rfl
@[simp] theorem num_add_num : (num a + num b : Dbl R) = num (a + b) := rfl
@[simp] theorem num_sub_num : (num a - num b : Dbl R) = num (a - b) := round_sub
@[simp] theorem num_mul_num : (num a * num b : Dbl R) = num (a * b) := rfl
@[simp] theorem num_div_num (hb : b ≠ 0) : (num a / num b : Dbl R) = num (a / b) := round_div hb
@[simp] theorem fabs_num : fabs (num a) = num |a| := rfl
@[simp] theorem sqrt_num {sqrt : R → R} (ha : 0 ≤ a) : Dbl.sqrt sqrt (num a) = num (sqrt a) := by
  simp [Dbl.sqrt, not_lt.mpr ha]
omit [LinearOrderedField R] in
@[simp] theorem isFinite_num : isFinite (num a) = true := rfl

private theorem foldl_add_num (xs : List R) (c : R) :
    (xs.map num).foldl (· + ·) (num c : Dbl R) = num (c + xs.sum) := by
  induction xs generalizing c with
  | nil => simp
  | cons x xs ih => simp [ih, add_assoc]

@[simp] theorem sum_map_num (xs : List R) : sum (xs.map num) = num xs.sum := by
  simp [sum, foldl_add_num]

@[simp] theorem round_binary64 (x : Binary64) : Rounding.round x = roundBinary64 x := rfl

theorem toDouble_of_lt {x : ℕ} (h : x < 2 ^ 53) : (toDouble x : Dbl Binary64) = num (x : Binary64) :=
  roundBinary64_natCast h

section Finite
variable {x y : Dbl R}

theorem isFinite_iff : x.isFinite = true ↔ ∃ a, x = num a := by
  cases x <;> simp [isFinite]

theorem isFinite_sub (hx : x.isFinite) (hy : y.isFinite) : (x - y).isFinite := by
  obtain ⟨a, rfl⟩ := isFinite_iff.mp hx; obtain ⟨b, rfl⟩ := isFinite_iff.mp hy
  rw [num_sub_num]; rfl

theorem isFinite_mul (hx : x.isFinite) (hy : y.isFinite) : (x * y).isFinite := by
  obtain ⟨a, rfl⟩ := isFinite_iff.mp hx; obtain ⟨b, rfl⟩ := isFinite_iff.mp hy; rfl

theorem isFinite_div_num (hx : x.isFinite) (hb : b ≠ 0) : (x / num b).isFinite := by
  obtain ⟨a, rfl⟩ := isFinite_iff.mp hx; rw [num_div_num hb]; rfl

theorem isFinite_div_of_lt (hy : lt (num 0) y) (hx : x.isFinite) : (x / y).isFinite := by
  obtain ⟨a, rfl⟩ := isFinite_iff.mp hx
  match y, hy with
  | num b, hy => exact isFinite_div_num rfl (ne_of_gt (by simpa using hy))
  | inf false, _ => rfl

theorem isFinite_sqrt {sqrt : R → R} (ha : 0 ≤ a) : (Dbl.sqrt sqrt (num a)).isFinite := by
  rw [sqrt_num ha]; rfl

end Finite

end Dbl

open Dbl
variable {R : Type} [LinearOrderedField R]

/-- The `min_ops`/`max_ops` loop of the analyzers: both start at `first`, and each of `ops` in
turn replaces the minimum when below it and the maximum when above it. -/
def minMaxOps (first : Dbl R) (ops : List (Dbl R)) : Dbl R × Dbl R :=
  ops.foldl (fun m x => (if lt x m.1 then x else m.1, if lt m.2 x then x else m.2)) (first, first)

private theorem foldl_minMax_num (a b : R) (xs : List R) :
    (xs.map num).foldl (fun m x => (if lt x m.1 then x else m.1, if lt m.2 x then x else m.2))
      (num a, num b) = (num (xs.foldl min a), num (xs.foldl max b)) := by
  induction xs generalizing a b with
  | nil => rfl
  | cons x xs ih =>
    have h₁ : (if lt (num x) (num a) then num x else num a : Dbl R) = num (min a x) := by
      by_cases h : x < a
      · simp [h, min_eq_right h.le]
      · simp [h, min_eq_left (not_lt.mp h)]
    have h₂ : (if lt (num b) (num x) then num x else num b : Dbl R) = num (max b x) := by
      by_cases h : b < x
      · simp [h, max_eq_right h.le]
      · simp [h, max_eq_left (not_lt.mp h)]
    rw [List.map_cons, List.foldl_cons, h₁, h₂, ih]; rfl

/-- The `min_ops`/`max_ops` loop over exact values is the fold of `min` and `max`. -/
theorem minMaxOps_num (a : R) (xs : List R) :
    minMaxOps (num a) (xs.map num) = (num (xs.foldl min a), num (xs.foldl max a)) :=
  foldl_minMax_num a a xs

private theorem foldl_minMax_isFinite {ops : List (Dbl R)} (h : ∀ x ∈ ops, x.isFinite)
    (m : Dbl R × Dbl R) (h₁ : m.1.isFinite) (h₂ : m.2.isFinite) :
    (ops.foldl (fun m x => (if lt x m.1 then x else m.1, if lt m.2 x then x else m.2)) m).1.isFinite ∧
      (ops.foldl (fun m x => (if lt x m.1 then x else m.1, if lt m.2 x then x else m.2)) m).2.isFinite := by
  induction ops generalizing m with
  | nil => exact ⟨h₁, h₂⟩
  | cons x xs ih =>
    obtain ⟨hx, hxs⟩ : x.isFinite ∧ ∀ y ∈ xs, y.isFinite := by simpa using h
    exact ih hxs _ (by dsimp only; split <;> assumption) (by dsimp only; split <;> assumption)

theorem minMaxOps_isFinite {first : Dbl R} {ops : List (Dbl R)} (hf : first.isFinite)
    (h : ∀ x ∈ ops, x.isFinite) :
    (minMaxOps first ops).1.isFinite ∧ (minMaxOps first ops).2.isFinite :=
  foldl_minMax_isFinite h _ hf hf

end Hscl
