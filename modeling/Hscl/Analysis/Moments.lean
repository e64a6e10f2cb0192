import Mathlib

/-! The sums the fairness analyzers accumulate over per-thread values, and what they say. -/
namespace Hscl

variable {R : Type} [LinearOrderedField R]

/-- `Σ x * x`, the sum of squares the Jain loops accumulate. -/
def sumSq (xs : List R) : R := (xs.map fun x => x * x).sum

/-- `Σ (x - c) * (x - c)`, the variance loops' accumulator around `c`. -/
def sumSqDev (c : R) (xs : List R) : R := (xs.map fun x => (x - c) * (x - c)).sum

/-- `Σᵢ Σⱼ |xᵢ - xⱼ|`, the Gini loop's accumulator. -/
def absDiffSum (xs : List R) : R := (xs.map fun x => (xs.map fun y => |x - y|).sum).sum

/-- The mean `Σ x / m`. -/
def meanOf (xs : List R) : R := xs.sum / xs.length

/-- Jain's index `(Σ x)² / (m Σ x²)`. -/
def jainOf (xs : List R) : R := xs.sum * xs.sum / (xs.length * sumSq xs)

/-- The coefficient of variation, population standard deviation over mean, with `sqrt` the
square root. -/
def covOf (sqrt : R → R) (xs : List R) : R := sqrt (sumSqDev (meanOf xs) xs / xs.length) / meanOf xs

/-- The Gini coefficient `Σᵢ Σⱼ |xᵢ - xⱼ| / (2 m Σ x)`. -/
def giniOf (xs : List R) : R := absDiffSum xs / (2 * xs.length * xs.sum)

/-- All entries are equal. -/
def AllEqual (xs : List R) : Prop := ∀ x ∈ xs, ∀ y ∈ xs, x = y

/-- The number of nonzero entries. -/
def nonzeroCount (xs : List R) : ℕ := (xs.filter (· ≠ 0)).length

variable {xs : List R} {a c : R}

@[simp] theorem nonzeroCount_nil : nonzeroCount ([] : List R) = 0 := rfl

theorem sumSq_cons (a : R) (xs : List R) : sumSq (a :: xs) = a * a + sumSq xs := rfl

theorem nonzeroCount_cons : nonzeroCount (a :: xs) = (if a = 0 then 0 else 1) + nonzeroCount xs := by
  by_cases ha : a = 0 <;> simp [nonzeroCount, List.filter_cons, ha, add_comm]

theorem sum_eq_zero_iff_of_nonneg {l : List R} (h : ∀ x ∈ l, 0 ≤ x) : l.sum = 0 ↔ ∀ x ∈ l, x = 0 := by
  induction l with
  | nil => simp
  | cons x l ih =>
    simp only [List.mem_cons, forall_eq_or_imp] at h ⊢
    rw [List.sum_cons, add_eq_zero_iff_of_nonneg h.1 (List.sum_nonneg h.2), ih h.2]

private theorem sum_map_eq_iff_of_le {ι : Type} {l : List ι} {f g : ι → R} (h : ∀ i ∈ l, f i ≤ g i) :
    (l.map f).sum = (l.map g).sum ↔ ∀ i ∈ l, f i = g i := by
  induction l with
  | nil => simp
  | cons i l ih =>
    simp only [List.mem_cons, forall_eq_or_imp, List.map_cons, List.sum_cons] at h ⊢
    rw [add_eq_add_iff_eq_and_eq h.1 (List.sum_le_sum h.2), ih h.2]

theorem length_pos_of_sum_pos (hS : 0 < xs.sum) : (0 : R) < xs.length := by
  rcases xs with _ | ⟨x, xs⟩
  · simp at hS
  · simp only [List.length_cons]; positivity

theorem sum_eq_zero_iff_nonzeroCount (h : ∀ x ∈ xs, 0 ≤ x) : xs.sum = 0 ↔ nonzeroCount xs = 0 := by
  rw [sum_eq_zero_iff_of_nonneg h, nonzeroCount, List.length_eq_zero, List.filter_eq_nil_iff]
  simp

section MinMax
variable {α : Type} [LinearOrder α]

theorem isLeast_foldl_min (a : α) (xs : List α) : IsLeast {y | y ∈ a :: xs} (xs.foldl min a) := by
  induction xs generalizing a with
  | nil => exact ⟨List.mem_singleton_self a, fun y hy => by simp_all⟩
  | cons x xs ih =>
    rw [List.foldl_cons]
    obtain ⟨hm, hl⟩ := ih (min a x)
    refine ⟨?_, fun y hy => ?_⟩
    · simp only [Set.mem_setOf_eq, List.mem_cons] at hm ⊢
      rcases hm with h | h
      · rw [h]; rcases min_choice a x with h' | h' <;> simp [h']
      · exact .inr (.inr h)
    · simp only [Set.mem_setOf_eq, List.mem_cons] at hy
      rcases hy with rfl | rfl | hy
      · exact (hl (List.mem_cons_self _ _)).trans (min_le_left _ _)
      · exact (hl (List.mem_cons_self _ _)).trans (min_le_right _ _)
      · exact hl (List.mem_cons_of_mem _ hy)

theorem isGreatest_foldl_max (a : α) (xs : List α) :
    IsGreatest {y | y ∈ a :: xs} (xs.foldl max a) :=
  isLeast_foldl_min (α := αᵒᵈ) a xs

end MinMax

section Mean
variable {lo hi : R}

theorem allEqual_iff_of_bounds (hl : IsLeast {y | y ∈ xs} lo) (hg : IsGreatest {y | y ∈ xs} hi) :
    AllEqual xs ↔ hi = lo := by
  refine ⟨fun h => h hi hg.1 lo hl.1, fun e x hx y hy => ?_⟩
  have := hl.2 hx; have := hg.2 hx; have := hl.2 hy; have := hg.2 hy
  linarith

theorem le_meanOf (hl : IsLeast {y | y ∈ xs} lo) : lo ≤ meanOf xs := by
  have hm : (0 : R) < xs.length := by exact_mod_cast List.length_pos_of_mem hl.1
  rw [meanOf, le_div_iff₀ hm, mul_comm, ← nsmul_eq_mul]
  exact List.card_nsmul_le_sum xs lo fun x hx => hl.2 hx

theorem meanOf_le (hg : IsGreatest {y | y ∈ xs} hi) : meanOf xs ≤ hi := by
  have hm : (0 : R) < xs.length := by exact_mod_cast List.length_pos_of_mem hg.1
  rw [meanOf, div_le_iff₀ hm, mul_comm, ← nsmul_eq_mul]
  exact List.sum_le_card_nsmul xs hi fun x hx => hg.2 hx

end Mean

section Squares

theorem sumSqDev_eq (c : R) (xs : List R) :
    sumSqDev c xs = sumSq xs - 2 * c * xs.sum + xs.length * (c * c) := by
  induction xs with
  | nil => simp [sumSqDev, sumSq]
  | cons x xs ih =>
    simp only [sumSqDev, sumSq, List.map_cons, List.sum_cons, List.length_cons] at ih ⊢
    rw [ih]; push_cast; ring

private theorem sqDev_nonneg : ∀ y ∈ xs.map fun x => (x - c) * (x - c), 0 ≤ y :=
  List.forall_mem_map.mpr fun x _ => mul_self_nonneg (x - c)

theorem sumSqDev_nonneg : 0 ≤ sumSqDev c xs := List.sum_nonneg sqDev_nonneg

theorem sumSqDev_eq_zero_iff : sumSqDev c xs = 0 ↔ ∀ x ∈ xs, x = c := by
  rw [sumSqDev, sum_eq_zero_iff_of_nonneg sqDev_nonneg, List.forall_mem_map]
  simp only [mul_self_eq_zero, sub_eq_zero]

theorem sumSqDev_mean (h : xs ≠ []) :
    sumSqDev (xs.sum / xs.length) xs = sumSq xs - xs.sum * xs.sum / xs.length := by
  have hm : (xs.length : R) ≠ 0 := by simpa using h
  rw [sumSqDev_eq, mul_div_assoc, ← mul_assoc, mul_div_cancel₀ _ hm]
  ring

/-- Cauchy–Schwarz for a vector and the all-ones vector. -/
theorem sq_sum_le (xs : List R) : xs.sum * xs.sum ≤ xs.length * sumSq xs := by
  rcases eq_or_ne xs [] with rfl | h
  · simp [sumSq]
  have hm : (0 : R) < xs.length := by simpa [List.length_pos] using h
  have : 0 ≤ sumSqDev (xs.sum / xs.length) xs := sumSqDev_nonneg
  rw [sumSqDev_mean h, sub_nonneg, div_le_iff₀ hm] at this
  linarith

theorem sq_sum_eq_iff (h : xs ≠ []) : xs.sum * xs.sum = xs.length * sumSq xs ↔ AllEqual xs := by
  have hm : (0 : R) < xs.length := by simpa [List.length_pos] using h
  constructor
  · intro he x hx y hy
    have hz : sumSqDev (xs.sum / xs.length) xs = 0 := by
      rw [sumSqDev_mean h, he]; field_simp
    rw [sumSqDev_eq_zero_iff] at hz
    rw [hz x hx, hz y hy]
  · intro he
    obtain ⟨b, hb⟩ := List.exists_mem_of_ne_nil xs h
    rw [List.eq_replicate_iff.mpr ⟨rfl, fun x hx => he x hx b hb⟩]
    simp [sumSq]; ring

/-- For nonnegative entries, the sum of squares is at most the square of the sum. -/
theorem sumSq_le_sq_sum (h : ∀ x ∈ xs, 0 ≤ x) : sumSq xs ≤ xs.sum * xs.sum := by
  induction xs with
  | nil => simp [sumSq]
  | cons x xs ih =>
    simp only [List.mem_cons, forall_eq_or_imp] at h
    have h₁ := ih h.2
    have h₂ := mul_nonneg h.1 (List.sum_nonneg h.2)
    simp only [sumSq, List.map_cons, List.sum_cons] at h₁ ⊢
    linarith

theorem sumSq_pos (hS : 0 < xs.sum) : 0 < sumSq xs :=
  pos_of_mul_pos_right ((mul_pos hS hS).trans_le (sq_sum_le xs)) (Nat.cast_nonneg _)

theorem sumSq_eq_sq_sum_iff (h : ∀ x ∈ xs, 0 ≤ x) :
    sumSq xs = xs.sum * xs.sum ↔ nonzeroCount xs ≤ 1 := by
  induction xs with
  | nil => simp [sumSq]
  | cons x xs ih =>
    simp only [List.mem_cons, forall_eq_or_imp] at h
    have hxS := mul_nonneg h.1 (List.sum_nonneg h.2)
    -- the square of the sum is the sum of squares plus the cross terms, both parts bounded
    have : sumSq (x :: xs) = (x :: xs).sum * (x :: xs).sum ↔
        sumSq xs = xs.sum * xs.sum ∧ x * xs.sum = 0 := by
      rw [sumSq_cons, List.sum_cons, ← add_zero (x * x + sumSq xs), add_assoc,
        show (x + xs.sum) * (x + xs.sum) = x * x + (xs.sum * xs.sum + 2 * (x * xs.sum)) by ring,
        add_right_inj, add_eq_add_iff_eq_and_eq (sumSq_le_sq_sum h.2) (by positivity),
        eq_comm (a := (0 : R)), mul_eq_zero, or_iff_right two_ne_zero]
    rw [this, ih h.2, mul_eq_zero, sum_eq_zero_iff_nonzeroCount h.2, nonzeroCount_cons]
    by_cases hx : x = 0 <;> simp [hx]
    omega

end Squares

section Gini

theorem absDiffSum_cons (a : R) (xs : List R) :
    absDiffSum (a :: xs) = absDiffSum xs + 2 * (xs.map fun y => |a - y|).sum := by
  simp only [absDiffSum, List.map_cons, List.sum_cons, sub_self, abs_zero, zero_add,
    List.sum_map_add, abs_sub_comm _ a]
  ring

private theorem absDiff_nonneg (x : R) : ∀ y ∈ xs.map fun y => |x - y|, 0 ≤ y :=
  List.forall_mem_map.mpr fun _ _ => abs_nonneg _

private theorem absDiffRows_nonneg :
    ∀ y ∈ xs.map fun x => (xs.map fun y => |x - y|).sum, 0 ≤ y :=
  List.forall_mem_map.mpr fun x _ => List.sum_nonneg (absDiff_nonneg x)

theorem absDiffSum_nonneg : 0 ≤ absDiffSum xs := List.sum_nonneg absDiffRows_nonneg

theorem absDiffSum_eq_zero_iff : absDiffSum xs = 0 ↔ AllEqual xs := by
  rw [absDiffSum, sum_eq_zero_iff_of_nonneg absDiffRows_nonneg, List.forall_mem_map]
  refine forall₂_congr fun x _ => ?_
  rw [sum_eq_zero_iff_of_nonneg (absDiff_nonneg x), List.forall_mem_map]
  simp only [abs_eq_zero, sub_eq_zero]

private theorem abs_sub_le_add (ha : 0 ≤ a) (hc : 0 ≤ c) : |a - c| ≤ a + c :=
  (abs_sub a c).trans_eq (by rw [abs_of_nonneg ha, abs_of_nonneg hc])

private theorem abs_sub_eq_add_iff (ha : 0 ≤ a) (hc : 0 ≤ c) : |a - c| = a + c ↔ a = 0 ∨ c = 0 := by
  rw [abs_eq (add_nonneg ha hc), or_comm, neg_add, sub_eq_add_neg, add_left_inj, add_right_inj,
    CharZero.eq_neg_self_iff, CharZero.neg_eq_self_iff]

/-- For nonnegative entries, `Σᵢ Σⱼ |xᵢ - xⱼ| ≤ 2 (m - 1) Σ x`. -/
theorem absDiffSum_le (h : ∀ x ∈ xs, 0 ≤ x) :
    absDiffSum xs ≤ 2 * ((xs.length : R) - 1) * xs.sum := by
  induction xs with
  | nil => simp [absDiffSum]
  | cons x xs ih =>
    simp only [List.mem_cons, forall_eq_or_imp] at h
    have hy : (xs.map fun y => |x - y|).sum ≤ (xs.map fun y => x + y).sum :=
      List.sum_le_sum fun y hy => abs_sub_le_add h.1 (h.2 y hy)
    rw [List.sum_map_add] at hy
    simp only [List.map_const', List.sum_replicate, nsmul_eq_mul, List.map_id'] at hy
    rw [absDiffSum_cons, List.length_cons, List.sum_cons]
    push_cast
    linarith [ih h.2]

theorem absDiffSum_eq_iff (h : ∀ x ∈ xs, 0 ≤ x) :
    absDiffSum xs = 2 * ((xs.length : R) - 1) * xs.sum ↔ nonzeroCount xs ≤ 1 := by
  induction xs with
  | nil => simp [absDiffSum]
  | cons x xs ih =>
    simp only [List.mem_cons, forall_eq_or_imp] at h
    have hle := absDiffSum_le h.2
    have hy : ∀ y ∈ xs, |x - y| ≤ x + y := fun y hy => abs_sub_le_add h.1 (h.2 y hy)
    have hsum := List.sum_le_sum hy
    have heq := sum_map_eq_iff_of_le hy
    have hmx : ((xs.map fun y => x + y).sum) = xs.length * x + xs.sum := by
      rw [List.sum_map_add]; simp
    have : absDiffSum (x :: xs) = 2 * (((x :: xs).length : R) - 1) * (x :: xs).sum ↔
        absDiffSum xs = 2 * ((xs.length : R) - 1) * xs.sum ∧
          (xs.map fun y => |x - y|).sum = (xs.map fun y => x + y).sum := by
      rw [absDiffSum_cons, List.length_cons, List.sum_cons, Nat.cast_succ, show 2 * ((xs.length : R) + 1 - 1) *
        (x + xs.sum) = 2 * ((xs.length : R) - 1) * xs.sum + 2 * (xs.length * x + xs.sum) by ring, ← hmx,
        add_eq_add_iff_eq_and_eq hle (mul_le_mul_of_nonneg_left hsum zero_le_two), mul_right_inj' two_ne_zero]
    rw [this, ih h.2, heq, nonzeroCount_cons]
    have hall : (∀ y ∈ xs, |x - y| = x + y) ↔ x = 0 ∨ nonzeroCount xs = 0 := by
      rw [← sum_eq_zero_iff_nonzeroCount h.2, sum_eq_zero_iff_of_nonneg h.2]
      by_cases hx : x = 0
      · subst hx
        simpa using fun y hy => abs_of_nonneg (h.2 y hy)
      · simp only [hx, false_or]
        exact forall₂_congr fun y hy => by rw [abs_sub_eq_add_iff h.1 (h.2 y hy)]; simp [hx]
    rw [hall]
    by_cases hx : x = 0 <;> simp [hx]
    omega

theorem giniOf_nonneg (h : ∀ x ∈ xs, 0 ≤ x) : 0 ≤ giniOf xs :=
  div_nonneg absDiffSum_nonneg (mul_nonneg (by positivity) (List.sum_nonneg h))

private theorem sub_one_div_length (hS : 0 < xs.sum) :
    ((xs.length : R) - 1) / xs.length = 2 * ((xs.length : R) - 1) * xs.sum / (2 * xs.length * xs.sum) := by
  have hm := length_pos_of_sum_pos hS
  field_simp; ring

theorem giniOf_le (h : ∀ x ∈ xs, 0 ≤ x) (hS : 0 < xs.sum) :
    giniOf xs ≤ ((xs.length : R) - 1) / xs.length := by
  rw [sub_one_div_length hS]
  exact div_le_div_of_nonneg_right (absDiffSum_le h) (by have := length_pos_of_sum_pos hS; positivity)

theorem giniOf_eq_iff (h : ∀ x ∈ xs, 0 ≤ x) (hS : 0 < xs.sum) :
    giniOf xs = ((xs.length : R) - 1) / xs.length ↔ nonzeroCount xs = 1 := by
  have hm := length_pos_of_sum_pos hS
  rw [sub_one_div_length hS, giniOf, div_left_inj' (by positivity), absDiffSum_eq_iff h]
  have := (sum_eq_zero_iff_nonzeroCount h).not.mp hS.ne'
  omega

theorem giniOf_eq_zero_iff (hS : 0 < xs.sum) : giniOf xs = 0 ↔ AllEqual xs := by
  have hm := length_pos_of_sum_pos hS
  rw [giniOf, div_eq_zero_iff, or_iff_left (by positivity), absDiffSum_eq_zero_iff]

end Gini

end Hscl
