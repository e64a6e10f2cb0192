import Hscl.Analysis.Hierarchy

/-! The fairness indices `print_hierarchy_stats` prints, exact and rounded to binary64. -/
namespace Hscl.Mutex
open Run Dbl

/-- What a Jain index `J` and a coefficient of variation `C` of the values `xs` should satisfy:
`J (1 + C²) = 1`, `1/m ≤ J ≤ 1`, `J = 1` exactly for equal values, `J = 1/m` exactly for one
nonzero value. -/
structure JainCov (xs : List ℝ) (J C : ℝ) : Prop where
  identity : J * (1 + C ^ 2) = 1
  lower : 1 / (xs.length : ℝ) ≤ J
  upper : J ≤ 1
  one_iff : J = 1 ↔ C = 0
  cov_iff : C = 0 ↔ AllEqual xs
  lower_iff : J = 1 / (xs.length : ℝ) ↔ nonzeroCount xs = 1

theorem jainCov_of_pos {xs : List ℝ} (h0 : ∀ x ∈ xs, 0 ≤ x) (hS : 0 < xs.sum) :
    JainCov xs (jainOf xs) (covOf Real.sqrt xs) := by
  unfold jainOf covOf meanOf
  have hne : xs ≠ [] := by rintro rfl; simp at hS
  have hm : (0 : ℝ) < xs.length := length_pos_of_sum_pos hS
  have hQ : 0 < sumSq xs := sumSq_pos hS
  have hV : sumSqDev (xs.sum / xs.length) xs / xs.length =
      (xs.length * sumSq xs - xs.sum * xs.sum) / (xs.length * xs.length) := by
    rw [sumSqDev_mean hne]; field_simp; ring
  have hV0 : 0 ≤ (xs.length * sumSq xs - xs.sum * xs.sum) / ((xs.length : ℝ) * xs.length) :=
    div_nonneg (sub_nonneg.mpr (sq_sum_le xs)) (by positivity)
  have hC : Real.sqrt (sumSqDev (xs.sum / xs.length) xs / xs.length) / (xs.sum / xs.length) = 0 ↔
      xs.sum * xs.sum = xs.length * sumSq xs := by
    rw [div_eq_zero_iff, or_iff_left (by positivity), hV, Real.sqrt_eq_zero hV0,
      div_eq_zero_iff, or_iff_left (by positivity), sub_eq_zero, eq_comm]
  have hJ1 : xs.sum * xs.sum / (xs.length * sumSq xs) = 1 ↔ xs.sum * xs.sum = xs.length * sumSq xs :=
    div_eq_one_iff_eq (by positivity)
  refine ⟨?_, ?_, ?_, hJ1.trans hC.symm, hC.trans (sq_sum_eq_iff hne), ?_⟩
  · rw [div_pow, Real.sq_sqrt (hV ▸ hV0), hV]; field_simp; ring
  · rw [div_le_div_iff₀ hm (by positivity)]
    linarith [mul_le_mul_of_nonneg_left (sumSq_le_sq_sum h0) hm.le]
  · rw [div_le_one (by positivity)]; exact sq_sum_le xs
  · have hnz : nonzeroCount xs ≠ 0 := fun h => hS.ne' ((sum_eq_zero_iff_nonzeroCount h0).mpr h)
    have hone : nonzeroCount xs = 1 ↔ sumSq xs = xs.sum * xs.sum := by
      rw [sumSq_eq_sq_sum_iff h0]; omega
    rw [div_eq_div_iff (by positivity) hm.ne', hone, one_mul, mul_comm (xs.sum * xs.sum),
      mul_right_inj' hm.ne', eq_comm]

variable {threads : List (ThreadConfig Ext)} {duration : ℤ}

theorem avgOps_eq (hwrap : (threads.map totalOps).sum < 2 ^ 64) (hn : threads ≠ []) :
    (printHierarchyStats Real.sqrt threads duration).avgOps =
      num ((totals threads : List ℝ).sum / threads.length) := by
  have hn' : (threads.length : ℝ) ≠ 0 := by simpa using hn
  simp only [printHierarchyStats, Nat.mod_eq_of_lt hwrap, toDouble_exact, num_div_num hn', totals_sum]

theorem printHierarchyStats_jain (hpos : 0 < (threads.map totalOps).sum) :
    (printHierarchyStats Real.sqrt threads duration).jain = num (jainOf (totals threads)) := by
  have hS : 0 < (totals threads : List ℝ).sum := by rw [totals_sum]; exact_mod_cast hpos
  have hne : (totals threads : List ℝ) ≠ [] := by rintro h; simp [h] at hS
  have hm : (0 : ℝ) < (totals threads : List ℝ).length := by exact_mod_cast List.length_pos.mpr hne
  rw [jainOf, ← jainIndex_num (mul_pos hm (sumSq_pos hS)).ne']
  simp [printHierarchyStats]

theorem printHierarchyStats_cov (hpos : 0 < (threads.map totalOps).sum)
    (hwrap : (threads.map totalOps).sum < 2 ^ 64) :
    (printHierarchyStats Real.sqrt threads duration).cov = num (covOf Real.sqrt (totals threads)) := by
  have hS : 0 < (totals threads : List ℝ).sum := by rw [totals_sum]; exact_mod_cast hpos
  have hne : threads ≠ [] := by rintro rfl; simp at hpos
  have hn : (0 : ℝ) < threads.length := by exact_mod_cast List.length_pos.mpr hne
  have hv : 0 ≤ sumSqDev ((totals threads : List ℝ).sum / threads.length) (totals threads) / threads.length :=
    div_nonneg sumSqDev_nonneg hn.le
  have hmean : (0 : ℝ) < (totals threads : List ℝ).sum / threads.length := div_pos hS hn
  rw [printHierarchyStats_cov_eq, printHierarchyStats_avgOps, Nat.mod_eq_of_lt hwrap, toDouble_exact,
    ← totals_sum, doubleTotals_exact, num_div_num hn.ne', sum_map_num, num_div_num hn.ne', variance_num _ hn.ne', sqrt_num hv, lt_num,
    decide_eq_true hmean, if_pos rfl, num_div_num hmean.ne', covOf, meanOf, totals_length]

/-- A level's ops per second, `total_operations / duration` of each member, exactly. -/
def levelValues {R : Type} [LinearOrderedField R] (threads : List (ThreadConfig Ext))
    (duration : ℤ) (level : HierarchyLevel) : List R :=
  (levelMembers threads level).map fun t => (totalOps t : R) / duration

theorem levelValues_nonneg {level : HierarchyLevel} (hd : 0 < duration) :
    ∀ x ∈ (levelValues threads duration level : List ℝ), 0 ≤ x := by
  have hd' : (0 : ℝ) < duration := by exact_mod_cast hd
  simp only [levelValues, List.mem_map]
  rintro _ ⟨t, -, rfl⟩; positivity

theorem levelValues_sum_pos {level : HierarchyLevel} (hd : 0 < duration)
    (hS : 0 < ((levelMembers threads level).map totalOps).sum) :
    0 < (levelValues threads duration level : List ℝ).sum := by
  have hd' : (0 : ℝ) < duration := by exact_mod_cast hd
  simp only [levelValues, div_eq_mul_inv, List.sum_map_mul_right]
  refine mul_pos ?_ (inv_pos.mpr hd')
  simpa [Nat.cast_list_sum, Function.comp_def] using (Nat.cast_pos (α := ℝ)).mpr hS

theorem levelOps_eq {level : HierarchyLevel} (hd : duration ≠ 0) :
    (levelOps threads duration level : List (Dbl ℝ)) = (levelValues threads duration level).map num := by
  have hd' : (duration : ℝ) ≠ 0 := Int.cast_ne_zero.mpr hd
  simp [levelOps, levelValues, num_div_num hd']

theorem levelRow_fairness {level : HierarchyLevel} (hd : 0 < duration)
    (hm : 2 ≤ (levelMembers threads level).length)
    (hS : 0 < ((levelMembers threads level).map totalOps).sum) :
    ∃ row, levelRow Real.sqrt threads duration level = some row ∧
      row.fairnessIndex = num (jainOf (levelValues threads duration level)) ∧
      row.cov = num (covOf Real.sqrt (levelValues threads duration level)) := by
  have hfair : levelFairness Real.sqrt ((levelValues threads duration level).map num) = _ :=
    levelFairness_num (levelValues_sum_pos hd hS) (by simpa [levelValues] using hm)
  refine ⟨_, if_pos (by omega), ?_, ?_⟩ <;> simp only [levelOps_eq hd.ne', hfair]

theorem levelRow_single {level : HierarchyLevel} (h1 : (levelMembers threads level).length = 1) :
    ∃ row, levelRow Real.sqrt threads duration level = some row ∧
      row.fairnessIndex = num 1 ∧ row.cov = num 0 := by
  refine ⟨_, if_pos (by omega), ?_, ?_⟩ <;> simp [levelFairness, levelOps, h1]

/-- Jain's index and the CoV that `print_hierarchy_stats` prints, overall on the raw totals
(with the `ull` total below `2^64`, where its arithmetic is exact) and per level on the ops per
second, satisfy `J (1 + CoV²) = 1`, `1/m ≤ J ≤ 1` and the equality cases; a level with one
thread shows `1.0` and `0.0`. -/
theorem jain_cov_printed (threads : List (ThreadConfig Ext)) (duration : ℤ) :
    (0 < (threads.map totalOps).sum → (threads.map totalOps).sum < 2 ^ 64 →
      (printHierarchyStats Real.sqrt threads duration).jain = num (jainOf (totals threads)) ∧
      (printHierarchyStats Real.sqrt threads duration).cov =
        num (covOf Real.sqrt (totals threads)) ∧
      JainCov (totals threads) (jainOf (totals threads)) (covOf Real.sqrt (totals threads))) ∧
    (∀ level, 0 < duration → 2 ≤ (levelMembers threads level).length →
      0 < ((levelMembers threads level).map totalOps).sum →
      ∃ row, (printHierarchyStats Real.sqrt threads duration).levels level = some row ∧
        row.fairnessIndex = num (jainOf (levelValues threads duration level)) ∧
        row.cov = num (covOf Real.sqrt (levelValues threads duration level)) ∧
        JainCov (levelValues threads duration level) (jainOf (levelValues threads duration level))
          (covOf Real.sqrt (levelValues threads duration level))) ∧
    ∀ level, (levelMembers threads level).length = 1 →
      ∃ row, (printHierarchyStats Real.sqrt threads duration).levels level = some row ∧
        row.fairnessIndex = num 1 ∧ row.cov = num 0 := by
  refine ⟨fun hpos hwrap => ⟨printHierarchyStats_jain hpos, printHierarchyStats_cov hpos hwrap,
      jainCov_of_pos totals_nonneg (by rw [totals_sum]; exact_mod_cast hpos)⟩,
    fun level hd hm hS => ?_, fun level h1 => levelRow_single h1⟩
  obtain ⟨row, hrow, hj, hc⟩ := levelRow_fairness hd hm hS
  exact ⟨row, hrow, hj, hc, jainCov_of_pos (levelValues_nonneg hd) (levelValues_sum_pos hd hS)⟩

/-- What a Gini coefficient `G` and a throughput spread `P` of the values `xs`, printed beside
the minimum `lo`, maximum `hi` and average `avg`, should satisfy. -/
structure GiniSpread (xs : List ℝ) (G P lo hi avg : ℝ) : Prop where
  nonneg : 0 ≤ G
  le : G ≤ ((xs.length : ℝ) - 1) / xs.length
  lt_one : ((xs.length : ℝ) - 1) / xs.length < 1
  eq_iff : G = ((xs.length : ℝ) - 1) / xs.length ↔ nonzeroCount xs = 1
  zero_iff : G = 0 ↔ AllEqual xs
  spread_iff : P = 0 ↔ AllEqual xs
  least : IsLeast {x | x ∈ xs} lo
  greatest : IsGreatest {x | x ∈ xs} hi
  mean : avg = meanOf xs
  lo_le : lo ≤ avg
  le_hi : avg ≤ hi

theorem printHierarchyStats_gini (hpos : 0 < (threads.map totalOps).sum) :
    (printHierarchyStats Real.sqrt threads duration).gini = num (giniOf (totals threads)) := by
  have hS : 0 < (totals threads : List ℝ).sum := by rw [totals_sum]; exact_mod_cast hpos
  have hm := length_pos_of_sum_pos hS
  dsimp only [printHierarchyStats]
  rw [doubleTotals_exact, sum_flatMap_fabs_num, sum_map_num, num_mul_num, num_mul_num,
    ← totals_length (R := ℝ), num_div_num (by positivity), giniOf]

theorem minMax_of_doubleTotals {R : Type} [LinearOrderedField R] [Rounding R] {sqrt : R → R}
    (duration : ℤ) (hne : threads ≠ []) (hx : (doubleTotals threads : List (Dbl R)) = (totals threads).map num) :
    ∃ lo hi, (printHierarchyStats sqrt threads duration).minOps = num lo ∧
      (printHierarchyStats sqrt threads duration).maxOps = num hi ∧
      IsLeast {x | x ∈ totals threads} lo ∧ IsGreatest {x | x ∈ totals threads} hi := by
  obtain ⟨t, ts, rfl⟩ := List.exists_cons_of_ne_nil hne
  have e : totals (t :: ts) = (totalOps t : R) :: totals ts := rfl
  have hloop : minMaxOps ((doubleTotals (t :: ts)).headD (num 0)) (doubleTotals (t :: ts)) =
      (num ((totals (t :: ts)).foldl min (totalOps t : R)), num ((totals (t :: ts)).foldl max (totalOps t : R))) := by
    rw [hx, e, List.map_cons, List.headD_cons, ← List.map_cons, ← e, minMaxOps_num]
  refine ⟨_, _, congrArg Prod.fst hloop, congrArg Prod.snd hloop, ?_, ?_⟩
  · rw [e, List.foldl_cons, min_self]; exact isLeast_foldl_min _ _
  · rw [e, List.foldl_cons, max_self]; exact isGreatest_foldl_max _ _

theorem printHierarchyStats_minMax (duration : ℤ) (hne : threads ≠ []) :
    ∃ lo hi, (printHierarchyStats Real.sqrt threads duration).minOps = num lo ∧
      (printHierarchyStats Real.sqrt threads duration).maxOps = num hi ∧
      IsLeast {x | x ∈ totals threads} lo ∧ IsGreatest {x | x ∈ totals threads} hi :=
  minMax_of_doubleTotals duration hne (doubleTotals_exact threads)

/-- Totals `2^64 - 1` and `1`: the `ull` total wraps to `0`, so the printed CoV is `0` while the
printed Jain index is below `1`: `J (1 + CoV²) = 1` fails, as does `J = 1` iff `CoV = 0`. -/
theorem jain_cov_wrap :
    ∃ threads : List (ThreadConfig Ext), (totals threads : List ℝ) = [2 ^ 64 - 1, 1] ∧
      (printHierarchyStats Real.sqrt threads 1).cov = num 0 ∧
      ∃ J : ℝ, (printHierarchyStats Real.sqrt threads 1).jain = num J ∧ J < 1 := by
  refine ⟨[⟨0, 0, 0, { totalOperations := 2 ^ 64 - 1 }, threadRecord 0⟩,
    ⟨1, 0, 0, { totalOperations := 1 }, threadRecord 1⟩], by norm_num [totals, totalOps], ?_,
    _, printHierarchyStats_jain (by norm_num [totalOps]), ?_⟩
  · norm_num [printHierarchyStats, totalOps]
  · norm_num [jainOf, sumSq, totals, totalOps]

end Hscl.Mutex
