import Hscl.Analysis.Fairness
import Hscl.Analysis.Indices
import Hscl.Run.Progress

/-! The three analyzers over the records a joined run leaves. -/
namespace Hscl
open Run Dbl

section Hierarchy
open Mutex
variable {threads : List (ThreadConfig Mutex.Ext)} {duration : ℤ}

theorem threadRow_finite (hd : duration ≠ 0) (t : ThreadConfig Mutex.Ext) :
    (threadRow duration t : ThreadRow ℝ).finite := by
  simp only [ThreadRow.finite, threadRow, Bool.and_eq_true]
  exact ⟨isFinite_div_num rfl (Int.cast_ne_zero.mpr hd), isFinite_div_num rfl cyclePerUs_mul_ne_zero⟩

theorem levelFairness_finite (hd : 0 < duration) {level : HierarchyLevel}
    (hS : 2 ≤ (levelMembers threads level).length →
      0 < ((levelMembers threads level).map totalOps).sum) :
    (levelFairness Real.sqrt (levelOps threads duration level)).1.isFinite ∧
      (levelFairness Real.sqrt (levelOps threads duration level)).2.isFinite := by
  by_cases hm : 2 ≤ (levelMembers threads level).length
  · rw [levelOps_eq hd.ne', levelFairness_num (levelValues_sum_pos hd (hS hm))
      (by simpa [levelValues] using hm)]
    exact ⟨rfl, rfl⟩
  · have : ¬(levelOps threads duration level : List (Dbl ℝ)).length > 1 := by simp [levelOps]; omega
    simp only [levelFairness, this, if_false]
    exact ⟨rfl, rfl⟩

theorem levelRow_finite (hd : 0 < duration) (hnd : threads.length * duration < 2 ^ 31)
    (hS : ∀ level, 2 ≤ (levelMembers threads level).length →
      0 < ((levelMembers threads level).map totalOps).sum) (level : HierarchyLevel) :
    (levelRow Real.sqrt threads duration level).all LevelRow.finite := by
  dsimp only [levelRow]
  split_ifs with hc
  · have hle : ((levelMembers threads level).length : ℤ) ≤ threads.length := by
      exact_mod_cast List.length_filter_le _ _
    have hpos : 0 < ((levelMembers threads level).length : ℤ) * duration :=
      mul_pos (by exact_mod_cast hc) hd
    have hint : int32 ((levelMembers threads level).length * duration) ≠ 0 := by
      rw [int32_of_mem (by omega) ((mul_le_mul_of_nonneg_right hle hd.le).trans_lt hnd)]
      exact hpos.ne'
    obtain ⟨h₁, h₂⟩ := levelFairness_finite hd (hS level)
    simp only [Option.all_some, LevelRow.finite, Bool.and_eq_true]
    exact ⟨⟨isFinite_div_num rfl (Int.cast_ne_zero.mpr hint), h₁⟩, h₂⟩
  · rfl

theorem criticalVsBackground_finite :
    (criticalVsBackground threads : Option (Dbl ℝ × String)).all fun c => c.1.isFinite := by
  dsimp only [criticalVsBackground]
  split
  · rename_i h
    have hc := isFinite_div_num (R := ℝ) (isFinite_num (a := (levelTotal threads 0 : ℝ)))
      (Nat.cast_ne_zero.mpr h.1.ne')
    simp only [Option.all_some]
    split
    · exact isFinite_div_of_lt ‹_› hc
    · exact hc
  · rfl

/-- With a positive duration whose product with the thread count stays an `int`, some
operation, and some operation on every level of two threads or more, every number
`print_hierarchy_stats` prints is finite. -/
theorem printHierarchyStats_finite (hd : 0 < duration) (hnd : threads.length * duration < 2 ^ 31)
    (hpos : 0 < (threads.map totalOps).sum)
    (hS : ∀ level, 2 ≤ (levelMembers threads level).length →
      0 < ((levelMembers threads level).map totalOps).sum) :
    (printHierarchyStats Real.sqrt threads duration).finite := by
  have hne : threads ≠ [] := by rintro rfl; simp at hpos
  have hn : (threads.length : ℝ) ≠ 0 := by simpa using hne
  obtain ⟨lo, hi, hlo, hhi, -, -⟩ := printHierarchyStats_minMax duration hne
  have havg : (printHierarchyStats Real.sqrt threads duration).avgOps.isFinite := by
    rw [printHierarchyStats_avgOps]; exact isFinite_div_num rfl hn
  simp only [HierarchyReport.finite, Bool.and_eq_true, List.all_eq_true, and_assoc]
  refine ⟨fun r hr => ?_, fun l _ => levelRow_finite hd hnd hS l, by rw [printHierarchyStats_jain hpos]; rfl,
    ?_, by rw [printHierarchyStats_gini hpos]; rfl, ?_, hlo ▸ rfl, hhi ▸ rfl, havg,
    criticalVsBackground_finite⟩
  · obtain ⟨t, -, rfl⟩ := List.mem_map.mp hr
    exact threadRow_finite hd.ne' t
  · rw [printHierarchyStats_cov_eq]
    split_ifs with h
    · rw [doubleTotals_exact, sum_map_num, num_div_num hn, variance_num _ hn]
      exact isFinite_div_of_lt h (isFinite_sqrt (div_nonneg sumSqDev_nonneg (Nat.cast_nonneg _)))
    · rfl
  · rw [printHierarchyStats_spread_eq, hlo, hhi]
    split_ifs with h
    · exact isFinite_mul (isFinite_div_of_lt h (isFinite_sub rfl rfl)) rfl
    · rfl

end Hierarchy

section Runs
variable {n randMax : ℕ} {P G ε : Type} [DecidableEq P] {h : Harness P G ε} {s : State n P G ε}

theorem lockAcquisitions_mul_lt (hs : Finished h randMax s)
    (hT : ((List.ofFn s.threads).map fun t => t.stats.totalOperations).sum < 2 ^ 32) :
    ∀ t ∈ List.ofFn s.threads, t.stats.lockAcquisitions * cyclePerUs < 2 ^ 64 := by
  intro t ht
  have hle : t.stats.totalOperations ≤ ((List.ofFn s.threads).map fun t => t.stats.totalOperations).sum :=
    List.le_sum_of_mem (List.mem_map_of_mem _ ht)
  obtain ⟨j, rfl⟩ := (List.mem_ofFn _ _).mp ht
  rw [← (consistent_of_reachable hs.reachable (.inr (hs.done j))).2]
  simp only [cyclePerUs]
  omega

end Runs

/-- Over the records of a joined run, every number the three analyzers print is finite: for the
fair-lock analyzers with a nonzero duration and a total of at least `√n` and below `2^32`
operations, for `print_hierarchy_stats` with a positive duration that keeps
`num_threads * duration` an `int`, some operation, and some operation on every level with two
threads or more. -/
theorem analyzers_finite {n randMax : ℕ} (duration : ℤ) :
    (∀ s : State n Unit Unit FairnessTest.Ext, Finished FairnessTest.harness randMax s →
      0 < n → duration ≠ 0 →
      n ≤ ((List.ofFn s.threads).map fun t => t.stats.totalOperations).sum *
        ((List.ofFn s.threads).map fun t => t.stats.totalOperations).sum →
      ((List.ofFn s.threads).map fun t => t.stats.totalOperations).sum < 2 ^ 32 →
      (FairnessTest.printFairnessStats (List.ofFn s.threads) duration : FairnessReport ℝ).finite) ∧
    (∀ s : State n Unit (Fin 8 → Cgroups.CgroupConfig) Cgroups.Ext, Finished Cgroups.harness randMax s →
      0 < n → duration ≠ 0 →
      n ≤ ((List.ofFn s.threads).map fun t => t.stats.totalOperations).sum *
        ((List.ofFn s.threads).map fun t => t.stats.totalOperations).sum →
      ((List.ofFn s.threads).map fun t => t.stats.totalOperations).sum < 2 ^ 32 →
      (Cgroups.printCgroupsFairnessStats s.globals (List.ofFn s.threads) duration :
        Cgroups.CgroupsReport ℝ).finite) ∧
    ∀ s : State n Mutex.Primitive Mutex.Tracking Mutex.Ext, Finished Mutex.harness randMax s →
      0 < duration → n * duration < 2 ^ 31 → 0 < ((List.ofFn s.threads).map Mutex.totalOps).sum →
      (∀ level, 2 ≤ (Mutex.levelMembers (List.ofFn s.threads) level).length →
        0 < ((Mutex.levelMembers (List.ofFn s.threads) level).map Mutex.totalOps).sum) →
      (Mutex.printHierarchyStats Real.sqrt (List.ofFn s.threads) duration).finite := by
  refine ⟨fun s hs hn hd hle hT => ?_, fun s hs hn hd hle hT => ?_,
    fun s hs hd hnd hpos hS => printHierarchyStats_finite hd (by simpa using hnd) hpos hS⟩
  · exact fairnessReport_finite (by simpa using hn) hd (by simpa [Function.comp_def] using hle)
      (by simpa [Function.comp_def] using hT) (by simpa using lockAcquisitions_mul_lt hs hT)
  · obtain ⟨m, hm⟩ := Cgroups.globals_of_reachable hs.reachable
    rw [hm]
    refine Cgroups.printCgroupsFairnessStats_finite (fun i h₁ h₂ => ?_) (by simpa using hn) hd
      (by simpa using hle) hT (lockAcquisitions_mul_lt hs hT)
    rw [Cgroups.countCgroupThreads_cpuShares]
    revert i; decide

/-- `main` accepts one thread, and runs where the worker returns before any operation make the
analyzers print `nan` in the code's binary64 arithmetic: `print_fairness_stats` for a duration
of `0`, and for a duration of `10` the cgroup share of `print_cgroups_fairness_stats` and the Jain
index and Gini coefficient of `print_hierarchy_stats`. -/
theorem analyzers_nan_runs :
    checkArgs 1 0 0 = .ok () ∧
    (∃ s : State 1 Unit Unit FairnessTest.Ext, Finished FairnessTest.harness 2147483647 s ∧
      (FairnessTest.printFairnessStats (List.ofFn s.threads) 0 : FairnessReport Binary64).rows.map
        FairnessRow.opsPerSec = [nan]) ∧
    (∃ s : State 1 Unit (Fin 8 → Cgroups.CgroupConfig) Cgroups.Ext,
      Finished Cgroups.harness 2147483647 s ∧
      ((Cgroups.printCgroupsFairnessStats s.globals (List.ofFn s.threads) 10 :
        Cgroups.CgroupsReport Binary64).shares 2).map Cgroups.ShareRow.actualShare = some nan) ∧
    ∃ s : State 1 Mutex.Primitive Mutex.Tracking Mutex.Ext, Finished Mutex.harness 2147483647 s ∧
      ∀ sqrt : Binary64 → Binary64,
        (Mutex.printHierarchyStats sqrt (List.ofFn s.threads) 10).jain = nan ∧
        (Mutex.printHierarchyStats sqrt (List.ofFn s.threads) 10).gini = nan := by
  have h0 : (toDouble 0 : Dbl Binary64) = num 0 := by simp [toDouble]
  refine ⟨checkArgs_ok_iff.mpr ⟨le_rfl, by decide, by simp [ratioSum]⟩, ?_, ?_, ?_⟩
  · exact ((FairnessTest.defaultState_initial 1 0 0).finish_idle rfl).imp fun t ⟨hf, ht⟩ => ⟨hf, by
      simp [FairnessTest.printFairnessStats, fairnessReport, fairnessRow, ht, FairnessTest.defaultState,
        Run.mainState, h0, num_zero_div_zero]⟩
  · exact ((Cgroups.mainState_initial 1 0 0).finish_idle rfl).imp fun t ⟨hf, ht⟩ => ⟨hf, by
      obtain ⟨m, hm⟩ := Cgroups.globals_of_reachable hf.reachable
      rw [hm]
      simp [Cgroups.printCgroupsFairnessStats, Cgroups.shareRow, Cgroups.Printed, Cgroups.cgroupMembers,
        Cgroups.cgroupOps, ht, Cgroups.mainState, Run.mainState, Cgroups.threadRecord,
        Cgroups.cgroupOfThread, Cgroups.numCgroups, h0, num_zero_div_zero]⟩
  · exact ((Mutex.mainState_initial 1 .mutex 0 0).finish_idle rfl).imp fun t ⟨hf, ht⟩ => ⟨hf, fun sqrt => by
      simp [Mutex.printHierarchyStats, Mutex.jainIndex, Mutex.doubleTotals, Mutex.totalOps, ht,
        Mutex.mainState, Run.mainState, Dbl.sum, h0, round_add, round_sub, round_mul, num_zero_div_zero]⟩

/-- Totals `2` and `0`: both fair-lock analyzers print a "Fairness Index" of `1.0`, while the Jain
index of the same totals, which `print_hierarchy_stats` prints, is `0.5`. -/
theorem fairness_index_two_zero :
    (FairnessTest.printFairnessStats [⟨0, 0, 0, { totalOperations := 2 }, ⟨0, 1024, 1, 0⟩⟩,
      ⟨1, 0, 0, {}, ⟨0, 1024, 2, 0⟩⟩] 10 : FairnessReport ℝ).metrics.fairnessIndex = num 1 ∧
    (Cgroups.printCgroupsFairnessStats Cgroups.initCgroupConfigs
      [⟨0, 0, 0, { totalOperations := 2 }, Cgroups.threadRecord 0⟩,
        ⟨1, 0, 0, {}, Cgroups.threadRecord 1⟩] 10 : Cgroups.CgroupsReport ℝ).common.metrics.fairnessIndex =
      num 1 ∧
    (Mutex.printHierarchyStats Real.sqrt [⟨0, 0, 0, { totalOperations := 2 }, Mutex.threadRecord 0⟩,
      ⟨1, 0, 0, {}, Mutex.threadRecord 1⟩] 10).jain = num (1 / 2) := by
  refine ⟨?_, ?_, ?_⟩
  · norm_num [FairnessTest.printFairnessStats, fairnessReport, fairnessMetrics]
  · norm_num [Cgroups.printCgroupsFairnessStats, fairnessReport, fairnessMetrics]
  · norm_num [Mutex.printHierarchyStats, Mutex.jainIndex, Mutex.totals, Mutex.totalOps, Dbl.sum]

end Hscl
