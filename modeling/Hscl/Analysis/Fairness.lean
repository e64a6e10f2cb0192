import Hscl.Analysis.Hierarchy
import Hscl.FairnessTest.Worker
import Hscl.Cgroups.Worker

/-! `print_fairness_stats` and `print_cgroups_fairness_stats`: tables, totals and metrics. -/
namespace Hscl
open Run Dbl

variable {R : Type} [LinearOrderedField R]

/-- `ops_per_sec`, `lock_wait_ms` and `avg_wait_us` of a row of the per-thread table. -/
structure FairnessRow (R : Type) where
  opsPerSec : Dbl R
  lockWaitMs : Dbl R
  avgWaitUs : Dbl R

/-- The "Fairness Metrics" block; `throughputVariation` is `none` where the code prints
"N/A (insufficient operations)". -/
structure FairnessMetrics (R : Type) where
  minOps : Dbl R
  maxOps : Dbl R
  avgOps : Dbl R
  fairnessIndex : Dbl R
  throughputVariation : Option (Dbl R)

/-- What the two fair-lock analyzers print alike. -/
structure FairnessReport (R : Type) where
  rows : List (FairnessRow R)
  totalOpsPerSec : Dbl R
  totalLockWaitMs : Dbl R
  metrics : FairnessMetrics R

/-- Every number of a row is printed as a number, not `inf` or `nan`. -/
def FairnessRow.finite (r : FairnessRow R) : Bool :=
  r.opsPerSec.isFinite && r.lockWaitMs.isFinite && r.avgWaitUs.isFinite

def FairnessMetrics.finite (m : FairnessMetrics R) : Bool :=
  m.minOps.isFinite && m.maxOps.isFinite && m.avgOps.isFinite && m.fairnessIndex.isFinite &&
    m.throughputVariation.all isFinite

def FairnessReport.finite (r : FairnessReport R) : Bool :=
  r.rows.all FairnessRow.finite && r.totalOpsPerSec.isFinite && r.totalLockWaitMs.isFinite &&
    r.metrics.finite

theorem cyclePerUs_mul_ne_zero : ((cyclePerUs * 1000 : ℕ) : R) ≠ 0 := by simp [cyclePerUs]

section Code
variable [Rounding R]

/-- A thread's row; `lock_acquisitions * CYCLE_PER_US` is an `ull` product. -/
def fairnessRow (duration : ℤ) (c : Counters) : FairnessRow R where
  opsPerSec := toDouble c.totalOperations / num (duration : R)
  lockWaitMs := toDouble c.lockWaitTime / num ((cyclePerUs * 1000 : ℕ) : R)
  avgWaitUs := if c.lockAcquisitions > 0 then
      toDouble c.lockWaitTime / toDouble (c.lockAcquisitions * cyclePerUs % 2 ^ 64)
    else num 0

/-- The metrics of the threads' `total_operations`, in thread order: the `min_ops`/`max_ops` loop
from `threads[1]`, the average of the `ull` total, and the fairness index with its `ull` divisor
`total_ops * total_ops / num_threads`. -/
def fairnessMetrics (ops : List ℕ) : FairnessMetrics R :=
  let n := ops.length
  let totalOps : ℕ := ops.sum % 2 ^ 64
  let avgOps := toDouble totalOps / num (n : R)
  let minMax := minMaxOps (toDouble (ops.headD 0)) (ops.tail.map fun x : ℕ => toDouble x)
  { minOps := minMax.1
    maxOps := minMax.2
    avgOps := avgOps
    fairnessIndex := if totalOps > 0 then
        avgOps * avgOps * num (n : R) / toDouble (totalOps * totalOps % 2 ^ 64 / n)
      else num 0
    throughputVariation := if lt (num 0) avgOps then
        some ((minMax.2 - minMax.1) / avgOps * num 100) else none }

/-- The part of both analyzers that reads only the shared counters. -/
def fairnessReport (stats : List Counters) (duration : ℤ) : FairnessReport R where
  rows := stats.map (fairnessRow duration)
  totalOpsPerSec := toDouble ((stats.map Counters.totalOperations).sum % 2 ^ 64) / num (duration : R)
  totalLockWaitMs :=
    toDouble ((stats.map Counters.lockWaitTime).sum % 2 ^ 64) / num ((cyclePerUs * 1000 : ℕ) : R)
  metrics := fairnessMetrics (stats.map Counters.totalOperations)

end Code

theorem fairnessMetrics_fairnessIndex {ops : List ℕ} (hn : 0 < ops.length)
    (hle : ops.length ≤ ops.sum * ops.sum) (hT : ops.sum < 2 ^ 32) :
    (fairnessMetrics ops : FairnessMetrics R).fairnessIndex =
      num ((ops.sum : R) * ops.sum / ops.length / ((ops.sum * ops.sum / ops.length : ℕ) : R)) := by
  have hsq : ops.sum * ops.sum < 2 ^ 64 := by
    calc ops.sum * ops.sum < 2 ^ 32 * 2 ^ 32 := Nat.mul_lt_mul'' hT hT
      _ = 2 ^ 64 := by norm_num
  have hpos : 0 < ops.sum := Nat.pos_of_ne_zero fun h => by rw [h] at hle; omega
  have hq : (0 : R) < ((ops.sum * ops.sum / ops.length : ℕ) : R) :=
    Nat.cast_pos.mpr (Nat.div_pos hle hn)
  have hn' : (ops.length : R) ≠ 0 := by exact_mod_cast hn.ne'
  simp only [fairnessMetrics, Nat.mod_eq_of_lt (hT.trans (by norm_num) : ops.sum < 2 ^ 64),
    Nat.mod_eq_of_lt hsq, gt_iff_lt, hpos, if_true, num_div_num hn', num_mul_num,
    num_div_num hq.ne']
  field_simp
  ring

section Finite
variable {duration : ℤ}

theorem fairnessRow_finite {c : Counters} (hd : duration ≠ 0)
    (hla : c.lockAcquisitions * cyclePerUs < 2 ^ 64) : (fairnessRow duration c : FairnessRow R).finite := by
  simp only [FairnessRow.finite, fairnessRow, Bool.and_eq_true]
  refine ⟨⟨isFinite_div_num rfl (Int.cast_ne_zero.mpr hd), isFinite_div_num rfl cyclePerUs_mul_ne_zero⟩,
    ?_⟩
  split_ifs with h
  · refine isFinite_div_num rfl (Nat.cast_ne_zero.mpr ?_)
    rw [Nat.mod_eq_of_lt hla]; exact Nat.mul_ne_zero h.ne' (by decide)
  · rfl

theorem fairnessMetrics_finite {ops : List ℕ} (hn : 0 < ops.length)
    (hle : ops.length ≤ ops.sum * ops.sum) (hT : ops.sum < 2 ^ 32) :
    (fairnessMetrics ops : FairnessMetrics R).finite := by
  have hm : (ops.length : R) ≠ 0 := by exact_mod_cast hn.ne'
  simp only [FairnessMetrics.finite, Bool.and_eq_true, fairnessMetrics_fairnessIndex hn hle hT,
    isFinite_num, and_true]
  dsimp only [fairnessMetrics]
  obtain ⟨h₁, h₂⟩ := minMaxOps_isFinite (R := R) (isFinite_num (a := (ops.headD 0 : R)))
    (List.forall_mem_map.mpr fun (x : ℕ) _ => isFinite_num (a := (x : R)))
  refine ⟨⟨⟨h₁, h₂⟩, isFinite_div_num rfl hm⟩, ?_⟩
  split_ifs with h
  · exact isFinite_mul (isFinite_div_of_lt h (isFinite_sub h₂ h₁)) rfl
  · rfl

/-- With a nonzero duration, at least `√n` and below `2^32` operations in total, and no
`lock_acquisitions * CYCLE_PER_US` past `2^64`, every number of the shared part is finite. -/
theorem fairnessReport_finite {stats : List Counters} (hn : 0 < stats.length) (hd : duration ≠ 0)
    (hle : stats.length ≤ (stats.map Counters.totalOperations).sum * (stats.map Counters.totalOperations).sum)
    (hT : (stats.map Counters.totalOperations).sum < 2 ^ 32)
    (hla : ∀ c ∈ stats, c.lockAcquisitions * cyclePerUs < 2 ^ 64) :
    (fairnessReport stats duration : FairnessReport R).finite := by
  simp only [FairnessReport.finite, fairnessReport, Bool.and_eq_true, List.all_eq_true, List.mem_map]
  refine ⟨⟨⟨?_, isFinite_div_num rfl (Int.cast_ne_zero.mpr hd)⟩,
    isFinite_div_num rfl cyclePerUs_mul_ne_zero⟩, fairnessMetrics_finite (by simpa using hn) (by simpa using hle) hT⟩
  rintro _ ⟨c, hc, rfl⟩
  exact fairnessRow_finite hd (hla c hc)

end Finite

namespace FairnessTest

/-- `print_fairness_stats(threads, num_threads, duration)`, with `num_threads` the length of
`threads`; the slice violations, priority and weight columns copy the records. -/
def printFairnessStats [Rounding R] (threads : List (ThreadConfig Ext)) (duration : ℤ) : FairnessReport R :=
  fairnessReport (threads.map ThreadConfig.stats) duration

end FairnessTest

namespace Cgroups

/-- A row of the "CGROUP PERFORMANCE SUMMARY". -/
structure CgroupRow (R : Type) where
  threads : ℕ
  totalOps : ℕ
  avgOps : Dbl R
  opsPerSec : Dbl R
  throttleMs : Dbl R

/-- A line of the "CGroup Fairness Analysis". -/
structure ShareRow (R : Type) where
  expectedShare : Dbl R
  actualShare : Dbl R
  fairnessRatio : Dbl R

/-- What `print_cgroups_fairness_stats` prints: the shared part, the throttle column, and the
summary and share lines of the slots `1 ≤ i < num_cgroups` that have threads. -/
structure CgroupsReport (R : Type) where
  common : FairnessReport R
  throttleMs : List (Dbl R)
  summary : Fin 8 → Option (CgroupRow R)
  shares : Fin 8 → Option (ShareRow R)

def CgroupRow.finite (r : CgroupRow R) : Bool :=
  r.avgOps.isFinite && r.opsPerSec.isFinite && r.throttleMs.isFinite

def ShareRow.finite (r : ShareRow R) : Bool :=
  r.expectedShare.isFinite && r.actualShare.isFinite && r.fairnessRatio.isFinite

/-- Every number `print_cgroups_fairness_stats` prints is a number. -/
def CgroupsReport.finite (r : CgroupsReport R) : Bool :=
  r.common.finite && r.throttleMs.all isFinite &&
    (List.finRange 8).all fun i => (r.summary i).all CgroupRow.finite && (r.shares i).all ShareRow.finite

/-- The workers whose `cgroup_id` is `i`. -/
def cgroupMembers (threads : List (ThreadConfig Ext)) (i : Fin 8) : List (ThreadConfig Ext) :=
  threads.filter fun t => t.ext.cgroupId = i

/-- `cgroup_ops[i]`, an `ull` accumulator. -/
def cgroupOps (threads : List (ThreadConfig Ext)) (i : Fin 8) : ℕ :=
  ((cgroupMembers threads i).map fun t => t.stats.totalOperations).sum % 2 ^ 64

/-- `cgroup_throttle_time[i]`, an `ull` accumulator. -/
def cgroupThrottleTime (threads : List (ThreadConfig Ext)) (i : Fin 8) : ℕ :=
  ((cgroupMembers threads i).map fun t => t.ext.cgroupThrottleTime).sum % 2 ^ 64

/-- The slots both cgroup loops print:
`for (i = 1; i < num_cgroups; i++) if (cgroup_threads[i] > 0)`. -/
def Printed (threads : List (ThreadConfig Ext)) (i : Fin 8) : Prop :=
  1 ≤ i.val ∧ i.val < numCgroups ∧ (cgroupMembers threads i).length > 0

instance (threads : List (ThreadConfig Ext)) (i : Fin 8) : Decidable (Printed threads i) :=
  inferInstanceAs (Decidable (_ ∧ _))

section Code
variable [Rounding R]

def cgroupRow (threads : List (ThreadConfig Ext)) (duration : ℤ) (i : Fin 8) :
    Option (CgroupRow R) :=
  if Printed threads i then
    let count := (cgroupMembers threads i).length
    some ⟨count, cgroupOps threads i, toDouble (cgroupOps threads i) / num (count : R),
      toDouble (cgroupOps threads i) / num (duration : R),
      toDouble (cgroupThrottleTime threads i) / num ((cyclePerUs * 1000 : ℕ) : R)⟩
  else none

/-- `expected_share = cpu_shares / 1024.0`, `actual_share = cgroup_ops[i] / total_ops` and their
ratio. -/
def shareRow (cgroups : Fin 8 → CgroupConfig) (threads : List (ThreadConfig Ext)) (i : Fin 8) :
    Option (ShareRow R) :=
  if Printed threads i then
    let expectedShare := num ((cgroups i).cpuShares : R) / num 1024
    let actualShare := toDouble (cgroupOps threads i) /
      toDouble ((threads.map fun t => t.stats.totalOperations).sum % 2 ^ 64)
    some ⟨expectedShare, actualShare, actualShare / expectedShare⟩
  else none

/-- `print_cgroups_fairness_stats(threads, num_threads, duration)` over the global table
`cgroups`. -/
def printCgroupsFairnessStats (cgroups : Fin 8 → CgroupConfig) (threads : List (ThreadConfig Ext))
    (duration : ℤ) : CgroupsReport R where
  common := fairnessReport (threads.map ThreadConfig.stats) duration
  throttleMs := threads.map fun t =>
    toDouble t.ext.cgroupThrottleTime / num ((cyclePerUs * 1000 : ℕ) : R)
  summary := cgroupRow threads duration
  shares := shareRow cgroups threads

end Code

section Finite
variable {cgroups : Fin 8 → CgroupConfig} {threads : List (ThreadConfig Ext)} {duration : ℤ}

theorem cgroupRow_finite (hd : duration ≠ 0) (i : Fin 8) :
    (cgroupRow threads duration i : Option (CgroupRow R)).all CgroupRow.finite := by
  unfold cgroupRow
  split_ifs with hp
  · simp only [Option.all_some, CgroupRow.finite, Bool.and_eq_true]
    exact ⟨⟨isFinite_div_num rfl (Nat.cast_ne_zero.mpr hp.2.2.ne'),
      isFinite_div_num rfl (Int.cast_ne_zero.mpr hd)⟩, isFinite_div_num rfl cyclePerUs_mul_ne_zero⟩
  · rfl

theorem shareRow_finite (hshares : ∀ i : Fin 8, 1 ≤ i.val → i.val < numCgroups → (cgroups i).cpuShares ≠ 0)
    (hT : (threads.map fun t => t.stats.totalOperations).sum % 2 ^ 64 ≠ 0) (i : Fin 8) :
    (shareRow cgroups threads i : Option (ShareRow R)).all ShareRow.finite := by
  unfold shareRow
  split_ifs with hp
  · have hc : ((cgroups i).cpuShares : R) / 1024 ≠ 0 :=
      div_ne_zero (Int.cast_ne_zero.mpr (hshares i hp.1 hp.2.1)) (by norm_num)
    simp only [Option.all_some, ShareRow.finite, Bool.and_eq_true, num_div_num (by norm_num : (1024 : R) ≠ 0)]
    have ha := isFinite_div_num (R := R) (isFinite_num (a := (cgroupOps threads i : R)))
      (Nat.cast_ne_zero.mpr hT)
    exact ⟨⟨rfl, ha⟩, isFinite_div_num ha hc⟩
  · rfl

/-- With a nonzero duration, at least `√n` and below `2^32` operations in total, no
`lock_acquisitions * CYCLE_PER_US` past `2^64`, and nonzero `cpu_shares` in the printed slots,
every number `print_cgroups_fairness_stats` prints is finite. -/
theorem printCgroupsFairnessStats_finite
    (hshares : ∀ i : Fin 8, 1 ≤ i.val → i.val < numCgroups → (cgroups i).cpuShares ≠ 0)
    (hn : 0 < threads.length) (hd : duration ≠ 0)
    (hle : threads.length ≤ (threads.map fun t => t.stats.totalOperations).sum *
      (threads.map fun t => t.stats.totalOperations).sum)
    (hT : (threads.map fun t => t.stats.totalOperations).sum < 2 ^ 32)
    (hla : ∀ t ∈ threads, t.stats.lockAcquisitions * cyclePerUs < 2 ^ 64) :
    (printCgroupsFairnessStats cgroups threads duration : CgroupsReport R).finite := by
  have hpos : (threads.map fun t => t.stats.totalOperations).sum % 2 ^ 64 ≠ 0 := by
    rw [Nat.mod_eq_of_lt (hT.trans (by norm_num))]
    rintro h; rw [h] at hle; omega
  simp only [CgroupsReport.finite, printCgroupsFairnessStats, Bool.and_eq_true, List.all_eq_true,
    List.mem_map]
  refine ⟨⟨fairnessReport_finite (by simpa using hn) hd (by simpa [Function.comp_def] using hle)
    (by simpa [Function.comp_def] using hT) (by simpa using hla), ?_⟩,
    fun i _ => ⟨cgroupRow_finite hd i, shareRow_finite hshares hpos i⟩⟩
  rintro _ ⟨t, -, rfl⟩
  exact isFinite_div_num rfl cyclePerUs_mul_ne_zero

end Finite

end Cgroups

end Hscl
