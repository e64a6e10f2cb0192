import Hscl.Analysis.Double
import Hscl.Analysis.Moments
import Hscl.Mutex.Worker

/-! `print_hierarchy_stats` of `upscale_mutex.c` over the records the workers leave. -/
namespace Hscl.Mutex
open Run Dbl

variable {R : Type} [LinearOrderedField R]

/-- A worker's `total_operations`. -/
def totalOps (t : ThreadConfig Ext) : ℕ := t.stats.totalOperations

/-- `threads[i].total_operations` as exact values, in thread order. -/
def totals (threads : List (ThreadConfig Ext)) : List R := threads.map fun t => (totalOps t : R)

@[simp] theorem totals_length {threads : List (ThreadConfig Ext)} :
    (totals threads : List R).length = threads.length :=
  List.length_map _ _

theorem totals_sum {threads : List (ThreadConfig Ext)} :
    (totals threads : List R).sum = ((threads.map totalOps).sum : R) := by
  induction threads with
  | nil => simp [totals]
  | cons t ts ih => simpa [totals] using ih

theorem totals_nonneg {threads : List (ThreadConfig Ext)} : ∀ x ∈ (totals threads : List R), 0 ≤ x := by
  simp [totals]

/-- A row of the per-thread table: `ops_per_sec` and `lock_wait_ms`. -/
structure ThreadRow (R : Type) where
  opsPerSec : Dbl R
  lockWaitMs : Dbl R

/-- A row of the "Hierarchy Level Performance" table. -/
structure LevelRow (R : Type) where
  avgOps : Dbl R
  threads : ℕ
  fairnessIndex : Dbl R
  cov : Dbl R
  expectation : String
  assessment : String

/-- What `print_hierarchy_stats` prints, beyond fields it copies from the records. -/
structure HierarchyReport (R : Type) where
  rows : List (ThreadRow R)
  levels : HierarchyLevel → Option (LevelRow R)
  jain : Dbl R
  cov : Dbl R
  gini : Dbl R
  spread : Dbl R
  minOps : Dbl R
  maxOps : Dbl R
  avgOps : Dbl R
  assessment : String
  criticalVsBackground : Option (Dbl R × String)

def levelExpectation : HierarchyLevel → String
  | 0 => "HIGHEST"
  | 1 => "HIGH"
  | 2 => "MEDIUM"
  | 3 => "LOW"
  | 4 => "LOWEST"

/-- The `switch (level)` of the assessment column. -/
def levelAssessment (level : HierarchyLevel) (avgOps : Dbl R) : String :=
  match level with
  | 0 => if lt (num 50) avgOps then "GOOD (Dominating)" else "POOR (Not dominating)"
  | 1 => if lt (num 30) avgOps then "GOOD" else "POOR"
  | 2 => if lt (num 15) avgOps then "GOOD" else "FAIR"
  | 3 => if lt avgOps (num 20) then "GOOD (Being starved)" else "POOR (Too much access)"
  | 4 => if lt avgOps (num 10) then "GOOD (Properly starved)" else "POOR (Getting too much)"

/-- The workers on `level`, in thread order. -/
def levelMembers (threads : List (ThreadConfig Ext)) (level : HierarchyLevel) :
    List (ThreadConfig Ext) :=
  threads.filter fun t => t.ext.hierarchyLevel = level

/-- `total_ops_by_hierarchy[level]`, an `ull` accumulator. -/
def levelTotal (threads : List (ThreadConfig Ext)) (level : HierarchyLevel) : ℕ :=
  ((levelMembers threads level).map totalOps).sum % 2 ^ 64

section Code
variable [Rounding R]

/-- `(double)threads[i].total_operations`, in thread order. -/
def doubleTotals (threads : List (ThreadConfig Ext)) : List (Dbl R) :=
  threads.map fun t => toDouble (totalOps t)

def threadRow (duration : ℤ) (t : ThreadConfig Ext) : ThreadRow R :=
  ⟨toDouble (totalOps t) / num (duration : R),
    toDouble t.stats.lockWaitTime / num ((cyclePerUs * 1000 : ℕ) : R)⟩

/-- Jain's index `(Σ ops)² / (count Σ ops²)` of `count` values. -/
def jainIndex (ops : List (Dbl R)) (count : ℕ) : Dbl R :=
  let sum := Dbl.sum ops
  (sum * sum) / (num (count : R) * Dbl.sum (ops.map fun o => o * o))

/-- The population variance of `count` values around `center`. -/
def variance (ops : List (Dbl R)) (count : ℕ) (center : Dbl R) : Dbl R :=
  Dbl.sum (ops.map fun o => (o - center) * (o - center)) / num (count : R)

/-- A level's ops per second, `total_operations / duration` of each member. -/
def levelOps (threads : List (ThreadConfig Ext)) (duration : ℤ) (level : HierarchyLevel) :
    List (Dbl R) :=
  (levelMembers threads level).map fun t => toDouble (totalOps t) / num (duration : R)

/-- The per-level Jain index and CoV: of the level's ops per second when it has two threads
or more, `1.0` and `0.0` otherwise. -/
def levelFairness (sqrt : R → R) (ops : List (Dbl R)) : Dbl R × Dbl R :=
  let count := ops.length
  if count > 1 then
    let mean := Dbl.sum ops / num (count : R)
    (jainIndex ops count,
      if lt (num 0) mean then Dbl.sqrt sqrt (variance ops count mean) / mean else num 0)
  else (num 1, num 0)

/-- A row of the level table, printed when `threads_by_hierarchy[level] > 0`. -/
def levelRow (sqrt : R → R) (threads : List (ThreadConfig Ext)) (duration : ℤ)
    (level : HierarchyLevel) : Option (LevelRow R) :=
  let count := (levelMembers threads level).length
  if count > 0 then
    let avgOps := toDouble (levelTotal threads level) / num (int32 (count * duration) : R)
    let fairness := levelFairness sqrt (levelOps threads duration level)
    some ⟨avgOps, count, fairness.1, fairness.2, levelExpectation level,
      levelAssessment level avgOps⟩
  else none

/-- The assessment by the overall index; each threshold is the `double` its literal rounds to. -/
def overallAssessment (jain : Dbl R) : String :=
  if le (Rounding.round (95 / 100)) jain then "EXCELLENT (Very Fair)"
  else if le (Rounding.round (80 / 100)) jain then "GOOD (Mostly Fair)"
  else if le (Rounding.round (60 / 100)) jain then "MODERATE (Some Unfairness)"
  else if le (Rounding.round (40 / 100)) jain then "POOR (Significant Unfairness)"
  else "VERY POOR (Highly Unfair)"

/-- The "Critical vs Background ratio" line and its judgement. -/
def criticalVsBackground (threads : List (ThreadConfig Ext)) : Option (Dbl R × String) :=
  let criticalThreads := (levelMembers threads 0).length
  let backgroundThreads := (levelMembers threads 4).length
  if criticalThreads > 0 ∧ backgroundThreads > 0 then
    let critical := toDouble (levelTotal threads 0) / num (criticalThreads : R)
    let background := toDouble (levelTotal threads 4) / num (backgroundThreads : R)
    some (if lt (num 0) background then critical / background else critical,
      if lt (background * num 2) critical then "(GOOD - hierarchy working)"
      else if lt background critical then "(FAIR - some hierarchy effect)"
      else "(POOR - hierarchy not working)")
  else none

/-- `print_hierarchy_stats(threads, num_threads, duration, lock_type)`, with `num_threads`
the length of `threads`. -/
def printHierarchyStats (sqrt : R → R) (threads : List (ThreadConfig Ext)) (duration : ℤ) :
    HierarchyReport R :=
  let n := threads.length
  let xs : List (Dbl R) := doubleTotals threads
  let totalOps : ℕ := (threads.map totalOps).sum % 2 ^ 64
  let minMax := minMaxOps (xs.headD (num 0)) xs
  let avgOps := toDouble totalOps / num (n : R)
  let sumOps := Dbl.sum xs
  let jain := jainIndex xs n
  let std := Dbl.sqrt sqrt (variance xs n (sumOps / num (n : R)))
  { rows := threads.map (threadRow duration)
    levels := levelRow sqrt threads duration
    jain := jain
    cov := if lt (num 0) avgOps then std / avgOps else num 0
    gini := Dbl.sum (xs.flatMap fun a => xs.map fun b => fabs (a - b)) /
      (num 2 * num (n : R) * sumOps)
    spread := if lt (num 0) avgOps then (minMax.2 - minMax.1) / avgOps * num 100 else num 0
    minOps := minMax.1
    maxOps := minMax.2
    avgOps := avgOps
    assessment := overallAssessment jain
    criticalVsBackground := criticalVsBackground threads }

section Fields
variable (sqrt : R → R) (threads : List (ThreadConfig Ext)) (duration : ℤ)

theorem printHierarchyStats_avgOps : (printHierarchyStats sqrt threads duration).avgOps =
    toDouble ((threads.map totalOps).sum % 2 ^ 64) / num (threads.length : R) := rfl

theorem printHierarchyStats_cov_eq : (printHierarchyStats sqrt threads duration).cov =
    if lt (num 0) (printHierarchyStats sqrt threads duration).avgOps then
      Dbl.sqrt sqrt (variance (doubleTotals threads) threads.length
        (Dbl.sum (doubleTotals threads) / num (threads.length : R))) /
        (printHierarchyStats sqrt threads duration).avgOps
    else num 0 := rfl

theorem printHierarchyStats_spread_eq : (printHierarchyStats sqrt threads duration).spread =
    if lt (num 0) (printHierarchyStats sqrt threads duration).avgOps then
      ((printHierarchyStats sqrt threads duration).maxOps -
        (printHierarchyStats sqrt threads duration).minOps) /
        (printHierarchyStats sqrt threads duration).avgOps * num 100
    else num 0 := rfl

end Fields

end Code

/-- Every number of a row is printed as a number, not `inf` or `nan`. -/
def ThreadRow.finite (r : ThreadRow R) : Bool := r.opsPerSec.isFinite && r.lockWaitMs.isFinite

def LevelRow.finite (r : LevelRow R) : Bool :=
  r.avgOps.isFinite && r.fairnessIndex.isFinite && r.cov.isFinite

/-- Every number `print_hierarchy_stats` prints is a number. -/
def HierarchyReport.finite (r : HierarchyReport R) : Bool :=
  r.rows.all ThreadRow.finite && (List.finRange 5).all (fun l => (r.levels l).all LevelRow.finite) &&
    r.jain.isFinite && r.cov.isFinite && r.gini.isFinite && r.spread.isFinite &&
    r.minOps.isFinite && r.maxOps.isFinite && r.avgOps.isFinite &&
    r.criticalVsBackground.all fun c => c.1.isFinite

section Exact
variable {xs : List R}

@[simp] theorem doubleTotals_exact (threads : List (ThreadConfig Ext)) :
    (doubleTotals threads : List (Dbl R)) = (totals threads).map num := by
  simp [doubleTotals, totals]

@[simp] theorem sum_map_num_mul (xs : List R) :
    Dbl.sum ((xs.map num).map fun o => o * o) = num (sumSq xs) := by
  rw [List.map_map]; exact (congrArg Dbl.sum (by simp [Function.comp_def])).trans (sum_map_num _)

@[simp] theorem sum_flatMap_fabs_num (xs : List R) :
    Dbl.sum ((xs.map num).flatMap fun a => (xs.map num).map fun b => fabs (a - b)) =
      num (absDiffSum xs) := by
  have : ((xs.map num).flatMap fun a => (xs.map num).map fun b => fabs (a - b)) =
      (xs.flatMap fun a => xs.map fun b => |a - b|).map num := by
    simp [List.map_flatMap, List.flatMap_map, Function.comp_def]
  rw [this, sum_map_num, List.flatMap, List.sum_flatten, List.map_map]
  rfl

theorem doubleTotals_binary64 {threads : List (ThreadConfig Ext)} (h : (threads.map totalOps).sum < 2 ^ 53) :
    (doubleTotals threads : List (Dbl Binary64)) = (totals threads).map num := by
  simp only [doubleTotals, totals, List.map_map]
  refine List.map_congr_left fun t ht => toDouble_of_lt ?_
  exact (List.le_sum_of_mem (List.mem_map_of_mem totalOps ht)).trans_lt h

theorem jainIndex_num (h : (xs.length : R) * sumSq xs ≠ 0) :
    jainIndex (xs.map num) xs.length = num (xs.sum * xs.sum / (xs.length * sumSq xs)) := by
  simp only [jainIndex, sum_map_num, sum_map_num_mul, num_mul_num, num_div_num h]

theorem variance_num {m : ℕ} (c : R) (hm : (m : R) ≠ 0) :
    variance (xs.map num) m (num c) = num (sumSqDev c xs / m) := by
  have : ((xs.map num).map fun o => (o - num c) * (o - num c)) =
      (xs.map fun x => (x - c) * (x - c)).map num := by simp [Function.comp_def]
  rw [variance, this, sum_map_num, num_div_num hm, sumSqDev]

theorem levelFairness_num {sqrt : R → R} (hS : 0 < xs.sum)
    (hm : 2 ≤ xs.length) : levelFairness sqrt (xs.map num) = (num (jainOf xs), num (covOf sqrt xs)) := by
  have hm' : (0 : R) < xs.length := by exact_mod_cast (show 0 < xs.length by omega)
  have hmean : 0 < meanOf xs := div_pos hS hm'
  have hv : 0 ≤ sumSqDev (meanOf xs) xs / xs.length := div_nonneg sumSqDev_nonneg hm'.le
  simp only [levelFairness, List.length_map, show xs.length > 1 by omega, if_true, sum_map_num,
    num_div_num hm'.ne', jainIndex_num (mul_pos hm' (sumSq_pos hS)).ne', jainOf]
  rw [← meanOf, variance_num _ hm'.ne', sqrt_num hv, lt_num, decide_eq_true hmean, if_pos rfl,
    num_div_num hmean.ne', covOf]

end Exact

/-- The judgement the "Critical vs Background" line ends with, by the two comparisons the code
makes of a nonnegative `background_avg` with `critical_avg`. -/
theorem judgement_iff {C B : R} (hB : 0 ≤ B) {judgement : String}
    (h : judgement = if B * 2 < C then "(GOOD - hierarchy working)"
      else if B < C then "(FAIR - some hierarchy effect)" else "(POOR - hierarchy not working)") :
    (judgement = "(GOOD - hierarchy working)" ↔ B * 2 < C) ∧
      (judgement = "(FAIR - some hierarchy effect)" ↔ B < C ∧ C ≤ B * 2) ∧
      (judgement = "(POOR - hierarchy not working)" ↔ C ≤ B) := by
  subst h
  split_ifs <;> simp only [String.reduceEq, true_iff, false_iff, not_lt, not_and, not_le] <;>
    constructorm* _ ∧ _ <;> (try intro) <;> linarith

/-- The "Critical vs Background ratio" line once both levels have threads, in terms of the two
averages `critical_avg` and `background_avg`. With a busy background level the judgement reads
the printed ratio: "GOOD" above `2`, "FAIR" in `(1, 2]`, "POOR" at `1` or below. With an idle
one the printed ratio falls back to `critical_avg`, but the judgement still compares against
`background_avg * 2 = 0`: any positive ratio, `1.00` included, is judged "GOOD". -/
theorem criticalVsBackground_judgement (threads : List (ThreadConfig Ext))
    (hc : 0 < (levelMembers threads 0).length) (hb : 0 < (levelMembers threads 4).length) :
    ∃ (ratio : R) (judgement : String), criticalVsBackground threads = some (num ratio, judgement) ∧
      (0 < (levelTotal threads 4 : R) / (levelMembers threads 4).length →
        ratio = (levelTotal threads 0 : R) / (levelMembers threads 0).length /
          ((levelTotal threads 4 : R) / (levelMembers threads 4).length) ∧
        (judgement = "(GOOD - hierarchy working)" ↔ 2 < ratio) ∧
        (judgement = "(FAIR - some hierarchy effect)" ↔ 1 < ratio ∧ ratio ≤ 2) ∧
        (judgement = "(POOR - hierarchy not working)" ↔ ratio ≤ 1)) ∧
      ((levelTotal threads 4 : R) / (levelMembers threads 4).length = 0 →
        ratio = (levelTotal threads 0 : R) / (levelMembers threads 0).length ∧
        (judgement = "(GOOD - hierarchy working)" ↔ 0 < ratio) ∧
        (judgement = "(POOR - hierarchy not working)" ↔ ratio = 0)) := by
  have hc' : ((levelMembers threads 0).length : R) ≠ 0 := Nat.cast_ne_zero.mpr hc.ne'
  have hb' : ((levelMembers threads 4).length : R) ≠ 0 := Nat.cast_ne_zero.mpr hb.ne'
  have hC : 0 ≤ (levelTotal threads 0 : R) / (levelMembers threads 0).length := by positivity
  have hB : 0 ≤ (levelTotal threads 4 : R) / (levelMembers threads 4).length := by positivity
  simp only [criticalVsBackground, if_pos (And.intro hc hb), toDouble_exact, num_div_num hc', num_div_num hb', lt_num,
    num_mul_num, decide_eq_true_eq]
  generalize (levelTotal threads 0 : R) / (levelMembers threads 0).length = C at hC ⊢
  generalize (levelTotal threads 4 : R) / (levelMembers threads 4).length = B at hB ⊢
  obtain ⟨hgood, hfair, hpoor⟩ := judgement_iff hB rfl
  rcases hB.lt_or_eq with hB | rfl
  · refine ⟨C / B, _, by rw [if_pos hB, num_div_num hB.ne'], fun _ => ⟨rfl, ?_⟩, fun h => absurd h hB.ne'⟩
    rw [hgood, hfair, hpoor, lt_div_iff₀ hB, lt_div_iff₀ hB, div_le_iff₀ hB, div_le_iff₀ hB, one_mul,
      mul_comm 2 B]
    exact ⟨Iff.rfl, Iff.rfl, Iff.rfl⟩
  · refine ⟨C, _, by rw [if_neg (lt_irrefl 0)], fun h => absurd h (lt_irrefl 0), fun _ => ⟨rfl, ?_, ?_⟩⟩
    · rw [hgood, zero_mul]
    · rw [hpoor, le_antisymm_iff, and_iff_left hC]

/-- Five workers as `main` starts them, the critical one doing one operation and the others
none: the line reads "Critical vs Background ratio: 1.00:1 (GOOD - hierarchy working)". -/
theorem criticalVsBackground_background_idle :
    (criticalVsBackground ((List.range 5).map fun i =>
      ⟨i, 0, 0, { totalOperations := if i = 0 then 1 else 0 }, threadRecord i⟩) :
        Option (Dbl ℚ × String)) = some (num 1, "(GOOD - hierarchy working)") := by
  obtain ⟨ratio, judgement, he, -, hidle⟩ := criticalVsBackground_judgement (R := ℚ)
    ((List.range 5).map fun i => ⟨i, 0, 0, { totalOperations := if i = 0 then 1 else 0 }, threadRecord i⟩)
    (by decide) (by decide)
  obtain ⟨hr, hj, -⟩ := hidle (by simp [levelTotal, levelMembers, totalOps, threadRecord, List.range_succ])
  have h1 : ratio = 1 := by simp [hr, levelTotal, levelMembers, totalOps, threadRecord, List.range_succ]
  rw [he, h1, hj.mpr (h1 ▸ one_pos)]

end Hscl.Mutex
