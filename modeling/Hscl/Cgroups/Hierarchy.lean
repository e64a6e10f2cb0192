import Hscl.Harness.Nodes
import Hscl.Cgroups.Config

/-! `init_cgroups_hierarchy` of `upscale_fairness_cgroups.c`: root, cgroup and thread nodes. -/
namespace Hscl.Cgroups

/-- The cgroup `init_cgroups_hierarchy` puts thread `i` in. -/
def hierarchyCgroupIdx (i : ℕ) : Fin 8 :=
  if i < 2 then 2
  else if i < 4 then 1
  else if i < 8 then 3
  else if i < 12 then 4
  else 5

/-- `cgroups[cgroup_idx].thread_count++` for the threads `0 … num_threads - 1` in turn. -/
def countCgroupThreads (cgroups : Fin 8 → CgroupConfig) (numThreads : ℕ) : Fin 8 → CgroupConfig :=
  (List.range numThreads).foldl (fun table i =>
    Function.update table (hierarchyCgroupIdx i)
      { table (hierarchyCgroupIdx i) with
        threadCount := (table (hierarchyCgroupIdx i)).threadCount + 1 }) cgroups

/-- `init_cgroups_hierarchy(num_threads)` over the table `cgroups`: the node array, and the
table with the threads counted in. -/
def initCgroupsHierarchy (cgroups : Fin 8 → CgroupConfig) (numThreads now : ℕ) :
    NodeArray × (Fin 8 → CgroupConfig) :=
  let cgroupNodes := numCgroups - 1
  (⟨1 + cgroupNodes + numThreads,
    (0, .fresh 0 0 (cgroups 0).weight now) ::
      ((List.range' 1 cgroupNodes).map fun i => (i, .fresh i 0 (cgroups i).weight now)) ++
      (List.range numThreads).map fun i =>
        (1 + cgroupNodes + i, .fresh (1 + cgroupNodes + i) (hierarchyCgroupIdx i) 1024 now)⟩,
    countCgroupThreads cgroups numThreads)

theorem countCgroupThreads_apply (cgroups : Fin 8 → CgroupConfig) (numThreads : ℕ) (c : Fin 8) :
    countCgroupThreads cgroups numThreads c =
      { cgroups c with
        threadCount := (cgroups c).threadCount +
          ((List.range numThreads).filter fun i => hierarchyCgroupIdx i = c).length } := by
  induction numThreads with
  | zero => rfl
  | succ n ih =>
    rw [countCgroupThreads, List.range_succ, List.foldl_append, ← countCgroupThreads]
    simp only [List.foldl_cons, List.foldl_nil, List.filter_append, List.length_append]
    by_cases h : hierarchyCgroupIdx n = c
    · subst h; rw [Function.update_same, ih]; simp [add_assoc]
    · rw [Function.update_noteq (Ne.symm h), ih]; simp [h]

@[simp] theorem countCgroupThreads_cpuShares (cgroups : Fin 8 → CgroupConfig) (numThreads : ℕ)
    (c : Fin 8) : (countCgroupThreads cgroups numThreads c).cpuShares = (cgroups c).cpuShares := by
  rw [countCgroupThreads_apply]

@[simp] theorem countCgroupThreads_throttleQuota (cgroups : Fin 8 → CgroupConfig) (numThreads : ℕ)
    (c : Fin 8) :
    (countCgroupThreads cgroups numThreads c).throttleQuota = (cgroups c).throttleQuota := by
  rw [countCgroupThreads_apply]

section Nodes
variable {cgroups : Fin 8 → CgroupConfig} {numThreads now : ℕ}

theorem initCgroupsHierarchy_writesOnce : (initCgroupsHierarchy cgroups numThreads now).1.WritesOnce where
  indices := by
    have : List.range (1 + (numCgroups - 1) + numThreads) =
        0 :: List.range' 1 (numCgroups - 1) ++ List.range' (1 + (numCgroups - 1)) numThreads := by
      rw [List.range_eq_range', show 1 + (numCgroups - 1) + numThreads =
        numThreads + (numCgroups - 1) + 1 by omega, List.range'_succ, List.cons_append,
        List.range'_append_1]
    simp [initCgroupsHierarchy, this, List.range'_eq_map_range, Function.comp_def]
  ids := by
    simp only [initCgroupsHierarchy, List.mem_cons, List.mem_append, List.mem_map]
    rintro _ ((rfl | ⟨g, -, rfl⟩) | ⟨i, -, rfl⟩) <;> rfl

theorem initCgroupsHierarchy_thread {i : ℕ} (h : i < numThreads) :
    (initCgroupsHierarchy cgroups numThreads now).1.get? (1 + (numCgroups - 1) + i) =
      some (.fresh (1 + (numCgroups - 1) + i) (hierarchyCgroupIdx i) 1024 now) :=
  initCgroupsHierarchy_writesOnce.get? <| List.mem_append_right _ <|
    List.mem_map.mpr ⟨i, List.mem_range.mpr h, rfl⟩

end Nodes

end Hscl.Cgroups
