import Hscl.Analysis.Fairness

/-! The cgroup sections of `print_cgroups_fairness_stats` over the records `main` configured. -/
namespace Hscl.Cgroups
open Run Dbl

/-- Records whose cgroups are the ones `configure_threads_for_cgroups` gave their threads. -/
def Configured (threads : List (ThreadConfig Ext)) : Prop :=
  ∀ i (h : i < threads.length), threads[i].ext.cgroupId = (cgroupOfThread i).1

instance (threads : List (ThreadConfig Ext)) : Decidable (Configured threads) :=
  inferInstanceAs (Decidable (∀ i (_ : i < threads.length), _))

theorem configured_of_reachable {n randMax : ℕ} {s : State n Unit (Fin 8 → CgroupConfig) Ext}
    (hs : Reachable harness randMax s) : Configured (List.ofFn s.threads) := fun i h => by
  simpa using cgroupId_of_reachable hs ⟨i, by simpa using h⟩

/-- The slots `1 ≤ i < num_cgroups` the summary and the share analysis loop over. -/
def summarySlots : Finset (Fin 8) := Finset.univ.filter fun c => 1 ≤ c.val ∧ c.val < numCgroups

/-- The slots with threads, the ones a line is printed for. -/
def printedSlots (threads : List (ThreadConfig Ext)) : Finset (Fin 8) :=
  summarySlots.filter fun c => 0 < (cgroupMembers threads c).length

theorem mem_printedSlots {threads : List (ThreadConfig Ext)} {c : Fin 8} :
    c ∈ printedSlots threads ↔ Printed threads c := by
  simp [printedSlots, summarySlots, Printed, and_assoc]

theorem sum_filter_key {α : Type} {S : Finset (Fin 8)} {key : α → Fin 8} (g : α → ℕ) :
    ∀ {l : List α}, (∀ x ∈ l, key x ∈ S) →
      ∑ c ∈ S, ((l.filter fun x => key x = c).map g).sum = (l.map g).sum
  | [], _ => by simp
  | x :: l, h => by
    have hx := h x (List.mem_cons_self _ _)
    have hcons : ∀ c, (((x :: l).filter fun y => key y = c).map g).sum =
        (if key x = c then g x else 0) + ((l.filter fun y => key y = c).map g).sum := by
      intro c; by_cases hc : key x = c <;> simp [List.filter_cons, hc]
    simp only [hcons, Finset.sum_add_distrib, Finset.sum_ite_eq, if_pos hx,
      sum_filter_key g fun y hy => h y (List.mem_cons_of_mem _ hy), List.map_cons, List.sum_cons]

section Configured
variable {threads : List (ThreadConfig Ext)} (hc : Configured threads)
include hc

theorem Configured.cgroupIds :
    threads.map (fun t => t.ext.cgroupId) =
      (List.range threads.length).map fun i => (cgroupOfThread i).1 :=
  List.ext_get (by simp) fun i h₁ _ => by simp [hc i (by simpa using h₁)]

theorem Configured.mem_summarySlots : ∀ t ∈ threads, t.ext.cgroupId ∈ summarySlots := by
  intro t ht
  obtain ⟨⟨i, hi⟩, rfl⟩ := List.get_of_mem ht
  simpa [summarySlots, hc i hi] using cgroupOfThread_mem i

theorem Configured.cgroupMembers_length (c : Fin 8) :
    (cgroupMembers threads c).length =
      ((List.range threads.length).filter fun i => (cgroupOfThread i).1 = c).length := by
  rw [cgroupMembers, ← List.countP_eq_length_filter, ← List.countP_eq_length_filter]
  have := congrArg (List.countP fun d => d = c) hc.cgroupIds
  simpa [List.countP_map, Function.comp_def] using this

theorem Configured.sum_members_length :
    ∑ c ∈ summarySlots, (cgroupMembers threads c).length = threads.length := by
  simpa using sum_filter_key (fun _ => 1) hc.mem_summarySlots

theorem Configured.sum_members_ops :
    ∑ c ∈ summarySlots, ((cgroupMembers threads c).map fun t => t.stats.totalOperations).sum =
      (threads.map fun t => t.stats.totalOperations).sum :=
  sum_filter_key _ hc.mem_summarySlots

theorem Configured.sum_cgroupOps_mod :
    (∑ c ∈ summarySlots, cgroupOps threads c) % 2 ^ 64 =
      (threads.map fun t => t.stats.totalOperations).sum % 2 ^ 64 := by
  rw [← hc.sum_members_ops, Finset.sum_nat_mod _ _ (fun c => ((cgroupMembers threads c).map
    fun t => t.stats.totalOperations).sum)]
  rfl

end Configured

section Shares
variable {R : Type} [LinearOrderedField R] {threads : List (ThreadConfig Ext)}

theorem initCgroupConfigs_cpuShares_pos : ∀ c ∈ summarySlots, 0 < (initCgroupConfigs c).cpuShares := by
  decide

theorem memberOps_le (c : Fin 8) :
    ((cgroupMembers threads c).map fun t => t.stats.totalOperations).sum ≤
      (threads.map fun t => t.stats.totalOperations).sum :=
  ((List.filter_sublist _).map _).sum_le_sum fun _ _ => Nat.zero_le _

theorem cgroupOps_eq (hT : (threads.map fun t => t.stats.totalOperations).sum < 2 ^ 64) (c : Fin 8) :
    cgroupOps threads c = ((cgroupMembers threads c).map fun t => t.stats.totalOperations).sum :=
  Nat.mod_eq_of_lt ((memberOps_le c).trans_lt hT)

theorem Configured.sum_printed_ops (hc : Configured threads)
    (hT : (threads.map fun t => t.stats.totalOperations).sum < 2 ^ 64) :
    ∑ c ∈ printedSlots threads, cgroupOps threads c = (threads.map fun t => t.stats.totalOperations).sum := by
  rw [printedSlots, Finset.sum_filter_of_ne, ← hc.sum_members_ops]
  · exact Finset.sum_congr rfl fun c _ => cgroupOps_eq hT c
  · exact fun c _ h => List.length_pos.mpr fun he => h (by simp [cgroupOps, he])

theorem Configured.two_mem_printedSlots (hc : Configured threads) (hn : 0 < threads.length) :
    2 ∈ printedSlots threads := by
  refine mem_printedSlots.mpr ⟨by decide, by decide, List.length_pos_of_mem (a := threads[0]) ?_⟩
  exact List.mem_filter.mpr ⟨List.getElem_mem hn, by simp [hc 0 hn, cgroupOfThread]⟩

theorem Configured.sum_printed_cpuShares (hc : Configured threads) (hn : 0 < threads.length) :
    4096 ≤ ∑ c ∈ printedSlots threads, ((initCgroupConfigs c).cpuShares : R) := by
  have hle := Finset.single_le_sum (f := fun c => ((initCgroupConfigs c).cpuShares : R))
    (fun c hc => Int.cast_nonneg.mpr (initCgroupConfigs_cpuShares_pos c (Finset.mem_filter.mp hc).1).le)
    (hc.two_mem_printedSlots hn)
  exact le_of_eq_of_le (by norm_num [initCgroupConfigs]) hle

theorem shareRow_printed (hpos : 0 < (threads.map fun t => t.stats.totalOperations).sum)
    (hT : (threads.map fun t => t.stats.totalOperations).sum < 2 ^ 64) (m : ℕ) {c : Fin 8}
    (hp : c ∈ printedSlots threads) :
    (shareRow (countCgroupThreads initCgroupConfigs m) threads c : Option (ShareRow R)) =
      some ⟨num (((initCgroupConfigs c).cpuShares : R) / 1024),
        num ((cgroupOps threads c : R) / ((threads.map fun t => t.stats.totalOperations).sum : ℕ)),
        num ((cgroupOps threads c : R) / ((threads.map fun t => t.stats.totalOperations).sum : ℕ) /
          (((initCgroupConfigs c).cpuShares : R) / 1024))⟩ := by
  have hcs : ((initCgroupConfigs c).cpuShares : R) / 1024 ≠ 0 := div_ne_zero
    (Int.cast_ne_zero.mpr (initCgroupConfigs_cpuShares_pos c (Finset.mem_filter.mp hp).1).ne') (by norm_num)
  have hT0 : (((threads.map fun t => t.stats.totalOperations).sum : ℕ) : R) ≠ 0 :=
    Nat.cast_ne_zero.mpr hpos.ne'
  simp only [shareRow, if_pos (mem_printedSlots.mp hp), countCgroupThreads_cpuShares, Nat.mod_eq_of_lt hT,
    toDouble_exact, num_div_num (by norm_num : (1024 : R) ≠ 0), num_div_num hT0, num_div_num hcs]

end Shares

/-- The "CGroup Fairness Analysis" lines do not split `100%` of the CPU. The "Actual" shares of the
printed cgroups add up to one, but each "Expected" share is `cpu_shares / 1024`, not a fraction
of the printed cgroups' shares: the realtime line alone expects `4096 / 1024`, so the expected
shares add up to four at least. When every printed cgroup's operations are proportional to its
`cpu_shares`, every printed ratio is `1024` over the printed `cpu_shares`, a quarter at most. -/
theorem cgroup_shares_unnormalised {R : Type} [LinearOrderedField R] (m : ℕ)
    {threads : List (ThreadConfig Ext)} (hc : Configured threads) (hn : 0 < threads.length)
    (hpos : 0 < (threads.map fun t => t.stats.totalOperations).sum)
    (hT : (threads.map fun t => t.stats.totalOperations).sum < 2 ^ 64) :
    (∀ c ∈ printedSlots threads,
      (shareRow (countCgroupThreads initCgroupConfigs m) threads c : Option (ShareRow R)) =
        some ⟨num (((initCgroupConfigs c).cpuShares : R) / 1024),
          num ((cgroupOps threads c : R) / ((threads.map fun t => t.stats.totalOperations).sum : ℕ)),
          num ((cgroupOps threads c : R) / ((threads.map fun t => t.stats.totalOperations).sum : ℕ) /
            (((initCgroupConfigs c).cpuShares : R) / 1024))⟩) ∧
    4 ≤ ∑ c ∈ printedSlots threads, ((initCgroupConfigs c).cpuShares : R) / 1024 ∧
    ∑ c ∈ printedSlots threads,
      (cgroupOps threads c : R) / ((threads.map fun t => t.stats.totalOperations).sum : ℕ) = 1 ∧
    1024 / ∑ c ∈ printedSlots threads, ((initCgroupConfigs c).cpuShares : R) ≤ 1 / 4 ∧
    ∀ k : R, (∀ c ∈ printedSlots threads, (cgroupOps threads c : R) = k * (initCgroupConfigs c).cpuShares) →
      ∀ c ∈ printedSlots threads,
        (cgroupOps threads c : R) / ((threads.map fun t => t.stats.totalOperations).sum : ℕ) /
            (((initCgroupConfigs c).cpuShares : R) / 1024) =
          1024 / ∑ c ∈ printedSlots threads, ((initCgroupConfigs c).cpuShares : R) := by
  have hops : ∑ c ∈ printedSlots threads, (cgroupOps threads c : R) =
      ((threads.map fun t => t.stats.totalOperations).sum : ℕ) := by
    exact_mod_cast hc.sum_printed_ops hT
  have hS := hc.sum_printed_cpuShares (R := R) hn
  have hT0 : (((threads.map fun t => t.stats.totalOperations).sum : ℕ) : R) ≠ 0 :=
    Nat.cast_ne_zero.mpr hpos.ne'
  refine ⟨fun c hp => shareRow_printed hpos hT m hp, ?_, ?_, ?_, fun k hk c hp => ?_⟩
  · rw [← Finset.sum_div, le_div_iff₀ (by norm_num)]; linarith only [hS]
  · rw [← Finset.sum_div, hops, div_self hT0]
  · rw [div_le_div_iff₀ (by linarith only [hS]) (by norm_num)]; linarith only [hS]
  · have hkS : (((threads.map fun t => t.stats.totalOperations).sum : ℕ) : R) =
        k * ∑ c ∈ printedSlots threads, ((initCgroupConfigs c).cpuShares : R) := by
      rw [← hops, Finset.mul_sum]; exact Finset.sum_congr rfl hk
    have hk0 : k ≠ 0 := by rintro rfl; exact hT0 (by simpa using hkS)
    have hcs : ((initCgroupConfigs c).cpuShares : R) ≠ 0 :=
      Int.cast_ne_zero.mpr (initCgroupConfigs_cpuShares_pos c (Finset.mem_filter.mp hp).1).ne'
    rw [hk c hp, hkS, mul_div_mul_left _ _ hk0, div_div_div_cancel_left' _ _ hcs]

/-- One worker doing one operation: the realtime line is the only line, and it reads
Expected 400.0%, Actual 100.0%, Ratio 0.25. -/
theorem cgroup_shares_single_worker :
    printedSlots [⟨0, 0, 0, { totalOperations := 1 }, threadRecord 0⟩] = {2} ∧
      (shareRow (countCgroupThreads initCgroupConfigs 1)
        [⟨0, 0, 0, { totalOperations := 1 }, threadRecord 0⟩] 2 : Option (ShareRow ℚ)) =
        some ⟨num 4, num 1, num (1 / 4)⟩ := by
  refine ⟨by decide, ?_⟩
  rw [(cgroup_shares_unnormalised 1
    (show Configured [⟨0, 0, 0, { totalOperations := 1 }, threadRecord 0⟩] by decide)
    (by decide) (by decide) (by norm_num)).1 2 (by decide)]
  norm_num [initCgroupConfigs, cgroupOps, cgroupMembers, threadRecord, cgroupOfThread]

theorem initCgroupConfigs_threadCount (c : Fin 8) : (initCgroupConfigs c).threadCount = 0 := by
  revert c; decide

theorem countCgroupThreads_threadCount (numThreads : ℕ) (c : Fin 8) :
    (countCgroupThreads initCgroupConfigs numThreads c).threadCount =
      ((List.range numThreads).filter fun i => (cgroupOfThread i).1 = c).length := by
  simp [countCgroupThreads_apply, initCgroupConfigs_threadCount, hierarchyCgroupIdx_eq]

theorem threadRecord_parentNode (i : ℕ) : (threadRecord i).parentNode = 1 + (numCgroups - 1) + i := by
  simp only [threadRecord]; omega

/-- The cgroup policy `init_cgroups_hierarchy` and `configure_threads_for_cgroups` each carry
agrees: thread `i`'s node `num_cgroups + i` is allocated, holds that id, and hangs under the
thread's `cgroup_id`, a slot in `[1, num_cgroups)`. Over every run, the `thread_count` the table
ends with is the count the summary makes from the joined records, no worker is in the root
cgroup, so the summary's slots hold every thread, and their `cgroup_ops` add up to `total_ops`
in `ull` arithmetic. -/
theorem cgroup_assignment_agrees (numThreads now : ℕ) :
    (initCgroupsHierarchy initCgroupConfigs numThreads now).1.numNodes =
        1 + (numCgroups - 1) + numThreads ∧
    (∀ i < numThreads,
      (threadRecord i).parentNode = numCgroups + i ∧
      (threadRecord i).parentNode < (initCgroupsHierarchy initCgroupConfigs numThreads now).1.numNodes ∧
      ((initCgroupsHierarchy initCgroupConfigs numThreads now).1.get?
          (threadRecord i).parentNode).map Node.id = some (threadRecord i).parentNode ∧
      (initCgroupsHierarchy initCgroupConfigs numThreads now).1.parent (threadRecord i).parentNode =
        (threadRecord i).cgroupId.val ∧
      1 ≤ (threadRecord i).cgroupId.val ∧ (threadRecord i).cgroupId.val < numCgroups) ∧
    ∀ (randMax : ℕ) (s : State numThreads Unit (Fin 8 → CgroupConfig) Ext),
      Reachable harness randMax s →
      (∀ c, ((initCgroupsHierarchy initCgroupConfigs numThreads now).2 c).threadCount =
        (cgroupMembers (List.ofFn s.threads) c).length) ∧
      (∀ j, (s.threads j).ext.cgroupId ≠ 0) ∧
      ∑ c ∈ summarySlots, (cgroupMembers (List.ofFn s.threads) c).length = numThreads ∧
      (∑ c ∈ summarySlots, cgroupOps (List.ofFn s.threads) c) % 2 ^ 64 =
        ((List.ofFn s.threads).map fun t => t.stats.totalOperations).sum % 2 ^ 64 := by
  refine ⟨rfl, fun i hi => ?_, fun randMax s hs => ?_⟩
  · have hget := @initCgroupsHierarchy_thread initCgroupConfigs numThreads now i hi
    rw [threadRecord_parentNode]
    refine ⟨by simp only [numCgroups], by simp only [initCgroupsHierarchy]; omega, by simp [hget, Node.fresh],
      by simp [NodeArray.parent, hget, Node.fresh, hierarchyCgroupIdx_eq, threadRecord],
      cgroupOfThread_mem i⟩
  · have hc := configured_of_reachable hs
    refine ⟨fun c => ?_, fun j h => ?_, by simpa using hc.sum_members_length, hc.sum_cgroupOps_mod⟩
    · rw [hc.cgroupMembers_length, List.length_ofFn]
      exact countCgroupThreads_threadCount numThreads c
    · have := (cgroupOfThread_mem j).1
      rw [← cgroupId_of_reachable hs j, h] at this
      exact absurd this (by decide)

end Hscl.Cgroups
