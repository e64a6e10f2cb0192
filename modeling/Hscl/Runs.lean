import Hscl.FairnessTest.Hierarchy
import Hscl.Cgroups.Worker
import Hscl.Mutex.Tracking
import Hscl.Run.Progress
import Hscl.Harness.Key

/-! Runs of `upscale_fairness_test`, `upscale_fairness_cgroups` and `upscale_mutex`. -/
namespace Hscl
open Run

private theorem parseArgs_negative_insert (usage : String) :
    parseArgs usage ⟨6, 1, 10, -1, 1 / 2, 0⟩ = .ok ⟨1, 10, -1, 1 / 2, .num (3 / 2)⟩ := by
  have hsum : ratioSum (-1) (1 / 2) = .num (-1 / 2) := by
    have h := roundBinary64_of_repr (R := ℚ) (m := -1) (k := -1) (by norm_num) (by norm_num) (by norm_num)
    rw [ratioSum, show (-1 + 1 / 2 : ℚ) = ((-1 : ℤ) : ℚ) * 2 ^ (-1 : ℤ) by norm_num, h]
    norm_num
  have hupdate : updateRatio (-1) (1 / 2) = .num (3 / 2) := by
    have h₂ := roundBinary64_natCast (R := ℚ) (n := 2) (by norm_num)
    have h₃ := roundBinary64_of_repr (R := ℚ) (m := 3) (k := -1) (by norm_num) (by norm_num) (by norm_num)
    rw [← show (1 - -1 : ℚ) = ((2 : ℕ) : ℚ) by norm_num] at h₂
    rw [updateRatio_of_num h₂, show (1 - -1 : ℚ) = ((2 : ℕ) : ℚ) by norm_num, show ((2 : ℕ) : ℚ) - 1 / 2 = ((3 : ℤ) : ℚ) * 2 ^ (-1 : ℤ) by norm_num, h₃]
    norm_num
  have hi : Args.insertRatio ⟨6, 1, 10, -1, 1 / 2, 0⟩ = -1 := if_pos (by norm_num)
  have hf : Args.findRatio ⟨6, 1, 10, -1, 1 / 2, 0⟩ = 1 / 2 := if_pos (by norm_num)
  refine parseArgs_ok_iff.mpr ⟨⟨by norm_num, by norm_num, by norm_num [maxThreads], ?_⟩, ?_⟩
  · rw [hi, hf, hsum, Dbl.le_num]; norm_num
  · rw [hi, hf, hupdate]; rfl

/-- Each `main` starts its workers exactly when it has four arguments or more,
`1 ≤ num_threads ≤ MAX_THREADS` and a `double` sum `insert_ratio + find_ratio` of at most `1.0`,
and for `upscale_mutex` a known lock type. No ratio is checked against `[0, 1]`:
`insert_ratio = -1` with `find_ratio = 0.5` starts all three with `update_ratio = 1.5`. -/
theorem mains_accept_unbounded_ratios :
    (∀ a : Args,
      ((∃ l, FairnessTest.main a = .ok l) ↔
        4 ≤ a.argc ∧ 1 ≤ a.numThreads ∧ a.numThreads ≤ maxThreads ∧
          Dbl.le (ratioSum a.insertRatio a.findRatio) (.num 1)) ∧
      ((∃ l, Cgroups.main a = .ok l) ↔
        4 ≤ a.argc ∧ 1 ≤ a.numThreads ∧ a.numThreads ≤ maxThreads ∧
          Dbl.le (ratioSum a.insertRatio a.findRatio) (.num 1)) ∧
      ((∃ l, Mutex.main a = .ok l) ↔
        (4 ≤ a.argc ∧ 1 ≤ a.numThreads ∧ a.numThreads ≤ maxThreads ∧
          Dbl.le (ratioSum a.insertRatio a.findRatio) (.num 1)) ∧
          (Mutex.initLock (Mutex.lockTypeArg a)).isSome)) ∧
    FairnessTest.main ⟨6, 1, 10, -1, 1 / 2, 0⟩ = .ok (⟨1, 10, -1, 1 / 2, .num (3 / 2)⟩, .flat) ∧
    Cgroups.main ⟨6, 1, 10, -1, 1 / 2, 0⟩ = .ok ⟨1, 10, -1, 1 / 2, .num (3 / 2)⟩ ∧
    Mutex.main ⟨6, 1, 10, -1, 1 / 2, 0⟩ = .ok (⟨1, 10, -1, 1 / 2, .num (3 / 2)⟩, .mutex) := by
  refine ⟨fun a => ⟨FairnessTest.main_ok_iff, Cgroups.main_ok_iff, Mutex.main_ok_iff⟩, ?_, ?_, ?_⟩
  · simp only [FairnessTest.main, parseArgs_negative_insert, Except.map]; rfl
  · exact parseArgs_negative_insert _
  · simp only [Mutex.main, parseArgs_negative_insert, Except.bind]; rfl

/-- In every reachable state of each harness at most one worker is inside its critical section,
every database operation runs under the lock, and no worker polling the stop flag or returned
holds a lock primitive. -/
theorem lock_discipline {n randMax : ℕ} :
    (∀ s : State n Unit Unit FairnessTest.Ext,
      Reachable FairnessTest.harness randMax s → Disciplined FairnessTest.harness randMax s) ∧
    (∀ s : State n Unit (Fin 8 → Cgroups.CgroupConfig) Cgroups.Ext,
      Reachable Cgroups.harness randMax s → Disciplined Cgroups.harness randMax s) ∧
    ∀ s : State n Mutex.Primitive Mutex.Tracking Mutex.Ext,
      Reachable Mutex.harness randMax s → Disciplined Mutex.harness randMax s :=
  ⟨fun _ => disciplined_of_reachable, fun _ => disciplined_of_reachable,
    fun _ => disciplined_of_reachable⟩

/-- Whatever interleaving a harness has run, `main` can still raise the stop flag and join every
worker: no reachable state of any of the three deadlocks. -/
theorem workers_joinable {n randMax : ℕ} :
    (∀ s : State n Unit Unit FairnessTest.Ext, Reachable FairnessTest.harness randMax s →
      ∃ t, Steps FairnessTest.harness randMax s t ∧ Finished FairnessTest.harness randMax t) ∧
    (∀ s : State n Unit (Fin 8 → Cgroups.CgroupConfig) Cgroups.Ext,
      Reachable Cgroups.harness randMax s →
      ∃ t, Steps Cgroups.harness randMax s t ∧ Finished Cgroups.harness randMax t) ∧
    ∀ s : State n Mutex.Primitive Mutex.Tracking Mutex.Ext, Reachable Mutex.harness randMax s →
      ∃ t, Steps Mutex.harness randMax s t ∧ Finished Mutex.harness randMax t :=
  ⟨fun _ => Reachable.joinable, fun _ => Reachable.joinable, fun _ => Reachable.joinable⟩

section Keys
variable {n : ℕ} {P G ε : Type} [DecidableEq P] {h : Harness P G ε} {randMax : ℕ}

/-- The inserts of a run as the key scheme intends them: key ids `1, …, m` in order, pairwise
distinct keys, and every key text within `KEY_SIZE` bytes with its terminator. -/
structure InsertKeysDistinct (s : State n P G ε) : Prop where
  ids : s.inserts.map Prod.snd = (List.range s.inserts.length).map fun k : ℕ => (k + 1 : ℤ)
  keys : (s.inserts.map fun p => generateKey p.1 p.2).Nodup
  fits : ∀ p ∈ s.inserts, (keyText p.1 p.2).length + 1 ≤ keySize

omit [DecidableEq P] in
private theorem key_args_of_mem {s : State n P G ε} (hn : n ≤ maxThreads) (hk : KeyInv s)
    (hm : s.inserts.length < 2 ^ 31) {p : ℕ × ℤ} (hp : p ∈ s.inserts) :
    (0 : ℤ) ≤ p.1 ∧ (p.1 : ℤ) < maxThreads ∧ 0 < p.2 ∧ p.2 < 2 ^ 31 := by
  have hid : p.2 ∈ s.inserts.map Prod.snd := List.mem_map_of_mem _ hp
  rw [hk.ids, fetchedKeyIds_of_lt hm] at hid
  obtain ⟨k, hk', hpk⟩ := List.mem_map.mp hid
  have := hk.tids p hp
  simp only [List.mem_range, maxThreads] at hk' hn ⊢
  omega

/-- Below `2^31` inserts, `generate_key` is injective where it is called and each insert of a
run obtains the next key id, so no two inserts use the same key. -/
theorem insert_keys_distinct {s : State n P G ε} (hn : n ≤ maxThreads)
    (hs : Reachable h randMax s) (hm : s.inserts.length < 2 ^ 31) :
    (∀ t₁ t₂ k₁ k₂ : ℤ, 0 ≤ t₁ ∧ t₁ < maxThreads → 0 ≤ t₂ ∧ t₂ < maxThreads →
      0 < k₁ ∧ k₁ < 2 ^ 31 → 0 < k₂ ∧ k₂ < 2 ^ 31 →
      generateKey t₁ k₁ = generateKey t₂ k₂ → t₁ = t₂ ∧ k₁ = k₂) ∧
    InsertKeysDistinct s := by
  have hk := keyInv_of_reachable hs
  have hids : s.inserts.map Prod.snd = (List.range s.inserts.length).map fun k : ℕ => (k + 1 : ℤ) :=
    hk.ids.trans (fetchedKeyIds_of_lt hm)
  have hnd : s.inserts.Nodup := by
    refine List.Nodup.of_map Prod.snd ?_
    rw [hids]
    exact (List.nodup_range _).map fun a b hab => by simpa using hab
  refine ⟨fun _ _ _ _ => generateKey_injective, hids, hnd.map_on fun p hp q hq he => ?_,
    fun p hp => ?_⟩
  · obtain ⟨hp₀, hp₁, hp₂, hp₃⟩ := key_args_of_mem hn hk hm hp
    obtain ⟨hq₀, hq₁, hq₂, hq₃⟩ := key_args_of_mem hn hk hm hq
    obtain ⟨h₁, h₂⟩ := generateKey_injective ⟨hp₀, hp₁⟩ ⟨hq₀, hq₁⟩ ⟨hp₂, hp₃⟩ ⟨hq₂, hq₃⟩ he
    exact Prod.ext (by exact_mod_cast h₁) h₂
  · obtain ⟨hp₀, hp₁, hp₂, hp₃⟩ := key_args_of_mem hn hk hm hp
    exact keyText_fits hp₀ hp₁ hp₂ hp₃

theorem insert_keys_distinct_two_inserts :
    ∃ s : State 1 Unit Unit FairnessTest.Ext, s.inserts.length = 2 ∧
      (1 ≤ maxThreads ∧ Reachable FairnessTest.harness 2147483647 s ∧ s.inserts.length < 2 ^ 31) ∧
      (∀ t₁ t₂ k₁ k₂ : ℤ, 0 ≤ t₁ ∧ t₁ < maxThreads → 0 ≤ t₂ ∧ t₂ < maxThreads →
        0 < k₁ ∧ k₁ < 2 ^ 31 → 0 < k₂ ∧ k₂ < 2 ^ 31 →
        generateKey t₁ k₁ = generateKey t₂ k₂ → t₁ = t₂ ∧ k₁ = k₂) ∧
      InsertKeysDistinct s := by
  obtain ⟨s, -, hs, hl⟩ := FairnessTest.defaultState_inserts 2
  exact ⟨s, hl, ⟨by decide, hs.reachable, by omega⟩,
    insert_keys_distinct (by decide) hs.reachable (by omega)⟩

omit [DecidableEq P] in
private theorem mem_inserts_of_lt {s : State 1 P G ε} (hk : KeyInv s) {k : ℕ}
    (hlt : k < s.inserts.length) : ((0 : ℕ), int32 (k + 1)) ∈ s.inserts := by
  have : int32 (k + 1) ∈ s.inserts.map Prod.snd := by
    rw [hk.ids]; exact List.mem_map.mpr ⟨k, List.mem_range.mpr hlt, rfl⟩
  obtain ⟨p, hp, hp₂⟩ := List.mem_map.mp this
  have hp₁ : p.1 = 0 := Nat.lt_one_iff.mp (hk.tids p hp)
  rwa [← hp₁, ← hp₂]

/-- One worker inserting `2^31 + 1` times: `next_key_id` passes `INT_MAX`, the last two inserts
obtain the key ids `INT_MIN` and `INT_MIN + 1`, and `generate_key` truncates both keys to
`"T00_K-214748364"`. -/
theorem insert_key_ids_wrap :
    ∃ s : State 1 Unit Unit FairnessTest.Ext, Reachable FairnessTest.harness 2147483647 s ∧
      ((0 : ℕ), (-2147483648 : ℤ)) ∈ s.inserts ∧ ((0 : ℕ), (-2147483647 : ℤ)) ∈ s.inserts ∧
      generateKey 0 (-2147483648) = generateKey 0 (-2147483647) := by
  obtain ⟨t, -, ht, hl⟩ := FairnessTest.defaultState_inserts (2 ^ 31 + 1)
  have hk := keyInv_of_reachable ht.reachable
  refine ⟨t, ht.reachable, ?_, ?_, ?_⟩
  · have e : int32 (((2 ^ 31 - 1 : ℕ) : ℤ) + 1) = -2147483648 := by norm_num [int32]
    exact e ▸ mem_inserts_of_lt hk (by omega)
  · have e : int32 (((2 ^ 31 : ℕ) : ℤ) + 1) = -2147483647 := by norm_num [int32]
    exact e ▸ mem_inserts_of_lt hk (by omega)
  · norm_num [generateKey, keyText, formatInt, zeroPad, keySize, Nat.digitChar, List.replicate]

end Keys

/-- After every completed iteration of a worker's loop, and so after its return, its record
agrees with itself: the operation counts add up to `total_operations = lock_acquisitions`, and
no other count exceeds the acquisitions it is counted at (one fewer for starvation periods,
which need an earlier acquisition). No step writes another worker's record. -/
theorem worker_records {n randMax : ℕ} :
    (∀ (s : State n Unit Unit FairnessTest.Ext) j, Reachable FairnessTest.harness randMax s →
      (s.pc j = .head ∨ s.pc j = .done) →
      (s.threads j).stats.Consistent ∧
        (s.threads j).ext.sliceViolations ≤ (s.threads j).stats.lockAcquisitions) ∧
    (∀ (s : State n Unit (Fin 8 → Cgroups.CgroupConfig) Cgroups.Ext) j,
      Reachable Cgroups.harness randMax s → (s.pc j = .head ∨ s.pc j = .done) →
      (s.threads j).stats.Consistent ∧
        (s.threads j).ext.sliceViolations ≤ (s.threads j).stats.lockAcquisitions) ∧
    (∀ (s : State n Mutex.Primitive Mutex.Tracking Mutex.Ext) j,
      Reachable Mutex.harness randMax s → (s.pc j = .head ∨ s.pc j = .done) →
      (s.threads j).stats.Consistent ∧
        (s.threads j).ext.dominatedLowerThreads + (s.threads j).ext.starvedByHigher ≤
          (s.threads j).stats.lockAcquisitions ∧
        (s.threads j).ext.maxConsecutiveAcquisitions ≤ (s.threads j).stats.lockAcquisitions ∧
        (s.threads j).ext.starvationPeriods ≤ (s.threads j).stats.lockAcquisitions - 1) ∧
    (∀ (s t : State n Unit Unit FairnessTest.Ext) a j, step FairnessTest.harness randMax s a = some t →
      a.worker ≠ some j → t.threads j = s.threads j) ∧
    (∀ (s t : State n Unit (Fin 8 → Cgroups.CgroupConfig) Cgroups.Ext) a j,
      step Cgroups.harness randMax s a = some t → a.worker ≠ some j → t.threads j = s.threads j) ∧
    ∀ (s t : State n Mutex.Primitive Mutex.Tracking Mutex.Ext) a j,
      step Mutex.harness randMax s a = some t → a.worker ≠ some j → t.threads j = s.threads j := by
  refine ⟨fun s j hs hj => ⟨consistent_of_reachable hs hj,
      sliceViolations_le_of_reachable FairnessTest.countsSlices hs j⟩,
    fun s j hs hj => ⟨consistent_of_reachable hs hj,
      sliceViolations_le_of_reachable Cgroups.countsSlices hs j⟩,
    fun s j hs hj => ?_, fun _ _ _ _ ha hj => step_threads_other ha hj,
    fun _ _ _ _ ha hj => step_threads_other ha hj, fun _ _ _ _ ha hj => step_threads_other ha hj⟩
  obtain ⟨l, hrec⟩ := Mutex.recordTracks_of_reachable hs
  exact ⟨consistent_of_reachable hs hj, (hrec j).dominated_add_starved_le,
    (hrec j).maxConsecutive_le, (Mutex.starvationBound_of_reachable hs j).1⟩

end Hscl
