import Mathlib.Data.Nat.Factorization.Basic
import Hscl.Run.Progress
import Hscl.Cgroups.Hierarchy

/-! `worker_thread` of `upscale_fairness_cgroups.c`, with its cgroup's throttle and sleep. -/
namespace Hscl.Cgroups
open Run

/-- The fields of this harness's `thread_config_t` beyond the shared ones, and the loop's two
locals `operations_since_throttle` and `throttle_start`. -/
structure Ext where
  priority : ℤ
  weight : ℤ
  parentNode : ℕ
  cgroupId : Fin 8
  cgroupType : CgroupType
  sliceViolations : ℕ
  cgroupThrottleTime : ℕ
  operationsSinceThrottle : ℤ
  throttleStart : ℕ
  deriving DecidableEq, Repr

/-- The throttling at the top of the loop body, with the clock readings before and after the
`usleep`. -/
def throttle (cgroup : CgroupConfig) (now₁ now₂ : ℕ) (e : Ext) : Ext :=
  if cgroup.throttleQuota > 0 then
    if e.operationsSinceThrottle + 1 > 100 - cgroup.throttleQuota then
      let start := if e.throttleStart = 0 then now₁ else e.throttleStart
      { e with
        cgroupThrottleTime := e.cgroupThrottleTime + subU64 now₂ start
        operationsSinceThrottle := 0
        throttleStart := 0 }
    else { e with operationsSinceThrottle := e.operationsSinceThrottle + 1 }
  else e

/-- The `usleep` after an operation, in microseconds, by the cgroup's type and the count of
operations so far. -/
def cooperativeSleep (type : CgroupType) (totalOperations : ℕ) : Option ℕ :=
  if type = .interactive ∧ totalOperations % 50 = 0 then some 500
  else if type = .batch ∧ totalOperations % 500 = 0 then some 2000
  else if totalOperations % 100 = 0 then some 1000
  else none

/-- The cgroup slot and weight `configure_threads_for_cgroups` gives thread `i`. -/
def cgroupOfThread (i : ℕ) : Fin 8 × ℤ :=
  if i < 2 then (2, 2048)
  else if i < 4 then (1, 1536)
  else if i < 8 then (3, 1280)
  else if i < 12 then (4, 1024)
  else (5, 512)

theorem hierarchyCgroupIdx_eq (i : ℕ) : hierarchyCgroupIdx i = (cgroupOfThread i).1 := by
  unfold hierarchyCgroupIdx cgroupOfThread; split_ifs <;> rfl

theorem cgroupOfThread_mem (i : ℕ) :
    1 ≤ (cgroupOfThread i).1.val ∧ (cgroupOfThread i).1.val < numCgroups := by
  unfold cgroupOfThread; split_ifs <;> decide

/-- Thread `i`'s record as `configure_threads_for_cgroups` fills it from the table, with `main`'s
zeroed counters and the loop's locals at their initial values. -/
def threadRecord (i : ℕ) : Ext :=
  let cgroup := initCgroupConfigs (cgroupOfThread i).1
  { priority := cgroup.niceValue
    weight := (cgroupOfThread i).2
    parentNode := (numCgroups - 1) + 1 + i
    cgroupId := (cgroupOfThread i).1
    cgroupType := cgroup.type
    sliceViolations := 0
    cgroupThrottleTime := 0
    operationsSinceThrottle := 0
    throttleStart := 0 }

/-- `worker_thread`: the single fair lock, and the cgroup table as the harness's globals. -/
def harness : Harness Unit (Fin 8 → CgroupConfig) Ext where
  acquirePrim _ := ()
  releasePrim _ := ()
  setup _ ok e := if ok then some e else none
  loopHead cgroups now₁ now₂ e := throttle (cgroups e.cgroupId) now₁ now₂ e
  enter g _ _ e := (g, e)
  afterRelease _ sliceEnd now _ e :=
    { e with sliceViolations := countSliceViolation sliceEnd now e.sliceViolations }
  start cgroups := ∃ numThreads, cgroups = countCgroupThreads initCgroupConfigs numThreads
  initial _ c := c.ext = threadRecord c.threadId
  release_eq _ := rfl
  enter_prim _ _ _ _ := rfl

theorem throttle_sliceViolations (cgroup : CgroupConfig) (now₁ now₂ : ℕ) (e : Ext) :
    (throttle cgroup now₁ now₂ e).sliceViolations = e.sliceViolations := by
  unfold throttle; split_ifs <;> rfl

theorem countsSlices : CountsSlices harness Ext.sliceViolations where
  initial _ _ h := by rw [h]; rfl
  setup _ ok e e' h := by
    simp only [harness, Option.ite_none_right_eq_some, Option.some.injEq] at h
    rw [← h.2]
  loopHead _ _ _ _ := throttle_sliceViolations _ _ _ _
  enter _ _ _ _ := rfl
  afterRelease _ _ _ _ _ := countSliceViolation_le _ _ _

theorem globals_of_reachable {n randMax : ℕ} {s : State n Unit (Fin 8 → CgroupConfig) Ext}
    (hs : Reachable harness randMax s) :
    ∃ numThreads, s.globals = countCgroupThreads initCgroupConfigs numThreads :=
  hs.start_globals fun _ _ _ _ => rfl

/-- The state `main` starts `n` workers in. -/
def mainState (n : ℕ) (insertRatio findRatio : ℚ) : State n Unit (Fin 8 → CgroupConfig) Ext :=
  Run.mainState n (countCgroupThreads initCgroupConfigs n) insertRatio findRatio threadRecord

theorem mainState_initial (n : ℕ) (insertRatio findRatio : ℚ) :
    Initial harness (mainState n insertRatio findRatio) :=
  Run.mainState_initial ⟨n, rfl⟩ fun _ _ => rfl

/-- The usage line of `upscale_fairness_cgroups`, after the program name. -/
def usage : String := "<num_threads> <duration_seconds> <db_file> [insert_ratio] [find_ratio]"

/-- `main` up to `init_cgroup_configs`: the launch configuration, or the message it exits with. -/
def main (a : Args) : Except String Launch := parseArgs usage a

theorem main_ok_iff {a : Args} :
    (∃ l, main a = .ok l) ↔
      4 ≤ a.argc ∧ 1 ≤ a.numThreads ∧ a.numThreads ≤ maxThreads ∧
        Dbl.le (ratioSum a.insertRatio a.findRatio) (.num 1) :=
  ⟨fun ⟨_, h⟩ => (parseArgs_ok_iff.mp h).1, fun h => ⟨_, parseArgs_ok_iff.mpr ⟨h, rfl⟩⟩⟩

section Cgroup
variable {n randMax : ℕ} {s : State n Unit (Fin 8 → CgroupConfig) Ext}

theorem throttle_cgroupId (cgroup : CgroupConfig) (now₁ now₂ : ℕ) (e : Ext) :
    (throttle cgroup now₁ now₂ e).cgroupId = e.cgroupId := by
  unfold throttle; split_ifs <;> rfl

/-- A worker's `cgroup_id` is the one `configure_threads_for_cgroups` gave its thread. -/
def InConfiguredCgroup (x : Pc × ThreadConfig Ext) : Prop :=
  x.2.ext.cgroupId = (cgroupOfThread x.2.threadId).1

theorem inConfiguredCgroup_move {g : Fin 8 → CgroupConfig} {x y : Pc × ThreadConfig Ext}
    (hx : InConfiguredCgroup x) (hl : LocalStep harness randMax g x y) : InConfiguredCgroup y := by
  cases hl with
  | setupHead h =>
    simp only [harness, Option.ite_none_right_eq_some, Option.some.injEq] at h
    rw [InConfiguredCgroup, ← h.2]; exact hx
  | pollGo => exact (throttle_cgroupId _ _ _ _).trans hx
  | _ => exact hx

theorem cgroupId_of_reachable (hs : Reachable harness randMax s) (j : Fin n) :
    (s.threads j).ext.cgroupId = (cgroupOfThread j).1 := by
  have h := hs.view_invariant (Q := InConfiguredCgroup)
    (fun s hi j => by
      rw [InConfiguredCgroup, State.view, show (s.threads j).ext = _ from hi.harness j]; rfl)
    (fun _ _ _ => inConfiguredCgroup_move) j
  rwa [InConfiguredCgroup, State.view, (keyInv_of_reachable hs).threadId j] at h

end Cgroup

section Throttle
variable {n randMax : ℕ} {s t : State n Unit (Fin 8 → CgroupConfig) Ext}

/-- The throttle's period under quota `q`: `operations_since_throttle` runs up to `100 - q`, and
the pass after that throttles. -/
def throttlePeriod (q : ℤ) : ℕ := (101 - q).toNat

/-- The throttling locals after `k` loop passes under quota `q`: `throttle_start` is back at `0`;
with a quota, `operations_since_throttle` counts the passes since the last throttle, and without
one it stays `0` and no throttle time is charged. -/
def ThrottleCounted (q : ℤ) (k : ℕ) (e : Ext) : Prop :=
  e.throttleStart = 0 ∧
    if 0 < q then e.operationsSinceThrottle = (k % throttlePeriod q : ℕ)
    else e.operationsSinceThrottle = 0 ∧ e.cgroupThrottleTime = 0

/-- One check: the count moves on by one pass, and the pass that completes a period is charged
the clock span of its own `usleep`. -/
theorem throttle_counted {cgroup : CgroupConfig} {k : ℕ} {e : Ext}
    (hq : cgroup.throttleQuota ≤ 100) (he : ThrottleCounted cgroup.throttleQuota k e)
    (now₁ now₂ : ℕ) :
    ThrottleCounted cgroup.throttleQuota (k + 1) (throttle cgroup now₁ now₂ e) ∧
      (throttle cgroup now₁ now₂ e).cgroupThrottleTime = e.cgroupThrottleTime +
        if 0 < cgroup.throttleQuota ∧ (k + 1) % throttlePeriod cgroup.throttleQuota = 0 then
          subU64 now₂ now₁ else 0 := by
  obtain ⟨h0, hops⟩ := he
  unfold throttle ThrottleCounted
  by_cases hpos : 0 < cgroup.throttleQuota
  · simp only [if_pos hpos] at hops ⊢
    have hp : (throttlePeriod cgroup.throttleQuota : ℤ) = 101 - cgroup.throttleQuota :=
      Int.toNat_of_nonneg (by omega)
    have hlt := Nat.mod_lt k (show 0 < throttlePeriod cgroup.throttleQuota by omega)
    have hsucc := Nat.mod_add_mod k (throttlePeriod cgroup.throttleQuota) 1
    by_cases hwrap : k % throttlePeriod cgroup.throttleQuota + 1 = throttlePeriod cgroup.throttleQuota
    · have h0' : (k + 1) % throttlePeriod cgroup.throttleQuota = 0 := by
        rw [← hsucc, hwrap, Nat.mod_self]
      rw [if_pos (show e.operationsSinceThrottle + 1 > 100 - cgroup.throttleQuota by omega)]
      simp [hpos, h0, h0']
    · have h1 : (k + 1) % throttlePeriod cgroup.throttleQuota =
          k % throttlePeriod cgroup.throttleQuota + 1 := by
        rw [← hsucc]; exact Nat.mod_eq_of_lt (by omega)
      rw [if_neg (show ¬e.operationsSinceThrottle + 1 > 100 - cgroup.throttleQuota by omega)]
      simp [hpos, h0, h1, hops]
  · simp only [if_neg hpos] at hops ⊢
    simp [hpos, h0, hops]

/-- The loop passes a worker has begun: one per lock acquisition, and the one whose acquisition
is still to come. -/
def loopPasses : Pc × ThreadConfig Ext → ℕ
  | (.acquiring _, c) | (.entered _, c) => c.stats.lockAcquisitions + 1
  | (_, c) => c.stats.lockAcquisitions

/-- A worker's throttling locals agree with its loop passes under its cgroup's quota. -/
def ThrottleAgrees (g : Fin 8 → CgroupConfig) (x : Pc × ThreadConfig Ext) : Prop :=
  ThrottleCounted (g x.2.ext.cgroupId).throttleQuota (loopPasses x) x.2.ext

theorem throttleQuota_le {m : ℕ} (c : Fin 8) :
    (countCgroupThreads initCgroupConfigs m c).throttleQuota ≤ 100 := by
  rw [countCgroupThreads_throttleQuota]; revert c; decide

theorem throttleAgrees_move {g : Fin 8 → CgroupConfig} {x y : Pc × ThreadConfig Ext}
    (hg : harness.start g) (hx : ThrottleAgrees g x) (hl : LocalStep harness randMax g x y) :
    ThrottleAgrees g y := by
  cases hl with
  | setupHead h =>
    simp only [harness, Option.ite_none_right_eq_some, Option.some.injEq] at h
    rw [ThrottleAgrees, ← h.2]; exact hx
  | @pollGo c _ now₁ now₂ _ =>
    obtain ⟨m, rfl⟩ := hg
    simpa only [ThrottleAgrees, harness, throttle_cgroupId] using
      (throttle_counted (throttleQuota_le c.ext.cgroupId) hx now₁ now₂).1
  | perform => simpa only [ThrottleAgrees, loopPasses, Counters.record_lockAcquisitions] using hx
  | _ => exact hx

theorem throttleAgrees_of_reachable (hs : Reachable harness randMax s) (j : Fin n) :
    ThrottleAgrees s.globals (s.view j) :=
  hs.view_invariant_globals (fun _ _ _ _ => rfl)
    (fun s hi j => by
      simp [ThrottleAgrees, ThrottleCounted, State.view, loopPasses, hi.pc j, hi.stats j,
        show (s.threads j).ext = _ from hi.harness j, threadRecord])
    (fun _ _ _ hg hx hl => throttleAgrees_move hg hx hl) j

/-- Only the BATCH cgroup, where threads 12 and up go, has a throttle quota. -/
theorem throttleQuota_of_reachable (hs : Reachable harness randMax s) (j : Fin n) :
    (s.globals (s.threads j).ext.cgroupId).throttleQuota = if 12 ≤ j.val then 50 else 0 := by
  obtain ⟨m, hm⟩ := globals_of_reachable hs
  rw [hm, cgroupId_of_reachable hs j, countCgroupThreads_throttleQuota]
  unfold cgroupOfThread; split_ifs <;> first | rfl | omega

/-- Over every run of `upscale_fairness_cgroups`, `throttle_start` is `0` whenever a worker checks
it, so a throttle charges `cgroup_throttle_time` the clock span of its own `usleep` and nothing
older. A BATCH worker (thread 12 and up, quota 50) counts its loop passes modulo 51 and is
throttled on the 51st pass and every 51st after; every other worker is never throttled and is
charged no throttle time. -/
theorem batch_throttles_every_fifty_first (hs : Reachable harness randMax s) (j : Fin n) :
    (s.threads j).ext.throttleStart = 0 ∧
    (if 12 ≤ j.val then
      (s.threads j).ext.operationsSinceThrottle = (loopPasses (s.view j) % 51 : ℕ)
    else (s.threads j).ext.operationsSinceThrottle = 0 ∧ (s.threads j).ext.cgroupThrottleTime = 0) ∧
    ∀ r now₁ now₂ (t : State n Unit (Fin 8 → CgroupConfig) Ext),
      step harness randMax s (.poll j r now₁ now₂) = some t →
      (t.threads j).ext.cgroupThrottleTime = (s.threads j).ext.cgroupThrottleTime +
        if s.stop = false ∧ 12 ≤ j.val ∧ (loopPasses (s.view j) + 1) % 51 = 0 then
          subU64 now₂ now₁ else 0 := by
  have hinv : ThrottleCounted (s.globals (s.threads j).ext.cgroupId).throttleQuota
      (loopPasses (s.view j)) (s.threads j).ext := throttleAgrees_of_reachable hs j
  have hq := throttleQuota_of_reachable hs j
  have hperiod : throttlePeriod 50 = 51 := rfl
  refine ⟨hinv.1, ?_, fun r now₁ now₂ t ha => ?_⟩
  · have h2 := hinv.2
    rw [hq] at h2
    split_ifs at h2 ⊢ <;> simp_all
  · obtain ⟨hp, -, rfl⟩ := step_poll.mp ha
    cases hstop : s.stop
    · have := (throttle_counted (by rw [hq]; split_ifs <;> decide) hinv now₁ now₂).2
      simp only [Bool.false_eq_true, ↓reduceIte, setWorker_threads_self, harness]
      rw [this, hq]
      split_ifs <;> simp_all
    · simp

theorem batch_throttles_worker_twelve :
    ∃ s : State 13 Unit (Fin 8 → CgroupConfig) Ext, s.inserts.length = 2 ∧
      Reachable harness 2147483647 s ∧
      (s.threads 12).ext.throttleStart = 0 ∧
      (if 12 ≤ (12 : Fin 13).val then
        (s.threads 12).ext.operationsSinceThrottle = (loopPasses (s.view 12) % 51 : ℕ)
      else (s.threads 12).ext.operationsSinceThrottle = 0 ∧
        (s.threads 12).ext.cgroupThrottleTime = 0) ∧
      ∀ r now₁ now₂ (t : State 13 Unit (Fin 8 → CgroupConfig) Ext),
        step harness 2147483647 s (.poll 12 r now₁ now₂) = some t →
        (t.threads 12).ext.cgroupThrottleTime = (s.threads 12).ext.cgroupThrottleTime +
          if s.stop = false ∧ 12 ≤ (12 : Fin 13).val ∧ (loopPasses (s.view 12) + 1) % 51 = 0 then
            subU64 now₂ now₁ else 0 := by
  obtain ⟨s, -, hs, hl⟩ := (mainState_initial 13 1 0).exists_inserts (i := 12) true rfl
    (by simp [mainState, Run.mainState, selectOperation, opRand]) 2
  exact ⟨s, hl, hs.reachable, batch_throttles_every_fifty_first hs.reachable 12⟩

end Throttle

section Sleep

/-- The sleeps after the operations `1 … k` of a worker whose cgroup has type `type`: the
`k`-th is decided by `cooperative_sleep` on `total_operations = k`. -/
def sleepCount (type : CgroupType) (k : ℕ) : ℕ :=
  ((Finset.range k).filter fun j => (cooperativeSleep type (j + 1)).isSome).card

theorem cooperativeSleep_batch_isSome (k : ℕ) : (cooperativeSleep .batch k).isSome ↔ 100 ∣ k := by
  simp only [cooperativeSleep, reduceCtorEq, false_and, true_and, if_false, Nat.dvd_iff_mod_eq_zero]
  split_ifs <;> simp only [Option.isSome_some, Option.isSome_none, true_iff, Bool.false_eq_true,
    false_iff] <;> omega

theorem cooperativeSleep_interactive_isSome (k : ℕ) :
    (cooperativeSleep .interactive k).isSome ↔ 50 ∣ k := by
  simp only [cooperativeSleep, reduceCtorEq, false_and, true_and, if_false, Nat.dvd_iff_mod_eq_zero]
  split_ifs <;> simp only [Option.isSome_some, Option.isSome_none, true_iff, Bool.false_eq_true,
    false_iff] <;> omega

theorem cooperativeSleep_isSome {type : CgroupType} (hi : type ≠ .interactive)
    (hb : type ≠ .batch) (k : ℕ) : (cooperativeSleep type k).isSome ↔ 100 ∣ k := by
  simp only [cooperativeSleep, hi, hb, false_and, if_false, Nat.dvd_iff_mod_eq_zero]
  split_ifs <;> simp_all

/-- A worker that sleeps exactly on the multiples of `d` sleeps `⌊k/d⌋` times in `k`
operations. -/
theorem sleepCount_eq {type : CgroupType} {d : ℕ} (h : ∀ k, (cooperativeSleep type k).isSome ↔ d ∣ k)
    (k : ℕ) : sleepCount type k = k / d := by
  rw [sleepCount, ← Nat.card_multiples]
  exact congrArg Finset.card (Finset.filter_congr fun j _ => h (j + 1))

/-- A BATCH worker already takes the default 1 ms break after its hundredth operation, so over
`k` operations it sleeps `⌊k/100⌋` times, as SYSTEM, REALTIME and USER workers do, where an
INTERACTIVE worker sleeps `⌊k/50⌋` times. -/
theorem batch_sleeps_every_hundred (k : ℕ) :
    ((cooperativeSleep .batch k).isSome ↔ 100 ∣ k) ∧
      sleepCount .batch k = k / 100 ∧ sleepCount .system k = k / 100 ∧
      sleepCount .realtime k = k / 100 ∧ sleepCount .user k = k / 100 ∧
      sleepCount .interactive k = k / 50 ∧ cooperativeSleep .batch 100 = some 1000 :=
  ⟨cooperativeSleep_batch_isSome k, sleepCount_eq cooperativeSleep_batch_isSome k,
    sleepCount_eq (cooperativeSleep_isSome (by decide) (by decide)) k,
    sleepCount_eq (cooperativeSleep_isSome (by decide) (by decide)) k,
    sleepCount_eq (cooperativeSleep_isSome (by decide) (by decide)) k,
    sleepCount_eq cooperativeSleep_interactive_isSome k, by decide⟩

end Sleep

end Hscl.Cgroups
