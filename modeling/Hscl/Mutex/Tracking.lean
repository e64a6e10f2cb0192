import Hscl.Mutex.Handoffs
import Hscl.Run.Progress

/-! The shared tracking of `upscale_mutex.c` is `switchCount`, `dominatedCount`, `starvedCount`
and `runLength` over the acquisitions made so far. -/
namespace Hscl.Mutex
open Run

variable {n : ℕ}

/-- The level `main` gives worker `j`: `(thread_hierarchy_t)(i % 5)`. -/
def levelOf (j : Fin n) : HierarchyLevel := ((j : ℕ) : HierarchyLevel)

@[simp] theorem levelOf_val (j : Fin n) : (levelOf j).val = (j : ℕ) % 5 := Fin.val_natCast _ _

section EnterLock
variable (g : Tracking) (id now : ℕ) (e : Ext)

@[simp] theorem checkStarvation_hierarchyLevel :
    (checkStarvation now e).hierarchyLevel = e.hierarchyLevel := by
  unfold checkStarvation; split_ifs <;> rfl

@[simp] theorem checkStarvation_dominatedLowerThreads :
    (checkStarvation now e).dominatedLowerThreads = e.dominatedLowerThreads := by
  unfold checkStarvation; split_ifs <;> rfl

@[simp] theorem checkStarvation_starvedByHigher :
    (checkStarvation now e).starvedByHigher = e.starvedByHigher := by
  unfold checkStarvation; split_ifs <;> rfl

@[simp] theorem checkStarvation_maxConsecutiveAcquisitions :
    (checkStarvation now e).maxConsecutiveAcquisitions = e.maxConsecutiveAcquisitions := by
  unfold checkStarvation; split_ifs <;> rfl

theorem countDominance_dominatedLowerThreads (l : HierarchyLevel) :
    (countDominance l e).dominatedLowerThreads =
      e.dominatedLowerThreads + if e.hierarchyLevel < l then 1 else 0 := by
  unfold countDominance; split_ifs <;> rfl

theorem countDominance_starvedByHigher (l : HierarchyLevel) :
    (countDominance l e).starvedByHigher =
      e.starvedByHigher + if e.hierarchyLevel > l then 1 else 0 := by
  unfold countDominance; split_ifs with h₁ h₂ <;> try rfl
  exact absurd h₁ (lt_asymm h₂)

@[simp] theorem enterLock_lastThreadId : (enterLock g id now e).1.lastThreadId = id := by
  simp only [enterLock, trackAcquisition]; split_ifs with h <;> simp [h]

@[simp] theorem enterLock_consecutiveSameThread :
    (enterLock g id now e).1.consecutiveSameThread =
      if g.lastThreadId = id then g.consecutiveSameThread + 1 else 1 := by
  simp only [enterLock, trackAcquisition]; split_ifs <;> rfl

@[simp] theorem enterLock_lastHierarchy :
    (enterLock g id now e).1.lastHierarchy =
      if g.lastThreadId = id then g.lastHierarchy else e.hierarchyLevel := by
  simp only [enterLock, trackAcquisition]; split_ifs <;> simp

theorem enterLock_hierarchySwitches :
    (enterLock g id now e).1.hierarchySwitches = g.hierarchySwitches +
      if g.lastThreadId ≠ id ∧ 0 ≤ g.lastThreadId ∧ g.lastHierarchy ≠ e.hierarchyLevel
      then 1 else 0 := by
  simp only [enterLock, trackAcquisition]; split_ifs <;> simp_all

@[simp] theorem enterLock_hierarchyLevel :
    (enterLock g id now e).2.hierarchyLevel = e.hierarchyLevel := by
  simp only [enterLock, trackAcquisition, countDominance]; split_ifs <;> simp

theorem enterLock_dominatedLowerThreads :
    (enterLock g id now e).2.dominatedLowerThreads = e.dominatedLowerThreads +
      if g.lastThreadId ≠ id ∧ 0 ≤ g.lastThreadId ∧ e.hierarchyLevel < g.lastHierarchy
      then 1 else 0 := by
  simp only [enterLock, trackAcquisition]
  by_cases h₁ : g.lastThreadId = id <;> by_cases h₂ : 0 ≤ g.lastThreadId <;>
    simp [h₁, h₂, countDominance_dominatedLowerThreads]

theorem enterLock_starvedByHigher :
    (enterLock g id now e).2.starvedByHigher = e.starvedByHigher +
      if g.lastThreadId ≠ id ∧ 0 ≤ g.lastThreadId ∧ e.hierarchyLevel > g.lastHierarchy
      then 1 else 0 := by
  simp only [enterLock, trackAcquisition]
  by_cases h₁ : g.lastThreadId = id <;> by_cases h₂ : 0 ≤ g.lastThreadId <;>
    simp [h₁, h₂, countDominance_starvedByHigher]

@[simp] theorem enterLock_maxConsecutiveAcquisitions :
    (enterLock g id now e).2.maxConsecutiveAcquisitions =
      max e.maxConsecutiveAcquisitions (enterLock g id now e).1.consecutiveSameThread := by
  simp only [enterLock, trackAcquisition, countDominance]; split_ifs <;> simp

end EnterLock

/-- The shared tracking reflects the acquisitions `l`: switches so far, the last holder (`-1`
before the first), its level, and the length of its final block. -/
structure SharedTracks (g : Tracking) (l : List (Fin n)) : Prop where
  switches : g.hierarchySwitches = switchCount levelOf l
  last : g.lastThreadId = (l.getLast?.map fun j : Fin n => ((j : ℕ) : ℤ)).getD (-1)
  lastLevel : ∀ j ∈ l.getLast?, g.lastHierarchy = levelOf j
  consecutive : ∀ j ∈ l.getLast?, g.consecutiveSameThread = runLength j l

/-- Worker `t`'s record reflects its part in the acquisitions `l`. -/
structure RecordTracks (t : Fin n) (c : ThreadConfig Ext) (l : List (Fin n)) : Prop where
  level : c.ext.hierarchyLevel = levelOf t
  dominated : c.ext.dominatedLowerThreads = dominatedCount levelOf t l
  starved : c.ext.starvedByHigher = starvedCount levelOf t l
  maxConsecutive : IsGreatest {k | List.replicate k t <:+: l} c.ext.maxConsecutiveAcquisitions
  acquisitions : c.stats.lockAcquisitions = l.count t

variable {g : Tracking} {l : List (Fin n)} {i t : Fin n} {c c' : ThreadConfig Ext} {now : ℕ}

private theorem SharedTracks.guard (hg : SharedTracks g l) (R : HierarchyLevel → Prop)
    [DecidablePred R] (hR : ¬ R (levelOf i)) :
    (if g.lastThreadId ≠ (i : ℕ) ∧ 0 ≤ g.lastThreadId ∧ R g.lastHierarchy then 1 else 0) =
      l.getLast?.elim 0 fun y => if R (levelOf y) then 1 else 0 := by
  have hlast := hg.last
  cases hl : l.getLast? with
  | none => simp [hl] at hlast; simp [hlast]
  | some y =>
    simp only [hl, Option.map_some', Option.getD_some] at hlast
    rw [hg.lastLevel y hl, hlast]
    by_cases hy : y = i
    · subst hy; simp [hR]
    · simp [Fin.val_ne_of_ne hy]

theorem SharedTracks.enter (hg : SharedTracks g l) (e : Ext) (he : e.hierarchyLevel = levelOf i) :
    SharedTracks (enterLock g i now e).1 (l ++ [i]) := by
  have hlast := hg.last
  have hsame : g.lastThreadId = (i : ℕ) ↔ l.getLast? = some i := by
    cases hl : l.getLast? <;> simp_all [Fin.val_eq_val]
  refine ⟨?_, by simp, fun j hj => ?_, fun j hj => ?_⟩
  · rw [enterLock_hierarchySwitches, switchCount_append_singleton, hg.switches, he,
      hg.guard (· ≠ levelOf i) (by simp)]
  · obtain rfl : i = j := by simpa using hj
    rw [enterLock_lastHierarchy]
    by_cases h : l.getLast? = some i
    · rw [if_pos (hsame.mpr h), hg.lastLevel i h]
    · rw [if_neg (mt hsame.mp h), he]
  · obtain rfl : i = j := by simpa using hj
    rw [enterLock_consecutiveSameThread, runLength_append_singleton, if_pos rfl]
    by_cases h : l.getLast? = some i
    · rw [if_pos (hsame.mpr h), hg.consecutive i h]
    · rw [if_neg (mt hsame.mp h), runLength_eq_zero_of_getLast? h]

theorem RecordTracks.enter (hg : SharedTracks g l) (hc : RecordTracks i c l)
    (hext : c'.ext = (enterLock g i now c.ext).2)
    (hla : c'.stats.lockAcquisitions = c.stats.lockAcquisitions + 1) :
    RecordTracks i c' (l ++ [i]) := by
  have hlev := hc.level
  refine ⟨by rw [hext, enterLock_hierarchyLevel, hlev], ?_, ?_, ?_, ?_⟩
  · rw [hext, enterLock_dominatedLowerThreads, dominatedCount_append_singleton, hc.dominated, hlev,
      hg.guard (levelOf i < ·) (lt_irrefl _)]
    simp only [true_and]
  · rw [hext, enterLock_starvedByHigher, starvedCount_append_singleton, hc.starved, hlev,
      hg.guard (levelOf i > ·) (lt_irrefl _)]
    simp only [true_and]
  · rw [hext, enterLock_maxConsecutiveAcquisitions, (hg.enter c.ext hlev).consecutive i (by simp)]
    exact isGreatest_blocks_append_singleton hc.maxConsecutive
  · rw [hla, hc.acquisitions, List.count_append, List.count_singleton_self]

theorem RecordTracks.append_other (hc : RecordTracks t c l) (ht : t ≠ i) :
    RecordTracks t c (l ++ [i]) := by
  have hnone : ∀ b : Fin n → Prop, ∀ _ : DecidablePred b,
      (l.getLast?.elim 0 fun y => if i = t ∧ b y then 1 else 0) = 0 := fun b _ => by
    cases l.getLast? <;> simp [Ne.symm ht]
  refine ⟨hc.level, ?_, ?_, ?_, ?_⟩
  · rw [dominatedCount_append_singleton, hnone, add_zero, hc.dominated]
  · rw [starvedCount_append_singleton, hnone, add_zero, hc.starved]
  · have h := isGreatest_blocks_append_singleton (x := i) hc.maxConsecutive
    rwa [runLength_append_singleton, if_neg (Ne.symm ht), max_eq_left (Nat.zero_le _)] at h
  · simp [hc.acquisitions, List.count_singleton, Ne.symm ht]

/-- A state's tracking and records reflect the acquisitions `l`. -/
def TrackedBy (s : State n Primitive Tracking Ext) (l : List (Fin n)) : Prop :=
  SharedTracks s.globals l ∧ ∀ t, RecordTracks t (s.threads t) l

/-- The tracking reflects every acquisition whose bookkeeping is done: all of them, or all but
the last while its taker is still inside `acquire_lock`. -/
def TrackInv (s : State n Primitive Tracking Ext) : Prop :=
  ((∀ j op, s.pc j ≠ .entered op) ∧ TrackedBy s s.acquisitions) ∨
    ∃ i op l, s.pc i = .entered op ∧ s.acquisitions = l ++ [i] ∧ TrackedBy s l

/-- What the bookkeeping reads and writes of a worker's record. -/
def tallies (c : ThreadConfig Ext) : HierarchyLevel × ℕ × ℕ × ℕ × ℕ :=
  (c.ext.hierarchyLevel, c.ext.dominatedLowerThreads, c.ext.starvedByHigher,
    c.ext.maxConsecutiveAcquisitions, c.stats.lockAcquisitions)

theorem RecordTracks.congr (h : RecordTracks t c l) (hc : tallies c' = tallies c) :
    RecordTracks t c' l := by
  simp only [tallies, Prod.mk.injEq] at hc
  obtain ⟨h₁, h₂, h₃, h₄, h₅⟩ := hc
  exact ⟨h₁ ▸ h.level, h₂ ▸ h.dominated, h₃ ▸ h.starved, h₄ ▸ h.maxConsecutive,
    h₅ ▸ h.acquisitions⟩

variable {randMax : ℕ} {s u : State n Primitive Tracking Ext}

theorem TrackInv.frame (hinv : TrackInv s) (hg : u.globals = s.globals)
    (ha : u.acquisitions = s.acquisitions) (hc : ∀ j, tallies (u.threads j) = tallies (s.threads j))
    (hpc : ∀ j op, u.pc j = .entered op ↔ s.pc j = .entered op) : TrackInv u := by
  have htr : ∀ l, TrackedBy s l → TrackedBy u l :=
    fun l ⟨hsh, hr⟩ => ⟨hg ▸ hsh, fun j => (hr j).congr (hc j)⟩
  rcases hinv with ⟨hq, ht⟩ | ⟨i, op, l, hp, hacq, ht⟩
  · exact .inl ⟨fun j op h => hq j op ((hpc j op).mp h), ha ▸ htr _ ht⟩
  · exact .inr ⟨i, op, l, (hpc i op).mpr hp, ha.trans hacq, htr l ht⟩

theorem TrackInv.setWorker (hinv : TrackInv s) {q : Pc} (hq : ∀ op, q ≠ .entered op)
    (hi : ∀ op, s.pc i ≠ .entered op) (hc : tallies c = tallies (s.threads i)) :
    TrackInv (s.setWorker i q c) := by
  refine hinv.frame rfl rfl (fun j => ?_) (fun j op => ?_) <;> by_cases hj : j = i
  · subst hj; simpa using hc
  · rw [setWorker_threads_ne hj]
  · subst hj; simp [hq, hi]
  · rw [setWorker_pc_ne hj]

theorem trackInv_initial (hi : Initial harness s) : TrackInv s := by
  refine .inl ⟨fun j op => by simp [hi.pc j], ?_, fun t => ?_⟩
  · rw [hi.acquisitions, hi.globals]; exact ⟨rfl, rfl, by simp, by simp⟩
  · obtain ⟨hlev, hmax, -, -, -, hdom, hst⟩ := hi.harness t
    rw [hi.acquisitions]
    refine ⟨by rw [hlev, hi.threadId t]; rfl, hdom, hst, ?_, by simp [hi.stats t]⟩
    rw [hmax]
    exact ⟨by simp, fun k hk => by simpa using hk⟩

theorem trackInv_step {a : Action n} (hr : Reachable harness randMax s) (hinv : TrackInv s)
    (hs : step harness randMax s a = some u) : TrackInv u := by
  cases a with
  | setup i ok =>
    obtain ⟨hp, rfl⟩ := step_setup.mp hs
    split <;> refine hinv.setWorker (by simp) (by simp [hp]) ?_
    · rename_i e he
      simp only [harness, Option.some.injEq] at he
      subst he; rfl
    · rfl
  | poll i r now₁ now₂ =>
    obtain ⟨hp, -, rfl⟩ := step_poll.mp hs
    split <;> exact hinv.setWorker (by simp) (by simp [hp]) rfl
  | acquire i =>
    obtain ⟨op, hp, hfree, rfl⟩ := step_acquire.mp hs
    have hq : ∀ j op, s.pc j ≠ .entered op := fun j op hj => by
      simpa [hfree] using (lockInv_of_reachable hr |>.holder j).mpr (by simp [hj, Pc.holds])
    rcases hinv with ⟨-, hsh, hrec⟩ | ⟨j, op', -, hj, -⟩
    · exact .inr ⟨i, op, s.acquisitions, by simp, rfl, hsh, fun t => by
        simpa [State.setWorker] using hrec t⟩
    · exact absurd hj (hq j op')
  | enter i waited now =>
    obtain ⟨op, hp, rfl⟩ := step_enter.mp hs
    rcases hinv with ⟨hq, -⟩ | ⟨j, op', l, hj, hacq, hsh, hrec⟩
    · exact absurd hp (hq i op)
    have hex := (disciplined_of_reachable hr).exclusive
    obtain rfl : j = i := hex j i (by simp [hj, Pc.holds]) (by simp [hp, Pc.holds])
    have htid := (keyInv_of_reachable hr).threadId j
    refine .inl ⟨fun k op'' hk => ?_, ?_, fun t => ?_⟩
    · by_cases hkj : k = j
      · subst hkj; simp at hk
      · rw [setWorker_pc_ne hkj] at hk
        exact hkj (hex k j (by simp [hk, Pc.holds]) (by simp [hj, Pc.holds]))
    · show SharedTracks (enterLock s.globals (s.threads j).threadId now _).1 s.acquisitions
      rw [hacq, htid]
      exact hsh.enter _ (hrec j).level
    · show RecordTracks t ((s.setWorker j (.performing op) _).threads t) s.acquisitions
      rw [hacq]
      by_cases ht : t = j
      · subst ht
        rw [setWorker_threads_self]
        exact (hrec t).enter hsh (by rw [htid]; rfl) rfl
      · rw [setWorker_threads_ne ht]
        exact (hrec t).append_other ht
  | perform i inp =>
    obtain ⟨op, hp, rfl⟩ := step_perform.mp hs
    refine hinv.frame (by simp) (by simp) (fun j => ?_) (fun j op' => ?_) <;>
      by_cases hj : j = i
    · subst hj; simp [tallies]
    · simp [hj]
    · subst hj; simp [hp]
    · simp [hj]
  | release i sliceEnd now =>
    obtain ⟨hp, rfl⟩ := step_release.mp hs
    exact hinv.frame rfl rfl (fun j => by by_cases hj : j = i <;> simp [State.setWorker, hj, harness])
      (fun j op => by by_cases hj : j = i <;> simp [State.setWorker, hj, hp])
  | stop =>
    rw [step_stop.mp hs]
    exact hinv.frame rfl rfl (fun _ => rfl) (fun _ _ => Iff.rfl)

theorem trackInv_of_reachable (hs : Reachable harness randMax s) : TrackInv s :=
  hs.invariant (fun _ => trackInv_initial) fun _ _ _ hr hinv ha => trackInv_step hr hinv ha

/-- The hierarchy statistics of a state, as the counts over its order of acquisitions `s.acquisitions`
define them: each worker at level `thread_id % 5`, the shared switch count, each worker's
dominance and starvation counts and longest block, and the switches split by taker. -/
structure HierarchyStats (s : State n Primitive Tracking Ext) : Prop where
  level : ∀ t, (s.threads t).ext.hierarchyLevel = levelOf t
  switches : s.globals.hierarchySwitches = switchCount levelOf s.acquisitions
  dominated : ∀ t, (s.threads t).ext.dominatedLowerThreads = dominatedCount levelOf t s.acquisitions
  starved : ∀ t, (s.threads t).ext.starvedByHigher = starvedCount levelOf t s.acquisitions
  sum : ∑ t, ((s.threads t).ext.dominatedLowerThreads + (s.threads t).ext.starvedByHigher) =
    s.globals.hierarchySwitches
  maxConsecutive : ∀ t, IsGreatest {k | List.replicate k t <:+: s.acquisitions}
    (s.threads t).ext.maxConsecutiveAcquisitions

/-- Once no worker is inside `acquire_lock`, as after the run, the statistics are exact. -/
theorem hierarchyStats_of_reachable (hs : Reachable harness randMax s)
    (hq : ∀ j op, s.pc j ≠ .entered op) : HierarchyStats s := by
  rcases trackInv_of_reachable hs with ⟨-, hsh, hrec⟩ | ⟨i, op, -, hp, -⟩
  · refine ⟨fun t => (hrec t).level, hsh.switches, fun t => (hrec t).dominated,
      fun t => (hrec t).starved, ?_, fun t => (hrec t).maxConsecutive⟩
    simp only [fun t => (hrec t).dominated, fun t => (hrec t).starved, hsh.switches]
    exact sum_dominated_add_starved _ _
  · exact absurd hp (hq i op)

theorem hierarchyStats_two_workers :
    ∃ s : State 2 Primitive Tracking Ext, s.acquisitions = [0, 1] ∧
      s.globals.hierarchySwitches = 1 ∧
      (Reachable harness 2147483647 s ∧ ∀ j op, s.pc j ≠ .entered op) ∧ HierarchyStats s := by
  have h₀ := mainState_initial 2 .mutex 1 0
  have hins : ∀ j, selectOperation ((mainState 2 .mutex 1 0).threads j).insertRatio
      ((mainState 2 .mutex 1 0).threads j).findRatio (opRand 2147483647 0) = .insert := fun j => by
    simp [mainState, Run.mainState, selectOperation, opRand]
  obtain ⟨-, r₁⟩ := (Reachable.init h₀).setup_ready (i := 0)
    (fun j => by simp [h₀.pc j, Pc.holds]) h₀.stop (h₀.pc 0) true rfl (hins 0)
  obtain ⟨t₁, -, ht₁, -, ha₁, hf₁⟩ := r₁.iterate
  obtain ⟨hp₁, hc₁⟩ := hf₁ 1 (by decide)
  obtain ⟨-, r₂⟩ := ht₁.reachable.setup_ready (i := 1) ht₁.idle ht₁.stop
    (by rw [hp₁, setWorker_pc_ne (by decide)]; exact h₀.pc 1) true rfl
    (by rw [hc₁, setWorker_threads_ne (by decide)]; exact hins 1)
  obtain ⟨t₂, -, ht₂, -, ha₂, -⟩ := r₂.iterate
  have hq : ∀ j op, t₂.pc j ≠ .entered op := fun j op hj => by simpa [hj, Pc.holds] using ht₂.idle j
  have hacq : t₂.acquisitions = [0, 1] := by simp [ha₂, ha₁, State.setWorker, h₀.acquisitions]
  have hst := hierarchyStats_of_reachable ht₂.reachable hq
  exact ⟨t₂, hacq, by rw [hst.switches, hacq]; decide, ⟨ht₂.reachable, hq⟩, hst⟩

theorem RecordTracks.dominated_add_starved_le (h : RecordTracks t c l) :
    c.ext.dominatedLowerThreads + c.ext.starvedByHigher ≤ c.stats.lockAcquisitions := by
  rw [h.dominated, h.starved, h.acquisitions]; exact dominatedCount_add_starvedCount_le

theorem RecordTracks.maxConsecutive_le (h : RecordTracks t c l) :
    c.ext.maxConsecutiveAcquisitions ≤ c.stats.lockAcquisitions :=
  h.acquisitions ▸ replicate_infix_count h.maxConsecutive.1

/-- In every reachable state every record reflects the same settled acquisitions. -/
theorem recordTracks_of_reachable (hs : Reachable harness randMax s) :
    ∃ l, ∀ t, RecordTracks t (s.threads t) l := by
  rcases trackInv_of_reachable hs with ⟨-, -, hrec⟩ | ⟨-, -, l, -, -, -, hrec⟩
  exacts [⟨_, hrec⟩, ⟨l, hrec⟩]

section Starvation
variable (g : Tracking) (id now : ℕ) (e : Ext)

@[simp] theorem enterLock_starvationPeriods :
    (enterLock g id now e).2.starvationPeriods = (checkStarvation now e).starvationPeriods := by
  simp only [enterLock, trackAcquisition, countDominance]; split_ifs <;> rfl

theorem checkStarvation_starvationPeriods_le :
    (checkStarvation now e).starvationPeriods ≤ e.starvationPeriods + 1 := by
  unfold checkStarvation; split_ifs <;> simp; split <;> omega

theorem checkStarvation_starvationPeriods_of_lastLockTime (h : e.lastLockTime = 0) :
    (checkStarvation now e).starvationPeriods = e.starvationPeriods := by
  simp [checkStarvation, h]

end Starvation

/-- Per worker: at most one starvation period per acquisition after the first, and
`last_lock_time` still zero before the first. -/
def StarvationBound (x : Pc × ThreadConfig Ext) : Prop :=
  x.2.ext.starvationPeriods ≤ x.2.stats.lockAcquisitions - 1 ∧
    (x.2.stats.lockAcquisitions = 0 → x.2.ext.lastLockTime = 0)

theorem starvationBound_move {x y : Pc × ThreadConfig Ext} (hx : StarvationBound x)
    (hl : LocalStep harness randMax g x y) : StarvationBound y := by
  cases hl with
  | setupHead hsu =>
    simp only [harness, Option.some.injEq] at hsu
    subst hsu; exact hx
  | @enter c _ waited now =>
    simp only [StarvationBound, harness, enterLock_starvationPeriods, Nat.add_sub_cancel] at hx ⊢
    refine ⟨?_, fun h => absurd h (Nat.succ_ne_zero _)⟩
    rcases Nat.eq_zero_or_pos c.stats.lockAcquisitions with h0 | hpos
    · rw [checkStarvation_starvationPeriods_of_lastLockTime _ _ (hx.2 h0)]; omega
    · have := checkStarvation_starvationPeriods_le now c.ext; omega
  | perform => simpa [StarvationBound] using hx
  | _ => exact hx

theorem starvationBound_of_reachable (hs : Reachable harness randMax s) (j : Fin n) :
    StarvationBound (s.view j) :=
  hs.view_invariant (fun s hi j => by
      obtain ⟨-, -, hsp, -, hlt, -⟩ := hi.harness j
      simp [StarvationBound, State.view, hi.stats j, hsp, hlt])
    (fun _ _ _ => starvationBound_move) j

end Hscl.Mutex
