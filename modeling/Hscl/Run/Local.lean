import Hscl.Run.Keys

/-! What a step does to one worker's program counter and `thread_config_t`. -/
namespace Hscl.Run

variable {n : ℕ} {P G ε : Type} {h : Harness P G ε} {randMax : ℕ} {s t : State n P G ε}
  {a : Action n}

/-- One move of `worker_thread` on the worker's own program counter and record, given the
harness globals `g` before the move. -/
inductive LocalStep (h : Harness P G ε) (randMax : ℕ) (g : G) :
    Pc × ThreadConfig ε → Pc × ThreadConfig ε → Prop
  | setupHead {c : ThreadConfig ε} {ok : Bool} {e : ε} : h.setup g ok c.ext = some e →
      LocalStep h randMax g (.start, c) (.head, { c with ext := e })
  | setupDone {c : ThreadConfig ε} {ok : Bool} : h.setup g ok c.ext = none →
      LocalStep h randMax g (.start, c) (.done, c)
  | pollDone {c : ThreadConfig ε} : LocalStep h randMax g (.head, c) (.done, c)
  | pollGo {c : ThreadConfig ε} {r now₁ now₂ : ℕ} : r ≤ randMax →
      LocalStep h randMax g (.head, c)
        (.acquiring (selectOperation c.insertRatio c.findRatio (opRand randMax r)),
          { c with ext := h.loopHead g now₁ now₂ c.ext })
  | acquire {c : ThreadConfig ε} {op : OperationType} :
      LocalStep h randMax g (.acquiring op, c) (.entered op, c)
  | enter {c : ThreadConfig ε} {op : OperationType} {waited now : ℕ} :
      LocalStep h randMax g (.entered op, c)
        (.performing op,
          { c with
            stats := { c.stats with
              lockWaitTime := c.stats.lockWaitTime + waited
              lockAcquisitions := c.stats.lockAcquisitions + 1 }
            ext := (h.enter g c.threadId now c.ext).2 })
  | perform {c : ThreadConfig ε} {op : OperationType} {elapsed : ℕ} :
      LocalStep h randMax g (.performing op, c) (.releasing, { c with stats := c.stats.record op elapsed })
  | release {c : ThreadConfig ε} {sliceEnd now : ℕ} :
      LocalStep h randMax g (.releasing, c)
        (.head, { c with ext := h.afterRelease g sliceEnd now c.stats c.ext })

/-- A worker's view of a state. -/
def State.view (s : State n P G ε) (j : Fin n) : Pc × ThreadConfig ε := (s.pc j, s.threads j)

theorem setWorker_view {i j : Fin n} {q : Pc} {c : ThreadConfig ε} :
    (s.setWorker i q c).view j = if j = i then (q, c) else s.view j := by
  by_cases hj : j = i
  · subst hj; simp [State.view]
  · simp [State.view, hj, setWorker_pc_ne, setWorker_threads_ne]

/-- A step moves its own worker by one `LocalStep` and leaves every other worker alone. -/
theorem step_view [DecidableEq P] (hs : step h randMax s a = some t) (j : Fin n) :
    (a.worker = some j ∧ LocalStep h randMax s.globals (s.view j) (t.view j)) ∨
      (a.worker ≠ some j ∧ t.view j = s.view j) := by
  have hw : ∀ (i : Fin n) (q : Pc) (c : ThreadConfig ε), some i = a.worker →
      LocalStep h randMax s.globals (s.view i) (q, c) →
      (a.worker = some j ∧ LocalStep h randMax s.globals (s.view j) ((s.setWorker i q c).view j)) ∨
        (a.worker ≠ some j ∧ (s.setWorker i q c).view j = s.view j) := by
    intro i q c ha hl
    rw [setWorker_view]
    by_cases hj : j = i
    · subst hj; exact .inl ⟨ha.symm, by simpa using hl⟩
    · exact .inr ⟨by rw [← ha]; simpa using Ne.symm hj, by simp [hj]⟩
  cases a with
  | setup i ok =>
    obtain ⟨hp, rfl⟩ := step_setup.mp hs
    split <;> rename_i hsu <;> refine hw _ _ _ rfl ?_ <;> rw [State.view, hp]
    · exact .setupHead hsu
    · exact .setupDone hsu
  | poll i r now₁ now₂ =>
    obtain ⟨hp, hr, rfl⟩ := step_poll.mp hs
    split <;> refine hw _ _ _ rfl ?_ <;> rw [State.view, hp]
    · exact .pollDone
    · exact .pollGo hr
  | acquire i =>
    obtain ⟨op, hp, -, rfl⟩ := step_acquire.mp hs
    exact hw i (.entered op) _ rfl (by rw [State.view, hp]; exact .acquire)
  | enter i waited now =>
    obtain ⟨op, hp, rfl⟩ := step_enter.mp hs
    exact hw i (.performing op) _ rfl (by rw [State.view, hp]; exact .enter)
  | perform i inp =>
    obtain ⟨op, hp, rfl⟩ := step_perform.mp hs
    have : (perform s i op inp).view j = (s.setWorker i .releasing
        { s.threads i with
          stats := (s.threads i).stats.record op (operationTime op s.nextKeyId inp.elapsed) }).view j := by
      simp [State.view, State.setWorker]
    rw [this]
    exact hw i .releasing _ rfl (by rw [State.view, hp]; exact .perform)
  | release i sliceEnd now =>
    obtain ⟨hp, rfl⟩ := step_release.mp hs
    exact hw i .head _ rfl (by rw [State.view, hp]; exact .release)
  | stop => rw [step_stop.mp hs]; exact .inr ⟨by simp [Action.worker], rfl⟩

/-- No step writes another worker's `thread_config_t`. -/
theorem step_threads_other [DecidableEq P] (hs : step h randMax s a = some t) {j : Fin n}
    (hj : a.worker ≠ some j) : t.threads j = s.threads j := by
  rcases step_view hs j with ⟨hw, -⟩ | ⟨-, hv⟩
  · exact absurd hw hj
  · exact congrArg Prod.snd hv

/-- A property of one worker's view that `main`'s start satisfies and every move keeps holds of
every worker in every reachable state. -/
theorem Reachable.view_invariant [DecidableEq P] {Q : Pc × ThreadConfig ε → Prop}
    (h₀ : ∀ s : State n P G ε, Initial h s → ∀ j, Q (s.view j))
    (hmove : ∀ g x y, Q x → LocalStep h randMax g x y → Q y)
    (hs : Reachable h randMax s) (j : Fin n) : Q (s.view j) := by
  refine hs.invariant (I := fun s => ∀ j, Q (s.view j)) h₀ (fun s t a _ hq ha j => ?_) j
  rcases step_view ha j with ⟨-, hl⟩ | ⟨-, hv⟩
  · exact hmove _ _ _ (hq j) hl
  · exact hv ▸ hq j

/-- The same for a property that reads the harness's globals, when no step writes them: it need
only be kept by the moves under the globals `main` may start with. -/
theorem Reachable.view_invariant_globals [DecidableEq P] {Q : G → Pc × ThreadConfig ε → Prop}
    (hg : ∀ g k now e, (h.enter g k now e).1 = g)
    (h₀ : ∀ s : State n P G ε, Initial h s → ∀ j, Q s.globals (s.view j))
    (hmove : ∀ g x y, h.start g → Q g x → LocalStep h randMax g x y → Q g y)
    (hs : Reachable h randMax s) (j : Fin n) : Q s.globals (s.view j) := by
  refine hs.invariant (I := fun s => ∀ j, Q s.globals (s.view j)) h₀
    (fun s t a hr hq ha j => ?_) j
  rw [step_globals hg ha]
  rcases step_view ha j with ⟨-, hl⟩ | ⟨-, hv⟩
  · exact hmove _ _ _ (hr.start_globals hg) (hq j) hl
  · exact hv ▸ hq j

/-- Per worker: the three operation counts add up to `total_operations`, and
`lock_acquisitions` is ahead by one exactly while the counted operation is still pending. -/
def CountersAgree (x : Pc × ThreadConfig ε) : Prop :=
  x.2.stats.insertCount + x.2.stats.findCount + x.2.stats.updateCount = x.2.stats.totalOperations ∧
    x.2.stats.lockAcquisitions =
      x.2.stats.totalOperations + (match x.1 with | .performing _ => 1 | _ => 0)

theorem countersAgree_move {g : G} {x y : Pc × ThreadConfig ε} (hx : CountersAgree x)
    (hl : LocalStep h randMax g x y) : CountersAgree y := by
  obtain ⟨hsum, hla⟩ := hx
  cases hl with
  | perform => simp_all [CountersAgree, Counters.record_counts]
  | _ => simp_all [CountersAgree]

theorem countersAgree_of_reachable [DecidableEq P] (hs : Reachable h randMax s) (j : Fin n) :
    CountersAgree (s.view j) :=
  hs.view_invariant (fun s hi j => by simp [CountersAgree, State.view, hi.stats j, hi.pc j])
    (fun _ _ _ => countersAgree_move) j

/-- The counters after a completed iteration: the three operation counts add up to
`total_operations`, which is `lock_acquisitions`. -/
def Counters.Consistent (c : Counters) : Prop :=
  c.insertCount + c.findCount + c.updateCount = c.totalOperations ∧
    c.totalOperations = c.lockAcquisitions

theorem consistent_of_reachable [DecidableEq P] (hs : Reachable h randMax s) {j : Fin n}
    (hj : s.pc j = .head ∨ s.pc j = .done) : (s.threads j).stats.Consistent := by
  obtain ⟨hsum, hla⟩ := countersAgree_of_reachable hs j
  simp only [State.view] at hsum hla
  rcases hj with hj | hj <;> rw [hj] at hla <;> exact ⟨hsum, hla.symm⟩

/-- Operations whose acquisition is counted and whose release check is still to come. -/
def pendingChecks : Pc → ℕ
  | .performing _ | .releasing => 1
  | _ => 0

/-- A harness whose record counts slice violations in `sv`: zero at the start, and only the
check after a release changes it, by at most one. -/
structure CountsSlices (h : Harness P G ε) (sv : ε → ℕ) : Prop where
  initial : ∀ g c, h.initial g c → sv c.ext = 0
  setup : ∀ g ok e e', h.setup g ok e = some e' → sv e' = sv e
  loopHead : ∀ g now₁ now₂ e, sv (h.loopHead g now₁ now₂ e) = sv e
  enter : ∀ g id now e, sv (h.enter g id now e).2 = sv e
  afterRelease : ∀ g sliceEnd now c e, sv (h.afterRelease g sliceEnd now c e) ≤ sv e + 1

/-- Per worker: slice violations, with a pending check counted, stay within `lock_acquisitions`. -/
def SliceBound (sv : ε → ℕ) (x : Pc × ThreadConfig ε) : Prop :=
  sv x.2.ext + pendingChecks x.1 ≤ x.2.stats.lockAcquisitions

theorem sliceBound_move {sv : ε → ℕ} (hc : CountsSlices h sv) {g : G}
    {x y : Pc × ThreadConfig ε} (hx : SliceBound sv x) (hl : LocalStep h randMax g x y) :
    SliceBound sv y := by
  cases hl with
  | setupHead hsu => simpa [SliceBound, hc.setup _ _ _ _ hsu] using hx
  | pollGo => simpa [SliceBound, hc.loopHead] using hx
  | enter => simp_all [SliceBound, hc.enter, pendingChecks]
  | release =>
    simp only [SliceBound, pendingChecks] at hx ⊢
    exact (hc.afterRelease _ _ _ _ _).trans (by omega)
  | _ => simp_all [SliceBound, pendingChecks]

theorem sliceBound_of_reachable [DecidableEq P] {sv : ε → ℕ} (hc : CountsSlices h sv)
    (hs : Reachable h randMax s) (j : Fin n) : SliceBound sv (s.view j) :=
  hs.view_invariant (fun s hi j => by
      simp [SliceBound, State.view, hi.stats j, hi.pc j, pendingChecks,
        hc.initial _ _ (hi.harness j)])
    (fun _ _ _ => sliceBound_move hc) j

theorem sliceViolations_le_of_reachable [DecidableEq P] {sv : ε → ℕ} (hc : CountsSlices h sv)
    (hs : Reachable h randMax s) (j : Fin n) :
    sv (s.threads j).ext ≤ (s.threads j).stats.lockAcquisitions :=
  le_of_add_le_left (sliceBound_of_reachable hc hs j)

end Hscl.Run
