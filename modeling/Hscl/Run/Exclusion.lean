import Hscl.Run.Machine

/-! The lock discipline of a run: the holder is the worker between its acquire and release. -/
namespace Hscl.Run

variable {n : ℕ} {P G ε : Type} {h : Harness P G ε} {randMax : ℕ}
  {s t : State n P G ε} {a : Action n}

/-- The lock's holder is the worker inside its critical section, and no other primitive is held. -/
structure LockInv (h : Harness P G ε) (s : State n P G ε) : Prop where
  holder : ∀ i, s.held (h.acquirePrim s.globals) = some i ↔ (s.pc i).holds
  others : ∀ p, p ≠ h.acquirePrim s.globals → s.held p = none

theorem LockInv.congr (hinv : LockInv h s) (hpc : ∀ j, (t.pc j).holds = (s.pc j).holds)
    (hheld : t.held = s.held) (hg : h.acquirePrim t.globals = h.acquirePrim s.globals) :
    LockInv h t :=
  ⟨fun j => by rw [hheld, hg, hpc j]; exact hinv.holder j,
    fun p hp => by rw [hheld]; exact hinv.others p (hg ▸ hp)⟩

theorem holds_update_of_holds {i : Fin n} {q : Pc} (hq : q.holds = (s.pc i).holds) (j : Fin n) :
    (Function.update s.pc i q j).holds = (s.pc j).holds := by
  by_cases hj : j = i
  · subst hj; simpa using hq
  · simp [hj]

theorem LockInv.setWorker (hinv : LockInv h s) {i : Fin n} {q : Pc} {c : ThreadConfig ε}
    (hq : q.holds = (s.pc i).holds) : LockInv h (s.setWorker i q c) :=
  hinv.congr (holds_update_of_holds hq) rfl rfl

theorem LockInv.not_held {i : Fin n} (hinv : LockInv h s) (hi : (s.pc i).holds = false)
    (p : P) : s.held p ≠ some i := by
  intro he
  by_cases hp : p = h.acquirePrim s.globals
  · subst hp; simp [(hinv.holder i).mp he] at hi
  · simp [hinv.others p hp] at he

theorem lockInv_initial (hi : Initial h s) : LockInv h s :=
  ⟨fun i => by simp [hi.held, hi.pc, Pc.holds], fun p _ => hi.held p⟩

variable [DecidableEq P]

theorem LockInv.acquire (hinv : LockInv h s) {i : Fin n} {op : OperationType}
    (hfree : s.held (h.acquirePrim s.globals) = none) :
    LockInv h { s.setWorker i (.entered op) (s.threads i) with
      held := Function.update s.held (h.acquirePrim s.globals) (some i)
      acquisitions := s.acquisitions ++ [i] } := by
  refine ⟨fun j => ?_, fun p hp => ?_⟩
  swap
  · simp only [State.setWorker] at hp ⊢
    rw [Function.update_noteq hp, hinv.others p hp]
  by_cases hj : j = i
  · subst hj; simp [State.setWorker, Pc.holds]
  · have := (hinv.holder j).not.mp (by simp [hfree])
    simp_all [State.setWorker, Ne.symm hj]

theorem LockInv.release (hinv : LockInv h s) {i : Fin n} (hp : s.pc i = .releasing)
    (c : ThreadConfig ε) :
    LockInv h { s.setWorker i .head c with
      held := Function.update s.held (h.acquirePrim s.globals) none } := by
  have hi := (hinv.holder i).mpr (by simp [hp, Pc.holds])
  refine ⟨fun j => ?_, fun p hp' => ?_⟩
  swap
  · simp only [State.setWorker] at hp' ⊢
    rw [Function.update_noteq hp', hinv.others p hp']
  by_cases hj : j = i
  · subst hj; simp [State.setWorker, Pc.holds]
  · have : (s.pc j).holds = false := by
      by_contra hc
      exact hj (Option.some_injective _ (((hinv.holder j).mpr (by simpa using hc)).symm.trans hi))
    simp [State.setWorker, hj, this]

theorem lockInv_step (hinv : LockInv h s) (hs : step h randMax s a = some t) : LockInv h t := by
  cases a with
  | setup i ok =>
    obtain ⟨hp, rfl⟩ := step_setup.mp hs
    split <;> exact hinv.setWorker (by simp [hp, Pc.holds])
  | poll i r now₁ now₂ =>
    obtain ⟨hp, -, rfl⟩ := step_poll.mp hs
    split <;> exact hinv.setWorker (by simp [hp, Pc.holds])
  | acquire i =>
    obtain ⟨op, -, hfree, rfl⟩ := step_acquire.mp hs
    exact hinv.acquire hfree
  | enter i waited now =>
    obtain ⟨op, hp, rfl⟩ := step_enter.mp hs
    exact hinv.congr (holds_update_of_holds (by simp [hp, Pc.holds])) rfl (h.enter_prim _ _ _ _)
  | perform i inp =>
    obtain ⟨op, hp, rfl⟩ := step_perform.mp hs
    exact hinv.congr (by simpa using holds_update_of_holds (by simp [hp, Pc.holds])) (by simp)
      (by simp)
  | release i sliceEnd now =>
    obtain ⟨hp, rfl⟩ := step_release.mp hs
    exact hinv.release hp _
  | stop =>
    rw [step_stop.mp hs]
    exact hinv.congr (fun _ => rfl) rfl rfl

theorem lockInv_of_reachable (hs : Reachable h randMax s) : LockInv h s :=
  hs.invariant (fun _ => lockInv_initial) fun _ _ _ _ hinv ha => lockInv_step hinv ha

/-- The lock discipline of a run: one worker at most in a critical section, every database
operation under the lock, and no primitive held at the loop head or after the return. -/
structure Disciplined (h : Harness P G ε) (randMax : ℕ) (s : State n P G ε) : Prop where
  exclusive : ∀ i j, (s.pc i).holds → (s.pc j).holds → i = j
  perform_held : ∀ i inp t, step h randMax s (.perform i inp) = some t →
    s.held (h.acquirePrim s.globals) = some i
  head_free : ∀ i p, s.pc i = .head → s.held p ≠ some i
  done_free : ∀ i p, s.pc i = .done → s.held p ≠ some i

theorem disciplined_of_reachable (hs : Reachable h randMax s) : Disciplined h randMax s := by
  have hinv := lockInv_of_reachable hs
  refine ⟨fun i j hi hj => ?_, fun i inp t ht => ?_, fun i p hp => ?_, fun i p hp => ?_⟩
  · exact Option.some_injective _ (((hinv.holder i).mpr hi).symm.trans ((hinv.holder j).mpr hj))
  · obtain ⟨op, hp, -⟩ := step_perform.mp ht
    exact (hinv.holder i).mpr (by simp [hp, Pc.holds])
  · exact hinv.not_held (by simp [hp, Pc.holds]) p
  · exact hinv.not_held (by simp [hp, Pc.holds]) p

end Hscl.Run
