import Hscl.Run.Local

/-! Runs that exist: iterations that insert, and the joins once the stop flag is up. -/
namespace Hscl.Run

variable {n : ℕ} {P G ε : Type} [DecidableEq P] {h : Harness P G ε} {randMax : ℕ}
  {s t : State n P G ε} {i : Fin n}

/-- `t` continues a run through `s`: zero or more steps. -/
def Steps (h : Harness P G ε) (randMax : ℕ) (s t : State n P G ε) : Prop :=
  Relation.ReflTransGen (fun s t => ∃ a, step h randMax s a = some t) s t

theorem Steps.reachable (hs : Reachable h randMax s) (hst : Steps h randMax s t) :
    Reachable h randMax t := by
  induction hst with
  | refl => exact hs
  | tail _ hab ih => obtain ⟨a, ha⟩ := hab; exact ih.step a ha

theorem Steps.step {u : State n P G ε} (hst : Steps h randMax s t) (a : Action n)
    (ha : step h randMax t a = some u) : Steps h randMax s u :=
  Relation.ReflTransGen.tail hst ⟨a, ha⟩

/-- Worker `i` at its loop head, no worker holding the lock, the stop flag down, and `rand() = 0`
selecting an insert. -/
structure ReadyToInsert (h : Harness P G ε) (randMax : ℕ) (i : Fin n) (s : State n P G ε) :
    Prop where
  reachable : Reachable h randMax s
  head : s.pc i = .head
  idle : ∀ j, (s.pc j).holds = false
  stop : s.stop = false
  insert : selectOperation (s.threads i).insertRatio (s.threads i).findRatio (opRand randMax 0) =
    .insert

/-- One iteration: poll, acquire, enter, insert, release, with every clock reading `0`. The
other workers stay where they are. -/
theorem ReadyToInsert.iterate (hs : ReadyToInsert h randMax i s) :
    ∃ t, Steps h randMax s t ∧ ReadyToInsert h randMax i t ∧
      t.inserts.length = s.inserts.length + 1 ∧ t.acquisitions = s.acquisitions ++ [i] ∧
      ∀ j ≠ i, t.pc j = s.pc j ∧ t.threads j = s.threads j := by
  have hfree : s.held (h.acquirePrim s.globals) = none := by
    by_contra hc
    obtain ⟨j, hj⟩ := Option.ne_none_iff_exists'.mp hc
    simpa [hs.idle j] using ((lockInv_of_reachable hs.reachable).holder j).mp hj
  have r₀ : Steps h randMax s s := .refl
  have r₁ := r₀.step (.poll i 0 0 0) (step_poll.mpr ⟨hs.head, Nat.zero_le _, rfl⟩)
  rw [if_neg (by simp [hs.stop]), hs.insert] at r₁
  have r₂ := r₁.step (.acquire i) (step_acquire.mpr ⟨.insert, by simp,
    by simpa [State.setWorker] using hfree, rfl⟩)
  have r₃ := r₂.step (.enter i 0 0) (step_enter.mpr ⟨.insert, by simp, rfl⟩)
  have r₄ := r₃.step (.perform i ⟨0, 0, [], 0⟩) (step_perform.mpr ⟨.insert, by simp, rfl⟩)
  have r₅ := r₄.step (.release i 0 0) (step_release.mpr ⟨by simp, rfl⟩)
  refine ⟨_, r₅, ⟨r₅.reachable hs.reachable, by simp, fun j => ?_,
    by simp [State.setWorker, perform, hs.stop], ?_⟩, ?_, ?_, fun j hj => ?_⟩
  · by_cases hj : j = i
    · subst hj; simp [Pc.holds]
    · simp [State.setWorker, hj, hs.idle j]
  · simpa [State.setWorker] using hs.insert
  · simp [State.setWorker, perform]
  · simp [State.setWorker, perform]
  · simp [State.setWorker, perform, hj]

theorem ReadyToInsert.iterate_n (hs : ReadyToInsert h randMax i s) (m : ℕ) :
    ∃ t, Steps h randMax s t ∧ ReadyToInsert h randMax i t ∧
      t.inserts.length = s.inserts.length + m ∧
      t.acquisitions = s.acquisitions ++ List.replicate m i ∧
      ∀ j ≠ i, t.pc j = s.pc j ∧ t.threads j = s.threads j := by
  induction m with
  | zero => exact ⟨s, .refl, hs, rfl, by simp, fun _ _ => ⟨rfl, rfl⟩⟩
  | succ m ih =>
    obtain ⟨t, hst, ht, hl, ha, hf⟩ := ih
    obtain ⟨u, htu, hu, hl', ha', hf'⟩ := ht.iterate
    refine ⟨u, Relation.ReflTransGen.trans hst htu, hu, by omega, ?_, fun j hj => ?_⟩
    · rw [ha', ha, List.replicate_succ', List.append_assoc]
    · rw [(hf' j hj).1, (hf' j hj).2]; exact hf j hj

/-- A worker that has not started, in a run where no worker holds the lock and the flag is down:
once its `setup` succeeds and `rand() = 0` selects an insert, it is ready to insert. -/
theorem Reachable.setup_ready (hs : Reachable h randMax s) (hidle : ∀ j, (s.pc j).holds = false)
    (hstop : s.stop = false) (hp : s.pc i = .start) (ok : Bool) {e : ε}
    (hsetup : h.setup s.globals ok (s.threads i).ext = some e)
    (hins : selectOperation (s.threads i).insertRatio (s.threads i).findRatio (opRand randMax 0) = .insert) :
    Steps h randMax s (s.setWorker i .head { s.threads i with ext := e }) ∧
      ReadyToInsert h randMax i (s.setWorker i .head { s.threads i with ext := e }) := by
  have r₀ : Steps h randMax s s := .refl
  have r₁ := r₀.step (.setup i ok) (step_setup.mpr ⟨hp, rfl⟩)
  rw [hsetup] at r₁
  refine ⟨r₁, r₁.reachable hs, by simp, fun j => ?_, hstop, by simpa [State.setWorker] using hins⟩
  by_cases hj : j = i
  · subst hj; simp [Pc.holds]
  · simp [State.setWorker, hj, hidle j]

/-- A start whose worker `i` passes `setup` and draws an insert at `rand() = 0` has runs with any
number of inserts. -/
theorem Initial.exists_inserts {s₀ : State n P G ε} (h₀ : Initial h s₀) (ok : Bool) {e : ε}
    (hsetup : h.setup s₀.globals ok (s₀.threads i).ext = some e)
    (hins : selectOperation (s₀.threads i).insertRatio (s₀.threads i).findRatio (opRand randMax 0) = .insert)
    (m : ℕ) : ∃ t, Steps h randMax s₀ t ∧ ReadyToInsert h randMax i t ∧ t.inserts.length = m := by
  obtain ⟨r₁, hr⟩ := (Reachable.init h₀).setup_ready (fun j => by simp [h₀.pc j, Pc.holds]) h₀.stop
    (h₀.pc i) ok hsetup hins
  obtain ⟨t, hst, ht, hl, -⟩ := hr.iterate_n m
  exact ⟨t, Relation.ReflTransGen.trans r₁ hst, ht, by simpa [State.setWorker, h₀.inserts] using hl⟩

/-- A run `main` has joined: reachable, with every worker returned. The analyzers read its
records. -/
structure Finished (h : Harness P G ε) (randMax : ℕ) (s : State n P G ε) : Prop where
  reachable : Reachable h randMax s
  done : ∀ j, s.pc j = .done

private def polling (s : State n P G ε) : Finset (Fin n) := Finset.univ.filter fun j => s.pc j = .head

omit [DecidableEq P] in
private theorem polling_poll (hi : s.pc i = .head) :
    polling (s.setWorker i .done (s.threads i)) = (polling s).erase i := by
  ext j
  by_cases hj : j = i
  · subst hj; simp [polling]
  · simp [polling, hj, setWorker_pc_ne hj]

/-- Once the stop flag is up, every worker at its loop head returns at its next poll, leaving its
record as it is. -/
theorem Reachable.finish (hs : Reachable h randMax s) (hstop : s.stop = true)
    (hpc : ∀ j, s.pc j = .head ∨ s.pc j = .done) :
    ∃ t, Finished h randMax t ∧ t.threads = s.threads := by
  obtain ⟨k, hk⟩ : ∃ k, (polling s).card = k := ⟨_, rfl⟩
  induction k generalizing s with
  | zero =>
    refine ⟨s, ⟨hs, fun j => (hpc j).resolve_left fun hj => ?_⟩, rfl⟩
    rw [Finset.card_eq_zero] at hk
    exact Finset.not_mem_empty j (hk ▸ Finset.mem_filter.mpr ⟨Finset.mem_univ j, hj⟩)
  | succ k ih =>
    obtain ⟨i, hmem⟩ := Finset.card_pos.mp (by omega : 0 < (polling s).card)
    have hi : s.pc i = .head := (Finset.mem_filter.mp hmem).2
    have ht := hs.step (.poll i 0 0 0) (step_poll.mpr ⟨hi, Nat.zero_le _, rfl⟩)
    rw [if_pos hstop] at ht
    have hpc' : ∀ j, (s.setWorker i .done (s.threads i)).pc j = .head ∨
        (s.setWorker i .done (s.threads i)).pc j = .done := fun j => by
      by_cases hj : j = i
      · subst hj; simp
      · rw [setWorker_pc_ne hj]; exact hpc j
    have hk' : (polling (s.setWorker i .done (s.threads i))).card = k := by
      rw [polling_poll hi, Finset.card_erase_of_mem hmem, hk, Nat.add_sub_cancel]
    obtain ⟨t, hf, he⟩ := ih ht hstop hpc' hk'
    exact ⟨t, hf, he.trans (by simp [State.setWorker])⟩

/-- Once the flag is up, the steps a worker at this point still takes before it returns. -/
def Pc.stepsLeft : Pc → ℕ
  | .start => 2
  | .head => 1
  | .acquiring _ => 5
  | .entered _ => 4
  | .performing _ => 3
  | .releasing => 2
  | .done => 0

/-- The steps the workers still take before `main` can join them all. -/
def State.stepsLeft (s : State n P G ε) : ℕ := ∑ j, (s.pc j).stepsLeft

omit [DecidableEq P] in
theorem stepsLeft_lt {q : Pc} (ht : t.pc = Function.update s.pc i q)
    (hq : q.stepsLeft < (s.pc i).stepsLeft) : t.stepsLeft < s.stepsLeft := by
  refine Finset.sum_lt_sum (fun j _ => ?_) ⟨i, Finset.mem_univ _, by simpa [ht] using hq⟩
  by_cases hj : j = i
  · subst hj; simpa [ht] using hq.le
  · simp [ht, hj]

omit [DecidableEq P] in
@[simp] theorem perform_stop (op : OperationType) (inp : OpInput) :
    (perform s i op inp).stop = s.stop := by cases op <;> rfl

/-- With the flag up, a worker that has not returned lets the run move closer to the join: the
lock's holder can always go on, and a worker waiting for the lock can take it once nobody holds
it. -/
theorem exists_step_of_stop (randMax : ℕ) (hinv : LockInv h s) (hstop : s.stop = true) {j : Fin n}
    (hj : s.pc j ≠ .done) :
    ∃ a t, step h randMax s a = some t ∧ t.stop = true ∧ t.stepsLeft < s.stepsLeft := by
  by_cases hheld : ∃ i, (s.pc i).holds
  · obtain ⟨i, hi⟩ := hheld
    match hp : s.pc i, hi with
    | .entered op, _ =>
      exact ⟨.enter i 0 0, _, step_enter.mpr ⟨op, hp, rfl⟩, hstop,
        stepsLeft_lt (q := .performing op) rfl (by simp [hp, Pc.stepsLeft])⟩
    | .performing op, _ =>
      exact ⟨.perform i ⟨0, 0, [], 0⟩, _, step_perform.mpr ⟨op, hp, rfl⟩, by simpa using hstop,
        stepsLeft_lt (i := i) (q := .releasing) (by simp) (by simp [hp, Pc.stepsLeft])⟩
    | .releasing, _ =>
      exact ⟨.release i 0 0, _, step_release.mpr ⟨hp, rfl⟩, hstop,
        stepsLeft_lt (q := .head) rfl (by simp [hp, Pc.stepsLeft])⟩
  · have hfree : s.held (h.acquirePrim s.globals) = none :=
      Option.eq_none_iff_forall_not_mem.mpr fun i hi => hheld ⟨i, (hinv.holder i).mp hi⟩
    match hp : s.pc j with
    | .start =>
      refine ⟨.setup j true, _, step_setup.mpr ⟨hp, rfl⟩, ?_, ?_⟩ <;> split
      all_goals first
        | exact hstop
        | exact stepsLeft_lt rfl (by simp [hp, Pc.stepsLeft])
    | .head =>
      refine ⟨.poll j 0 0 0, _, step_poll.mpr ⟨hp, Nat.zero_le randMax, rfl⟩, ?_, ?_⟩ <;> rw [if_pos hstop]
      · exact hstop
      · exact stepsLeft_lt rfl (by simp [hp, Pc.stepsLeft])
    | .acquiring op =>
      exact ⟨.acquire j, _, step_acquire.mpr ⟨op, hp, hfree, rfl⟩, hstop,
        stepsLeft_lt (q := .entered op) rfl (by simp [hp, Pc.stepsLeft])⟩
    | .entered _ | .performing _ | .releasing => exact absurd ⟨j, by simp [hp, Pc.holds]⟩ hheld
    | .done => exact absurd hp hj

/-- From every reachable state some continuation of the run raises the stop flag and brings
every worker back from `worker_thread`: no interleaving deadlocks, and `main`'s joins can all
complete. -/
theorem Reachable.joinable (hs : Reachable h randMax s) :
    ∃ t, Steps h randMax s t ∧ Finished h randMax t := by
  have key : ∀ k (u : State n P G ε), u.stepsLeft = k → Reachable h randMax u → u.stop = true →
      ∃ t, Steps h randMax u t ∧ Finished h randMax t := by
    intro k
    induction k using Nat.strong_induction_on with
    | _ k ih =>
      intro u hk hu hstop
      by_cases hall : ∀ j, u.pc j = .done
      · exact ⟨u, .refl, hu, hall⟩
      · obtain ⟨j, hj⟩ := not_forall.mp hall
        obtain ⟨a, t, ha, hstop', hlt⟩ := exists_step_of_stop randMax
          (lockInv_of_reachable hu) hstop hj
        obtain ⟨w, hw, hf⟩ := ih _ (hk ▸ hlt) t rfl (hu.step a ha) hstop'
        exact ⟨w, .head ⟨a, ha⟩ hw, hf⟩
  have ha : Run.step h randMax s .stop = some { s with stop := true } := step_stop.mpr rfl
  obtain ⟨t, ht, hf⟩ := key _ _ rfl (hs.step .stop ha) rfl
  exact ⟨t, .head ⟨_, ha⟩ ht, hf⟩

/-- One worker, and `main` raising the flag before the worker's first poll: the worker sets up,
returns without an operation, and `main` joins it. -/
theorem Initial.finish_idle {s : State 1 P G ε} {e : ε} (hi : Initial h s)
    (he : h.setup s.globals true (s.threads 0).ext = some e) :
    ∃ t : State 1 P G ε, Finished h randMax t ∧ t.threads 0 = { s.threads 0 with ext := e } := by
  have r₁ := (Reachable.init hi : Reachable h randMax s).step .stop (step_stop.mpr rfl)
  have r₂ := r₁.step (t := ({ s with stop := true } : State 1 P G ε).setWorker 0 .head
    { s.threads 0 with ext := e }) (.setup 0 true) (step_setup.mpr ⟨hi.pc 0, by simp [he]⟩)
  obtain ⟨t, hf, ht⟩ := r₂.finish rfl fun j => .inl (by simp [Fin.fin_one_eq_zero j])
  exact ⟨t, hf, by simp [ht]⟩

end Hscl.Run
