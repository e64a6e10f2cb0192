import Mathlib.Algebra.BigOperators.Ring
import Hscl.Sample.Records

/-! Runs of `upscaledb_hscl_test.c`: exclusion, the database, reads and termination. -/
namespace Hscl.Sample

/-- The `lock_acquires` a call adds before its own: none for the insert, one for the read. -/
def Call.before : Call → ℕ
  | .insert => 0
  | .read => 1

/-- The inserts a worker has completed: each iteration counts one acquisition for its insert and
one for its read. -/
def Worker.inserted (w : Worker) : ℕ := (w.lockAcquires + 1) / 2

/-- What worker `j`'s locals are at each point of its loop. -/
def Agrees (j : ℕ) : Pc → Worker → Prop
  | .start, w => w.lockAcquires = 0 ∧ w.reported = 0
  | .head i, w => w.lockAcquires = 2 * i ∧ i ≤ numOperations ∧ w.reported = 0 ∧
      (0 < i → w.readBuffer = valueText j (i - 1))
  | .waiting c i, w | .holding c i, w =>
      w.lockAcquires = 2 * i + c.before ∧ i < numOperations ∧ w.reported = 0
  | .done, w => w.reported = w.lockAcquires ∧ w.lockAcquires % 2 = 0 ∧
      w.lockAcquires ≤ 2 * numOperations

/-- The database holds, for each worker `j`, the records of its first `n j` iterations, and
nothing else. -/
def DbHolds (db : Store) (n : Fin numThreads → ℕ) : Prop :=
  (∀ j, ∀ i < n j, db (keyBytes (keyVal j i)) = some (recordBytes (valueText j i))) ∧
    ∀ key, (db key).isSome → ∃ j, ∃ i < n j, key = keyBytes (keyVal j i)

/-- The invariant of every reachable state. -/
structure Inv (s : State) : Prop where
  agrees : ∀ j : Fin numThreads, Agrees j (s.pc j) (s.workers j)
  holder : ∀ j, s.holder = some j ↔ (s.pc j).holds
  db : DbHolds s.db fun j => (s.workers j).inserted

/-- The steps a worker at this point takes at most before it returns. -/
def Pc.stepsLeft : Pc → ℕ
  | .start => 5 * numOperations + 2
  | .head i => 5 * (numOperations - i) + 1
  | .waiting .insert i => 5 * (numOperations - i)
  | .holding .insert i => 5 * (numOperations - i) - 1
  | .waiting .read i => 5 * (numOperations - i) - 2
  | .holding .read i => 5 * (numOperations - i) - 3
  | .done => 0

/-- The steps left in a run: the workers', and `main`'s write of the flag. -/
def State.stepsLeft (s : State) : ℕ := (∑ j, (s.pc j).stepsLeft) + if s.stop then 0 else 1

section Lemmas
variable {s t : State} {j k : Fin numThreads} {q : Pc} {w : Worker}

theorem Agrees.inserted_le {q : Pc} (h : Agrees j q w) : w.inserted ≤ numOperations := by
  unfold Worker.inserted
  cases q with
  | waiting c i | holding c i => cases c <;> simp only [Agrees, Call.before] at h <;> omega
  | _ => simp only [Agrees] at h; omega

theorem Agrees.inserted_holding {c : Call} {i : ℕ} (h : Agrees j (.holding c i) w) :
    w.inserted = i + c.before ∧ i < numOperations := by
  obtain ⟨h1, h2, -⟩ := h
  exact ⟨by cases c <;> simp only [Worker.inserted, h1, Call.before] <;> omega, h2⟩

theorem agrees_setWorker (h : ∀ k : Fin numThreads, Agrees k (s.pc k) (s.workers k))
    (hj : Agrees j q w) (k : Fin numThreads) :
    Agrees k ((s.setWorker j q w).pc k) ((s.setWorker j q w).workers k) := by
  by_cases hk : k = j
  · subst hk; simpa using hj
  · rw [setWorker_pc_ne hk, setWorker_workers_ne hk]; exact h k

theorem holder_update {H : Option (Fin numThreads)}
    (h : ∀ k, k ≠ j → (H = some k ↔ (s.pc k).holds)) (hj : H = some j ↔ q.holds)
    (k : Fin numThreads) : H = some k ↔ (Function.update s.pc j q k).holds := by
  by_cases hk : k = j
  · subst hk; simpa using hj
  · rw [Function.update_noteq hk]; exact h k hk

theorem dbHolds_update {db : Store} (h : DbHolds db fun k => (s.workers k).inserted)
    (hw : w.inserted = (s.workers j).inserted) :
    DbHolds db fun k => (Function.update s.workers j w k).inserted := by
  convert h using 2 with k
  by_cases hk : k = j
  · subst hk; simpa using hw
  · rw [Function.update_noteq hk]

/-- Worker `j`'s next insert, with every count within `NUM_OPERATIONS`: its key is new, so the
insert succeeds and the database holds one more of `j`'s records. -/
theorem dbHolds_insert {db : Store} {n : Fin numThreads → ℕ} {i : ℕ} (h : DbHolds db n)
    (hn : ∀ k, n k ≤ numOperations) (hji : n j = i) (hi : i < numOperations) :
    (insertWithLock db (keyVal j i) (valueText j i)).1 = .success ∧
      DbHolds (insertWithLock db (keyVal j i) (valueText j i)).2 (Function.update n j (i + 1)) := by
  subst hji
  have inj : ∀ {k i}, i < n k → keyBytes (keyVal k i) = keyBytes (keyVal j (n j)) →
      k = j ∧ i = n j := fun {k i} hi' he => by
    have hkj := keyBytes_keyVal_inj k.isLt j.isLt (by have := hn k; unfold numOperations at *; omega)
      (by unfold numOperations at hi; omega) he
    exact ⟨Fin.ext hkj.1, hkj.2⟩
  have hnew : db (keyBytes (keyVal j (n j))) = none := by
    by_contra hc
    obtain ⟨k, i, hi, he⟩ := h.2 _ (Option.ne_none_iff_isSome.mp hc)
    obtain ⟨rfl, rfl⟩ := inj hi he.symm
    exact lt_irrefl _ hi
  simp only [insertWithLock, upsDbInsert, hnew, Bool.false_eq_true, if_false, true_and]
  constructor
  · intro k i hi
    by_cases hki : k = j ∧ i = n j
    · obtain ⟨rfl, rfl⟩ := hki; simp
    · have hi' : i < n k := by
        by_cases hk : k = j
        · subst hk; simp only [Function.update_same] at hi; omega
        · simpa [hk] using hi
      rw [Function.update_noteq fun he => hki (inj hi' he)]
      exact h.1 k i hi'
  · intro key hkey
    by_cases he : key = keyBytes (keyVal j (n j))
    · exact ⟨j, n j, by simp, he⟩
    · rw [Function.update_noteq he] at hkey
      obtain ⟨k, i, hi, rfl⟩ := h.2 key hkey
      refine ⟨k, i, lt_of_lt_of_le hi ?_, rfl⟩
      rw [Function.update_apply]; split_ifs with hk
      · subst hk; omega
      · rfl

theorem inv_initial (hi : Initial s) : Inv s where
  agrees j := by simp [Agrees, hi.pc j, hi.lockAcquires j, hi.reported j]
  holder j := by simp [hi.holder, hi.pc j, Pc.holds]
  db := ⟨fun j i hlt => by simp [Worker.inserted, hi.lockAcquires j] at hlt,
    fun key hk => by simp [hi.db, Store.empty] at hk⟩

theorem Inv.agrees_of_pc (hI : Inv s) (hp : s.pc j = q) : Agrees j q (s.workers j) :=
  hp ▸ hI.agrees j

theorem Inv.holder_idle (hI : Inv s) (hp : (s.pc j).holds = false) (hq : q.holds = false) (k) :
    s.holder = some k ↔ (Function.update s.pc j q k).holds :=
  holder_update (fun k _ => hI.holder k) (by rw [hI.holder j, hp, hq]) k

theorem Inv.holder_release (hI : Inv s) (hp : (s.pc j).holds) (hq : q.holds = false) (k) :
    none = some k ↔ (Function.update s.pc j q k).holds := by
  refine holder_update (fun k hk => ?_) (by simp [hq]) k
  have hj := (hI.holder j).mpr hp
  rw [← hI.holder k, hj]
  simpa using Ne.symm hk

theorem Inv.step (hI : Inv s) {a : Action} (ha : Sample.step s a = some t) : Inv t := by
  cases a with
  | setup j ok =>
    obtain ⟨hp, rfl⟩ := step_setup.mp ha
    obtain ⟨h1, h2⟩ := hI.agrees_of_pc hp
    have hq : (if ok then Pc.head 0 else .done).holds = false := by split <;> rfl
    refine ⟨agrees_setWorker hI.agrees ?_, hI.holder_idle (by rw [hp]; rfl) hq,
      dbHolds_update hI.db rfl⟩
    split <;> simp [Agrees, h1, h2]
  | poll j =>
    obtain ⟨i, hp, rfl⟩ := step_poll.mp ha
    obtain ⟨h1, h2, h3, -⟩ := hI.agrees_of_pc hp
    split_ifs with hgo
    · exact ⟨agrees_setWorker hI.agrees (by simp [Agrees, Call.before, h1, h3, hgo.1]),
        hI.holder_idle (by rw [hp]; rfl) rfl, dbHolds_update hI.db rfl⟩
    · refine ⟨agrees_setWorker hI.agrees ?_, hI.holder_idle (by rw [hp]; rfl) rfl,
        dbHolds_update hI.db rfl⟩
      simp only [Agrees, h1, true_and]
      omega
  | acquire j =>
    obtain ⟨c, i, hp, hfree, rfl⟩ := step_acquire.mp ha
    have hj := hI.agrees_of_pc hp
    refine ⟨agrees_setWorker hI.agrees hj,
      holder_update (fun k hk => ?_) (by simp [Pc.holds]), dbHolds_update hI.db rfl⟩
    rw [← hI.holder k, hfree]
    simpa using Ne.symm hk
  | release j =>
    rcases step_release.mp ha with ⟨i, hp, rfl⟩ | ⟨i, hp, rfl⟩
    · have hj := hI.agrees_of_pc hp
      obtain ⟨hn, hi⟩ := hj.inserted_holding
      simp only [Call.before, add_zero] at hn
      obtain ⟨-, hdb⟩ := dbHolds_insert hI.db (fun k => (hI.agrees k).inserted_le) hn hi
      obtain ⟨h1, -, h3⟩ := hj
      refine ⟨agrees_setWorker hI.agrees ?_, hI.holder_release (by rw [hp]; rfl) rfl, ?_⟩
      · simp [Agrees, Call.before, h1, hi, h3]
      · convert hdb using 2 with k
        by_cases hk : k = j
        · subst hk; simp [Worker.inserted, h1, Call.before]; omega
        · simp [setWorker_workers_ne hk, hk]
    · have hj := hI.agrees_of_pc hp
      obtain ⟨hn, hi⟩ := hj.inserted_holding
      have hread := readWithLock_of_stored (hI.db.1 j i (by simp [hn, Call.before]))
      obtain ⟨h1, -, h3⟩ := hj
      refine ⟨agrees_setWorker hI.agrees ?_, hI.holder_release (by rw [hp]; rfl) rfl,
        dbHolds_update hI.db (by simp [Worker.inserted, h1, Call.before]; omega)⟩
      simp [Agrees, hread, h1, hi, h3, Call.before]
      omega
  | stop =>
    obtain ⟨-, rfl⟩ := step_stop.mp ha
    exact ⟨hI.agrees, hI.holder, hI.db⟩

theorem inv_of_reachable (hs : Reachable s) : Inv s :=
  hs.invariant (fun _ => inv_initial) fun _ _ _ _ hI ha => hI.step ha

theorem stepsLeft_lt_of_update (hpc : t.pc = Function.update s.pc j q) (hstop : t.stop = s.stop)
    (hq : q.stepsLeft < (s.pc j).stepsLeft) : t.stepsLeft < s.stepsLeft := by
  have hsum : ∑ k, (t.pc k).stepsLeft < ∑ k, (s.pc k).stepsLeft := by
    refine Finset.sum_lt_sum (fun k _ => ?_) ⟨j, Finset.mem_univ _, by simpa [hpc] using hq⟩
    by_cases hk : k = j
    · subst hk; simpa [hpc] using hq.le
    · simp [hpc, hk]
  unfold State.stepsLeft
  rw [hstop]
  omega

/-- Every step lowers the steps left. -/
theorem Inv.stepsLeft_lt (hI : Inv s) {a : Action} (ha : Sample.step s a = some t) :
    t.stepsLeft < s.stepsLeft := by
  cases a with
  | setup j ok =>
    obtain ⟨hp, rfl⟩ := step_setup.mp ha
    exact stepsLeft_lt_of_update rfl rfl (by rw [hp]; split <;> simp [Pc.stepsLeft])
  | poll j =>
    obtain ⟨i, hp, rfl⟩ := step_poll.mp ha
    split_ifs with hgo
    · exact stepsLeft_lt_of_update rfl rfl (by rw [hp]; simp only [Pc.stepsLeft]; omega)
    · exact stepsLeft_lt_of_update rfl rfl (by rw [hp]; simp [Pc.stepsLeft])
  | acquire j =>
    obtain ⟨c, i, hp, -, rfl⟩ := step_acquire.mp ha
    obtain ⟨-, hi, -⟩ := hI.agrees_of_pc hp
    refine stepsLeft_lt_of_update rfl rfl ?_
    rw [hp]
    cases c <;> simp only [Pc.stepsLeft] <;> omega
  | release j =>
    rcases step_release.mp ha with ⟨i, hp, rfl⟩ | ⟨i, hp, rfl⟩ <;>
      obtain ⟨-, hi⟩ := (hI.agrees_of_pc hp).inserted_holding <;>
      exact stepsLeft_lt_of_update rfl rfl (by rw [hp]; simp only [Pc.stepsLeft]; omega)
  | stop =>
    obtain ⟨hstop, rfl⟩ := step_stop.mp ha
    simp [State.stepsLeft, hstop]

theorem release_enabled (hp : (s.pc j).holds) : ∃ t, Sample.step s (.release j) = some t := by
  match hq : s.pc j, hp with
  | .holding .insert i, _ => exact ⟨_, step_release.mpr (.inl ⟨i, hq, rfl⟩)⟩
  | .holding .read i, _ => exact ⟨_, step_release.mpr (.inr ⟨i, hq, rfl⟩)⟩

/-- A worker that has not returned can move, or the lock's holder can: no reachable state
deadlocks. -/
theorem Inv.exists_step (hI : Inv s) (hj : s.pc j ≠ .done) :
    ∃ a t, a ≠ .stop ∧ Sample.step s a = some t := by
  match hp : s.pc j with
  | .start => exact ⟨.setup j true, _, nofun, step_setup.mpr ⟨hp, rfl⟩⟩
  | .head i => exact ⟨.poll j, _, nofun, step_poll.mpr ⟨i, hp, rfl⟩⟩
  | .holding c i => exact ⟨.release j, (release_enabled (by simp [hp, Pc.holds])).imp
      fun _ h => ⟨nofun, h⟩⟩
  | .waiting c i =>
    cases hh : s.holder with
    | none => exact ⟨.acquire j, _, nofun, step_acquire.mpr ⟨c, i, hp, hh, rfl⟩⟩
    | some k => exact ⟨.release k, (release_enabled ((hI.holder k).mp hh)).imp
      fun _ h => ⟨nofun, h⟩⟩
  | .done => exact absurd hp hj

end Lemmas

section Runs
variable {s : State}

private theorem reachable_first_read : ∃ s, Reachable s ∧ s.pc 0 = .holding .read 0 ∧
    s.holder = some 0 ∧ (s.workers 0).lockAcquires = 1 := by
  have r₁ := (Reachable.init mainState_initial).step (.setup 0 true) rfl
  have r₂ := r₁.step (.poll 0) rfl
  have r₃ := r₂.step (.acquire 0) rfl
  have r₄ := r₃.step (.release 0) rfl
  have r₅ := r₄.step (.acquire 0) rfl
  exact ⟨_, r₅, rfl, rfl, rfl⟩

/-- In every reachable state at most one worker holds the lock, and a worker makes its database
call only while it holds it. -/
theorem holder_unique (hs : Reachable s) :
    (∀ j k, (s.pc j).holds → (s.pc k).holds → j = k) ∧
      ∀ j t, Sample.step s (.release j) = some t → s.holder = some j := by
  have hI := inv_of_reachable hs
  refine ⟨fun j k hj hk => Option.some_injective _
    (((hI.holder j).mpr hj).symm.trans ((hI.holder k).mpr hk)), fun j t ha => (hI.holder j).mpr ?_⟩
  rcases step_release.mp ha with ⟨i, hp, -⟩ | ⟨i, hp, -⟩ <;> simp [hp, Pc.holds]

theorem holder_unique_first_read :
    ∃ s, s.holder = some 0 ∧ Reachable s ∧ ((∀ j k, (s.pc j).holds → (s.pc k).holds → j = k) ∧
      ∀ j t, Sample.step s (.release j) = some t → s.holder = some j) := by
  obtain ⟨s, hs, -, hh, -⟩ := reachable_first_read
  exact ⟨s, hh, hs, holder_unique hs⟩

/-- Over every run the database holds exactly the records of the inserts the workers have
completed: worker `j`'s first `inserted` iterations, each key with the string its iteration
formatted. -/
theorem db_records_exact (hs : Reachable s) (key record : List Char) :
    s.db key = some record ↔ ∃ j : Fin numThreads, ∃ i < (s.workers j).inserted,
      key = keyBytes (keyVal j i) ∧ record = recordBytes (valueText j i) := by
  have hdb := (inv_of_reachable hs).db
  constructor
  · intro hk
    obtain ⟨j, i, hi, rfl⟩ := hdb.2 key (by simp [hk])
    exact ⟨j, i, hi, rfl, Option.some_injective _ (hk.symm.trans (hdb.1 j i hi))⟩
  · rintro ⟨j, i, hi, rfl, rfl⟩
    exact hdb.1 j i hi

theorem db_records_exact_first_insert :
    ∃ s, Reachable s ∧ (s.workers 0).inserted = 1 ∧
      (∀ key record, s.db key = some record ↔ ∃ j : Fin numThreads, ∃ i < (s.workers j).inserted,
        key = keyBytes (keyVal j i) ∧ record = recordBytes (valueText j i)) ∧
      s.db (keyBytes (keyVal 0 0)) = some (recordBytes (valueText 0 0)) := by
  obtain ⟨s, hs, -, -, hl⟩ := reachable_first_read
  have hi : (s.workers 0).inserted = 1 := by rw [Worker.inserted, hl]
  have hdb := db_records_exact hs
  exact ⟨s, hs, hi, hdb, (hdb _ _).mpr ⟨0, 0, by rw [hi]; exact one_pos, rfl, rfl⟩⟩

/-- Every insert finds its key new and succeeds, never with `UPS_DUPLICATE_KEY`, and every read
finds the key its iteration inserted and leaves that iteration's string in `read_buffer`, so
no reachable state takes `error_handler`'s exit. -/
theorem reads_own_writes (hs : Reachable s) (j : Fin numThreads) (i : ℕ) :
    (s.pc j = .holding .insert i →
      (insertWithLock s.db (keyVal j i) (valueText j i)).1 = .success) ∧
    (s.pc j = .holding .read i →
      readWithLock s.db (keyVal j i) readBufferSize = (.success, valueText j i)) := by
  have hI := inv_of_reachable hs
  constructor
  · intro hp
    obtain ⟨hn, hi⟩ := (hI.agrees_of_pc hp).inserted_holding
    exact (dbHolds_insert hI.db (fun k => (hI.agrees k).inserted_le) hn hi).1
  · intro hp
    obtain ⟨hn, -⟩ := (hI.agrees_of_pc hp).inserted_holding
    exact readWithLock_of_stored (hI.db.1 j i (by simp [hn, Call.before]))

theorem reads_own_writes_first_read :
    ∃ s, Reachable s ∧ s.pc 0 = .holding .read 0 ∧
      ((s.pc 0 = .holding .insert 0 →
        (insertWithLock s.db (keyVal 0 0) (valueText 0 0)).1 = .success) ∧
      (s.pc 0 = .holding .read 0 →
        readWithLock s.db (keyVal 0 0) readBufferSize = (.success, valueText 0 0))) ∧
      readWithLock s.db (keyVal 0 0) readBufferSize = (.success, valueText 0 0) := by
  obtain ⟨s, hs, hp, -⟩ := reachable_first_read
  have h := reads_own_writes hs 0 0
  exact ⟨s, hs, hp, h, h.2 hp⟩

/-- Once every worker has returned, each reported `lock_acquires` is even and at most
`2 * NUM_OPERATIONS`, and the summary's `total_acquires` is twice the number of records in the
database. -/
theorem totalAcquires_twice_records (hs : Reachable s) (hdone : ∀ j, s.pc j = .done) :
    (∀ j, (s.workers j).reported % 2 = 0 ∧ (s.workers j).reported ≤ 2 * numOperations) ∧
      ∃ keys : Finset (List Char), (∀ key, key ∈ keys ↔ (s.db key).isSome) ∧
        totalAcquires s = 2 * keys.card := by
  have hI := inv_of_reachable hs
  have hj : ∀ j, (s.workers j).reported = (s.workers j).lockAcquires ∧
      (s.workers j).lockAcquires % 2 = 0 ∧ (s.workers j).lockAcquires ≤ 2 * numOperations :=
    fun j => by simpa [hdone j, Agrees] using hI.agrees j
  refine ⟨fun j => (hj j).1 ▸ (hj j).2, ?_⟩
  let S := Finset.univ.sigma fun j : Fin numThreads => Finset.range (s.workers j).inserted
  have hS : ∀ {j i}, (⟨j, i⟩ : (_ : Fin numThreads) × ℕ) ∈ S ↔ i < (s.workers j).inserted := by
    simp [S]
  refine ⟨S.image fun p => keyBytes (keyVal p.1 p.2), fun key => ?_, ?_⟩
  · rw [Finset.mem_image]
    constructor
    · rintro ⟨⟨j, i⟩, hp, rfl⟩
      simp [hI.db.1 j i (hS.mp hp)]
    · intro hk
      obtain ⟨j, i, hi, rfl⟩ := hI.db.2 key hk
      exact ⟨⟨j, i⟩, hS.mpr hi, rfl⟩
  · have hle := fun k => (hI.agrees k).inserted_le
    rw [Finset.card_image_of_injOn, Finset.card_sigma, totalAcquires, Finset.mul_sum]
    · refine Finset.sum_congr rfl fun j _ => ?_
      simp only [Finset.card_range, Worker.inserted, (hj j).1]
      have := (hj j).2.1
      omega
    · rintro ⟨j, i⟩ hp ⟨j', i'⟩ hp' he
      dsimp only at he
      have hi := hS.mp hp
      have hi' := hS.mp hp'
      have := hle j
      have := hle j'
      unfold numOperations at *
      obtain ⟨h1, h2⟩ := keyBytes_keyVal_inj j.isLt j'.isLt (by omega) (by omega) he
      exact Sigma.ext (Fin.ext h1) (heq_of_eq h2)

/-- Worker `0` completes one iteration and returns at its next poll after `main` raises the flag;
the others fail their `setpriority` and return at once. -/
theorem totalAcquires_twice_records_one_iteration :
    ∃ s, (Reachable s ∧ ∀ j, s.pc j = .done) ∧ totalAcquires s = 2 ∧
      (∀ j, (s.workers j).reported % 2 = 0 ∧ (s.workers j).reported ≤ 2 * numOperations) ∧
      ∃ keys : Finset (List Char), (∀ key, key ∈ keys ↔ (s.db key).isSome) ∧
        totalAcquires s = 2 * keys.card := by
  have r₁ := (Reachable.init mainState_initial).step (.setup 0 true) rfl
  have r₂ := r₁.step (.poll 0) rfl
  have r₃ := r₂.step (.acquire 0) rfl
  have r₄ := r₃.step (.release 0) rfl
  have r₅ := r₄.step (.acquire 0) rfl
  have r₆ := r₅.step (.release 0) rfl
  have r₇ := r₆.step .stop rfl
  have r₈ := r₇.step (.poll 0) rfl
  have r₉ := r₈.step (.setup 1 false) rfl
  have r₁₀ := r₉.step (.setup 2 false) rfl
  have r₁₁ := r₁₀.step (.setup 3 false) rfl
  refine ⟨_, ⟨r₁₁, fun j => ?_⟩, ?_, totalAcquires_twice_records r₁₁ fun j => ?_⟩
  · revert j; decide
  · decide
  · revert j; decide

/-- Every run of the sample ends with all workers returned, whatever the schedule and whenever
`main` raises the flag: each step lowers the steps left, and while some worker has not returned
one of the workers can move. So `main`'s joins return. -/
theorem runs_end (hs : Reachable s) :
    (∀ a t, Sample.step s a = some t → t.stepsLeft < s.stepsLeft) ∧
      ((∃ j, s.pc j ≠ .done) → ∃ a t, a ≠ .stop ∧ Sample.step s a = some t) :=
  ⟨fun _ _ ha => (inv_of_reachable hs).stepsLeft_lt ha,
    fun ⟨_, hj⟩ => (inv_of_reachable hs).exists_step hj⟩

theorem runs_end_first_read :
    ∃ s, Reachable s ∧ s.pc 0 = .holding .read 0 ∧
      ((∀ a t, Sample.step s a = some t → t.stepsLeft < s.stepsLeft) ∧
        ((∃ j, s.pc j ≠ .done) → ∃ a t, a ≠ .stop ∧ Sample.step s a = some t)) ∧
      ∃ a t, a ≠ .stop ∧ Sample.step s a = some t := by
  obtain ⟨s, hs, hp, -⟩ := reachable_first_read
  have h := runs_end hs
  exact ⟨s, hs, hp, h, h.2 ⟨0, by simp [hp]⟩⟩

end Runs

end Hscl.Sample
