import Hscl.Harness.Store

/-! A run of a harness: `num_threads` workers executing `worker_thread` in any interleaving. -/
namespace Hscl.Run

/-- Where a worker is in `worker_thread`. -/
inductive Pc
  /-- created, setup not yet run -/
  | start
  /-- at `while (!*config->stop_flag)` -/
  | head
  /-- operation chosen, lock not yet obtained -/
  | acquiring (op : OperationType)
  /-- lock obtained, the bookkeeping after the acquire not yet done -/
  | entered (op : OperationType)
  /-- lock held, the database operation not yet done -/
  | performing (op : OperationType)
  /-- lock held, operation counted, release pending -/
  | releasing
  /-- returned from `worker_thread` -/
  | done
  deriving DecidableEq, Repr

/-- Between an acquire and its matching release. -/
def Pc.holds : Pc → Bool
  | .entered _ | .performing _ | .releasing => true
  | _ => false

/-- The statistics every harness's `thread_config_t` keeps. -/
structure Counters where
  insertCount : ℕ := 0
  findCount : ℕ := 0
  updateCount : ℕ := 0
  insertTime : ℕ := 0
  findTime : ℕ := 0
  updateTime : ℕ := 0
  lockWaitTime : ℕ := 0
  totalOperations : ℕ := 0
  lockAcquisitions : ℕ := 0
  deriving DecidableEq, Repr

/-- The `switch (op_type)` after the acquire: time and count of the operation, then
`total_operations++`. -/
def Counters.record (c : Counters) (op : OperationType) (elapsed : ℕ) : Counters :=
  match op with
  | .insert =>
    { c with
      insertTime := c.insertTime + elapsed
      insertCount := c.insertCount + 1
      totalOperations := c.totalOperations + 1 }
  | .find =>
    { c with
      findTime := c.findTime + elapsed
      findCount := c.findCount + 1
      totalOperations := c.totalOperations + 1 }
  | .update =>
    { c with
      updateTime := c.updateTime + elapsed
      updateCount := c.updateCount + 1
      totalOperations := c.totalOperations + 1 }

@[simp] theorem Counters.record_lockAcquisitions (c : Counters) (op : OperationType) (e : ℕ) :
    (c.record op e).lockAcquisitions = c.lockAcquisitions := by cases op <;> rfl

@[simp] theorem Counters.record_lockWaitTime (c : Counters) (op : OperationType) (e : ℕ) :
    (c.record op e).lockWaitTime = c.lockWaitTime := by cases op <;> rfl

@[simp] theorem Counters.record_totalOperations (c : Counters) (op : OperationType) (e : ℕ) :
    (c.record op e).totalOperations = c.totalOperations + 1 := by cases op <;> rfl

theorem Counters.record_counts (c : Counters) (op : OperationType) (e : ℕ) :
    (c.record op e).insertCount + (c.record op e).findCount + (c.record op e).updateCount =
      c.insertCount + c.findCount + c.updateCount + 1 := by
  cases op <;> simp only [Counters.record] <;> omega

/-- The check after `hfairlock_release` in the two fair-lock harnesses: a clock reading past
the slice end the release returned counts one slice violation. -/
def countSliceViolation (sliceEnd now sliceViolations : ℕ) : ℕ :=
  if now > sliceEnd then sliceViolations + 1 else sliceViolations

theorem countSliceViolation_le (sliceEnd now sliceViolations : ℕ) :
    countSliceViolation sliceEnd now sliceViolations ≤ sliceViolations + 1 := by
  unfold countSliceViolation; split_ifs <;> omega

/-- A worker's `thread_config_t`: the fields every harness has, and its own in `ext`. -/
structure ThreadConfig (ε : Type) where
  threadId : ℕ
  insertRatio : ℚ
  findRatio : ℚ
  stats : Counters
  ext : ε

/-- What one harness's `worker_thread` does beyond the common loop. `P` names the lock
primitives, `G` the harness's own shared globals. -/
structure Harness (P G ε : Type) where
  /-- the primitive the acquire takes -/
  acquirePrim : G → P
  /-- the primitive the release gives back -/
  releasePrim : G → P
  /-- setup before the loop; `none` when the worker returns before it, `ok` is false when
  `setpriority` fails with an error the harness does not tolerate -/
  setup : G → Bool → ε → Option ε
  /-- loop-body work before the operation choice, with two clock readings -/
  loopHead : G → ℕ → ℕ → ε → ε
  /-- bookkeeping once the lock is held, with the worker's id and a clock reading -/
  enter : G → ℕ → ℕ → ε → G × ε
  /-- bookkeeping after the release, with the slice end it returned, a clock reading and the
  counters as they stand -/
  afterRelease : G → ℕ → ℕ → Counters → ε → ε
  /-- the harness's globals when `main` starts the workers -/
  start : G → Prop
  /-- a worker's record when `main` starts the workers -/
  initial : G → ThreadConfig ε → Prop
  release_eq : ∀ g, releasePrim g = acquirePrim g
  enter_prim : ∀ g id now e, acquirePrim (enter g id now e).1 = acquirePrim g

/-- The nondeterministic inputs of a database operation. -/
structure OpInput where
  /-- `rand()` for the key id of a find or update -/
  r₁ : ℕ
  /-- `rand()` for the target thread of a find or update -/
  r₂ : ℕ
  /-- the `rand()` values `generate_data` consumes -/
  rands : List ℕ
  /-- the rdtsc difference the operation returns -/
  elapsed : ℕ

/-- The shared state of a run. -/
structure State (n : ℕ) (P G ε : Type) where
  pc : Fin n → Pc
  threads : Fin n → ThreadConfig ε
  held : P → Option (Fin n)
  stop : Bool
  nextKeyId : ℤ
  db : Store
  globals : G
  /-- the thread id and key id of each `perform_insert`, in order (a history variable) -/
  inserts : List (ℕ × ℤ)
  /-- the workers in the order they obtained the lock (a history variable) -/
  acquisitions : List (Fin n)

/-- One atomic step: a worker's, with its nondeterministic inputs, or `main` raising the flag. -/
inductive Action (n : ℕ)
  | setup (i : Fin n) (ok : Bool)
  | poll (i : Fin n) (r now₁ now₂ : ℕ)
  | acquire (i : Fin n)
  | enter (i : Fin n) (waited now : ℕ)
  | perform (i : Fin n) (input : OpInput)
  | release (i : Fin n) (sliceEnd now : ℕ)
  | stop

/-- The worker taking an action. -/
def Action.worker {n : ℕ} : Action n → Option (Fin n)
  | .setup i _ | .poll i _ _ _ | .acquire i | .enter i _ _ | .perform i _ | .release i _ _ => some i
  | .stop => none

variable {n : ℕ} {P G ε : Type}

/-- The worker `i`'s `thread_config_t` and program counter after one of its steps. -/
def State.setWorker (s : State n P G ε) (i : Fin n) (pc : Pc) (t : ThreadConfig ε) :
    State n P G ε :=
  { s with pc := Function.update s.pc i pc, threads := Function.update s.threads i t }

/-- What `perform_insert`, `perform_find` and `perform_update` return: the rdtsc difference, or
`0` from the early return of a find or an update before any key exists. -/
def operationTime (op : OperationType) (nextKeyId : ℤ) (elapsed : ℕ) : ℕ :=
  match op with
  | .insert => elapsed
  | .find | .update => if nextKeyId ≤ 1 then 0 else elapsed

/-- A database operation run by worker `i` under the lock. -/
def perform (s : State n P G ε) (i : Fin n) (op : OperationType) (inp : OpInput) :
    State n P G ε :=
  let t := s.threads i
  match op with
  | .insert =>
    { s.setWorker i .releasing
        { t with stats := t.stats.record .insert (operationTime .insert s.nextKeyId inp.elapsed) } with
      nextKeyId := int32 (s.nextKeyId + 1)
      db := (performInsert s.db t.threadId s.nextKeyId inp.rands).2
      inserts := s.inserts ++ [(t.threadId, s.nextKeyId)] }
  | .find =>
    s.setWorker i .releasing
      { t with stats := t.stats.record .find (operationTime .find s.nextKeyId inp.elapsed) }
  | .update =>
    { s.setWorker i .releasing
        { t with stats := t.stats.record .update (operationTime .update s.nextKeyId inp.elapsed) } with
      db := (performUpdate s.db s.nextKeyId inp.r₁ inp.r₂ inp.rands).2 }

variable [DecidableEq P] in
/-- One step of a run, `none` when the action is not enabled. `rand()` returns at most
`randMax`. -/
def step (h : Harness P G ε) (randMax : ℕ) (s : State n P G ε) : Action n → Option (State n P G ε)
  | .setup i ok =>
    match s.pc i with
    | .start =>
      match h.setup s.globals ok (s.threads i).ext with
      | some e => some (s.setWorker i .head { s.threads i with ext := e })
      | none => some (s.setWorker i .done (s.threads i))
    | _ => none
  | .poll i r now₁ now₂ =>
    match s.pc i with
    | .head =>
      if r ≤ randMax then
        if s.stop then some (s.setWorker i .done (s.threads i))
        else
          let t := s.threads i
          some (s.setWorker i (.acquiring (selectOperation t.insertRatio t.findRatio (opRand randMax r)))
            { t with ext := h.loopHead s.globals now₁ now₂ t.ext })
      else none
    | _ => none
  | .acquire i =>
    match s.pc i with
    | .acquiring op =>
      if s.held (h.acquirePrim s.globals) = none then
        some { s.setWorker i (.entered op) (s.threads i) with
          held := Function.update s.held (h.acquirePrim s.globals) (some i)
          acquisitions := s.acquisitions ++ [i] }
      else none
    | _ => none
  | .enter i waited now =>
    match s.pc i with
    | .entered op =>
      let t := s.threads i
      let ge := h.enter s.globals t.threadId now t.ext
      some { s.setWorker i (.performing op)
          { t with
            stats := { t.stats with lockWaitTime := t.stats.lockWaitTime + waited,
                                    lockAcquisitions := t.stats.lockAcquisitions + 1 }
            ext := ge.2 } with
        globals := ge.1 }
    | _ => none
  | .perform i inp =>
    match s.pc i with
    | .performing op => some (perform s i op inp)
    | _ => none
  | .release i sliceEnd now =>
    match s.pc i with
    | .releasing =>
      let t := s.threads i
      some { s.setWorker i .head
          { t with ext := h.afterRelease s.globals sliceEnd now t.stats t.ext } with
        held := Function.update s.held (h.releasePrim s.globals) none }
    | _ => none
  | .stop => some { s with stop := true }

/-- A state as `main` leaves it when it starts the workers. -/
structure Initial (h : Harness P G ε) (s : State n P G ε) : Prop where
  pc : ∀ i, s.pc i = .start
  stats : ∀ i, (s.threads i).stats = {}
  held : ∀ p, s.held p = none
  stop : s.stop = false
  nextKeyId : s.nextKeyId = 1
  threadId : ∀ i, (s.threads i).threadId = i
  inserts : s.inserts = []
  acquisitions : s.acquisitions = []
  globals : h.start s.globals
  harness : ∀ i, h.initial s.globals (s.threads i)

/-- The state `main` starts `n` workers in: worker `i` has `thread_id` `i`, the command line's
ratios, zeroed statistics and the harness record `config i`; no lock is held, the database is
empty and `next_key_id` is `1`. -/
def mainState (n : ℕ) (globals : G) (insertRatio findRatio : ℚ) (config : ℕ → ε) :
    State n P G ε where
  pc _ := .start
  threads i := ⟨i, insertRatio, findRatio, {}, config i⟩
  held _ := none
  stop := false
  nextKeyId := 1
  db := Store.empty
  globals := globals
  inserts := []
  acquisitions := []

theorem mainState_initial {h : Harness P G ε} {g : G} {insertRatio findRatio : ℚ} {config : ℕ → ε} (hg : h.start g)
    (hc : ∀ i < n, h.initial g ⟨i, insertRatio, findRatio, {}, config i⟩) :
    Initial h (mainState n g insertRatio findRatio config : State n P G ε) :=
  ⟨fun _ => rfl, fun _ => rfl, fun _ => rfl, rfl, rfl, fun _ => rfl, rfl, rfl, hg,
    fun i => hc i i.isLt⟩

variable [DecidableEq P] in
/-- The states some interleaving of steps reaches from a start. -/
inductive Reachable (h : Harness P G ε) (randMax : ℕ) : State n P G ε → Prop
  | init {s} : Initial h s → Reachable h randMax s
  | step {s t} (a : Action n) : Reachable h randMax s → step h randMax s a = some t →
      Reachable h randMax t

variable {h : Harness P G ε} {randMax : ℕ} {s t : State n P G ε}

variable [DecidableEq P] in
/-- An invariant that holds initially and is kept by every step holds on every reachable state. -/
theorem Reachable.invariant {I : State n P G ε → Prop} (h₀ : ∀ s, Initial h s → I s)
    (hstep : ∀ s t a, Reachable h randMax s → I s → Hscl.Run.step h randMax s a = some t → I t)
    (hs : Reachable h randMax s) : I s := by
  induction hs with
  | init hi => exact h₀ _ hi
  | step a hr ha ih => exact hstep _ _ a hr ih ha

@[simp] theorem setWorker_pc_self (i : Fin n) (pc : Pc) (t : ThreadConfig ε) :
    (s.setWorker i pc t).pc i = pc := by simp [State.setWorker]

@[simp] theorem setWorker_threads_self (i : Fin n) (pc : Pc) (t : ThreadConfig ε) :
    (s.setWorker i pc t).threads i = t := by simp [State.setWorker]

theorem setWorker_pc_ne {i j : Fin n} (hij : j ≠ i) (pc : Pc) (t : ThreadConfig ε) :
    (s.setWorker i pc t).pc j = s.pc j := by simp [State.setWorker, hij]

theorem setWorker_threads_ne {i j : Fin n} (hij : j ≠ i) (pc : Pc) (t : ThreadConfig ε) :
    (s.setWorker i pc t).threads j = s.threads j := by simp [State.setWorker, hij]

variable {i : Fin n}

@[simp] theorem perform_pc (op : OperationType) (inp : OpInput) :
    (perform s i op inp).pc = Function.update s.pc i .releasing := by cases op <;> rfl

@[simp] theorem perform_held (op : OperationType) (inp : OpInput) :
    (perform s i op inp).held = s.held := by cases op <;> rfl

@[simp] theorem perform_globals (op : OperationType) (inp : OpInput) :
    (perform s i op inp).globals = s.globals := by cases op <;> rfl

@[simp] theorem perform_acquisitions (op : OperationType) (inp : OpInput) :
    (perform s i op inp).acquisitions = s.acquisitions := by cases op <;> rfl

@[simp] theorem perform_threads (op : OperationType) (inp : OpInput) :
    (perform s i op inp).threads = Function.update s.threads i
      { s.threads i with
        stats := (s.threads i).stats.record op (operationTime op s.nextKeyId inp.elapsed) } := by
  cases op <;> rfl

variable [DecidableEq P]

theorem step_setup {ok : Bool} : step h randMax s (.setup i ok) = some t ↔ s.pc i = .start ∧
    t = match h.setup s.globals ok (s.threads i).ext with
      | some e => s.setWorker i .head { s.threads i with ext := e }
      | none => s.setWorker i .done (s.threads i) := by
  cases hp : s.pc i <;> simp only [step, hp, reduceCtorEq, false_and]
  split <;> simp [eq_comm]

theorem step_poll {r now₁ now₂ : ℕ} : step h randMax s (.poll i r now₁ now₂) = some t ↔
    s.pc i = .head ∧ r ≤ randMax ∧
      t = if s.stop then s.setWorker i .done (s.threads i)
        else s.setWorker i (.acquiring (selectOperation (s.threads i).insertRatio
          (s.threads i).findRatio (opRand randMax r)))
          { s.threads i with ext := h.loopHead s.globals now₁ now₂ (s.threads i).ext } := by
  cases hp : s.pc i <;> simp only [step, hp, reduceCtorEq, false_and, true_and]
  split_ifs <;> simp [*, eq_comm]

theorem step_acquire : step h randMax s (.acquire i) = some t ↔
    ∃ op, s.pc i = .acquiring op ∧ s.held (h.acquirePrim s.globals) = none ∧
      t = { s.setWorker i (.entered op) (s.threads i) with
        held := Function.update s.held (h.acquirePrim s.globals) (some i)
        acquisitions := s.acquisitions ++ [i] } := by
  cases hp : s.pc i <;> simp only [step, hp, reduceCtorEq, false_and, exists_false,
    Pc.acquiring.injEq, exists_eq_left']
  split_ifs with hf
  · simp only [hf, Option.some.injEq, true_and]; exact eq_comm
  · simp [hf]

theorem step_enter {waited now : ℕ} : step h randMax s (.enter i waited now) = some t ↔
    ∃ op, s.pc i = .entered op ∧
      t = { s.setWorker i (.performing op)
          { s.threads i with
            stats := { (s.threads i).stats with
              lockWaitTime := (s.threads i).stats.lockWaitTime + waited
              lockAcquisitions := (s.threads i).stats.lockAcquisitions + 1 }
            ext := (h.enter s.globals (s.threads i).threadId now (s.threads i).ext).2 } with
        globals := (h.enter s.globals (s.threads i).threadId now (s.threads i).ext).1 } := by
  cases hp : s.pc i <;> simp [step, hp, eq_comm]

theorem step_perform {inp : OpInput} : step h randMax s (.perform i inp) = some t ↔
    ∃ op, s.pc i = .performing op ∧ t = perform s i op inp := by
  cases hp : s.pc i <;> simp [step, hp, eq_comm]

theorem step_release {sliceEnd now : ℕ} : step h randMax s (.release i sliceEnd now) = some t ↔
    s.pc i = .releasing ∧
      t = { s.setWorker i .head
          { s.threads i with
            ext := h.afterRelease s.globals sliceEnd now (s.threads i).stats (s.threads i).ext } with
        held := Function.update s.held (h.acquirePrim s.globals) none } := by
  cases hp : s.pc i <;> simp [step, hp, eq_comm, h.release_eq]

theorem step_stop : step h randMax s .stop = some t ↔ t = { s with stop := true } := by
  simp [step, eq_comm]

theorem step_globals (hg : ∀ g k now e, (h.enter g k now e).1 = g) {a : Action n}
    (hs : step h randMax s a = some t) : t.globals = s.globals := by
  cases a with
  | setup i ok => obtain ⟨-, rfl⟩ := step_setup.mp hs; split <;> rfl
  | poll i r now₁ now₂ => obtain ⟨-, -, rfl⟩ := step_poll.mp hs; split <;> rfl
  | acquire i => obtain ⟨_, -, -, rfl⟩ := step_acquire.mp hs; rfl
  | enter i waited now => obtain ⟨_, -, rfl⟩ := step_enter.mp hs; exact hg _ _ _ _
  | perform i inp => obtain ⟨_, -, rfl⟩ := step_perform.mp hs; exact perform_globals _ _
  | release i sliceEnd now => obtain ⟨-, rfl⟩ := step_release.mp hs; rfl
  | stop => rw [step_stop.mp hs]

/-- A harness whose bookkeeping keeps the globals runs with them as `main` left them. -/
theorem Reachable.start_globals (hg : ∀ g k now e, (h.enter g k now e).1 = g)
    (hs : Reachable h randMax s) : h.start s.globals :=
  hs.invariant (I := fun s => h.start s.globals) (fun _ hi => hi.globals)
    fun _ _ _ _ hI ha => by simpa only [step_globals hg ha] using hI

end Hscl.Run
