import Hscl.Harness.Store

/-! `upscaledb_hscl_test.c`: workers that insert a key and read it back under one hfairlock. -/
namespace Hscl.Sample

/-- `NUM_THREADS`. -/
def numThreads : ℕ := 4

instance : NeZero numThreads := ⟨by decide⟩

/-- `NUM_OPERATIONS`, every worker's `num_operations`. -/
def numOperations : ℕ := 1000

/-- `sizeof(read_buffer)`, the `buffer_size` of `read_with_lock`. -/
def readBufferSize : ℕ := 100

/-- The terminator `'\0'`. -/
def nul : Char := Char.ofNat 0

/-- `key_val = (thread_id * 10000) + i`, an `int`. -/
def keyVal (threadId i : ℕ) : ℤ := int32 (threadId * 10000 + i)

/-- The bytes of `key`: `key.data = &key_val` and `key.size = sizeof(key_val)`, least significant
byte first. -/
def keyBytes (keyVal : ℤ) : List Char :=
  let u := (keyVal % 2 ^ 32).toNat
  [u % 2 ^ 8, u / 2 ^ 8 % 2 ^ 8, u / 2 ^ 16 % 2 ^ 8, u / 2 ^ 24 % 2 ^ 8].map Char.ofNat

/-- `value_buffer` after `snprintf(value_buffer, sizeof(value_buffer),
"Value from thread %d, operation %d", data->thread_id, i)`. -/
def valueText (threadId i : ℕ) : List Char :=
  ("Value from thread ".toList ++ formatInt 1 threadId ++ ", operation ".toList ++
    formatInt 1 i).take 99

/-- The bytes of `record`: `record.data = value_str` and `record.size = strlen(value_str) + 1`. -/
def recordBytes (valueStr : List Char) : List Char := valueStr ++ [nul]

/-- The string in `buffer` after `strncpy(buffer, data, buffer_size)` and
`buffer[buffer_size - 1] = '\0'`. -/
def copyString (bufferSize : ℕ) (data : List Char) : List Char :=
  (data.takeWhile fun c => c != nul).take (bufferSize - 1)

/-- The database call of `insert_with_lock`: `ups_db_insert` with flags `0`. A status other than
success or `UPS_DUPLICATE_KEY` would end the process in `error_handler`; `ups_db_insert` returns
no other. -/
def insertWithLock (db : Store) (keyVal : ℤ) (valueStr : List Char) : Status × Store :=
  upsDbInsert db (keyBytes keyVal) (recordBytes valueStr) false

/-- The database call of `read_with_lock` and what it leaves in `buffer`: the found record's
string, or the empty string (`buffer[0] = '\0'`) when the key is not found. -/
def readWithLock (db : Store) (keyVal : ℤ) (bufferSize : ℕ) : Status × List Char :=
  match upsDbFind db (keyBytes keyVal) [] with
  | (.success, found) => (.success, copyString bufferSize found)
  | (st, _) => (st, [])

/-- The two functions a worker takes the lock in. -/
inductive Call
  | insert
  | read
  deriving DecidableEq, Repr

/-- Where a worker is in `worker_thread`. -/
inductive Pc
  /-- before `setpriority` -/
  | start
  /-- at the `for` test of iteration `i` -/
  | head (i : ℕ)
  /-- in the call of iteration `i`, waiting in `hfairlock_acquire` -/
  | waiting (c : Call) (i : ℕ)
  /-- in the call of iteration `i`, holding the lock -/
  | holding (c : Call) (i : ℕ)
  /-- returned -/
  | done
  deriving DecidableEq, Repr

/-- Whether a worker at this point holds the lock. -/
def Pc.holds : Pc → Bool
  | .holding _ _ => true
  | _ => false

/-- A worker's loop locals, and the `lock_acquires` field of its `thread_data_t`. -/
structure Worker where
  /-- the local `lock_acquires` -/
  lockAcquires : ℕ
  /-- the string in `read_buffer` -/
  readBuffer : List Char
  /-- `data->lock_acquires`: `main` sets it to `0`, the worker to its count before it returns -/
  reported : ℕ
  deriving DecidableEq, Repr

/-- The program's state: each worker's point and locals, the lock, `stop_flag` and the
database. -/
structure State where
  pc : Fin numThreads → Pc
  workers : Fin numThreads → Worker
  /-- the worker holding `hfair_lock` -/
  holder : Option (Fin numThreads)
  /-- `stop_flag` -/
  stop : Bool
  /-- the database `ups_env_create_db` created -/
  db : Store

/-- Worker `j` moves to `q` with locals `w`. -/
def State.setWorker (s : State) (j : Fin numThreads) (q : Pc) (w : Worker) : State :=
  { s with pc := Function.update s.pc j q, workers := Function.update s.workers j w }

/-- What one step of the program does. -/
inductive Action
  /-- worker `j`'s `setpriority`, which fails without the privilege to lower its nice value -/
  | setup (j : Fin numThreads) (ok : Bool)
  /-- worker `j`'s `for` test; on exit it writes `data->lock_acquires` and returns -/
  | poll (j : Fin numThreads)
  /-- worker `j`'s `hfairlock_acquire` -/
  | acquire (j : Fin numThreads)
  /-- worker `j`'s database call, the spin and `hfairlock_release`, then `lock_acquires++` -/
  | release (j : Fin numThreads)
  /-- `main`'s one write `stop_flag = 1` -/
  | stop

/-- One step, `none` when the action is not enabled. -/
def step (s : State) : Action → Option State
  | .setup j ok =>
    match s.pc j with
    | .start => some (s.setWorker j (if ok then .head 0 else .done) (s.workers j))
    | _ => none
  | .poll j =>
    match s.pc j with
    | .head i =>
      if i < numOperations ∧ s.stop = false then
        some (s.setWorker j (.waiting .insert i) (s.workers j))
      else some (s.setWorker j .done { s.workers j with reported := (s.workers j).lockAcquires })
    | _ => none
  | .acquire j =>
    match s.pc j, s.holder with
    | .waiting c i, none => some { s.setWorker j (.holding c i) (s.workers j) with holder := some j }
    | _, _ => none
  | .release j =>
    match s.pc j with
    | .holding .insert i =>
      let w := s.workers j
      some { s.setWorker j (.waiting .read i) { w with lockAcquires := w.lockAcquires + 1 } with
        holder := none
        db := (insertWithLock s.db (keyVal j i) (valueText j i)).2 }
    | .holding .read i =>
      let w := s.workers j
      some { s.setWorker j (.head (i + 1))
          { w with
            lockAcquires := w.lockAcquires + 1
            readBuffer := (readWithLock s.db (keyVal j i) readBufferSize).2 } with
        holder := none }
    | _ => none
  | .stop => if s.stop then none else some { s with stop := true }

/-- `main` as it starts the workers: every `lock_acquires` is `0`, the lock is free, the flag
down and the database empty. `read_buffer` is not initialised. -/
structure Initial (s : State) : Prop where
  pc : ∀ j, s.pc j = .start
  lockAcquires : ∀ j, (s.workers j).lockAcquires = 0
  reported : ∀ j, (s.workers j).reported = 0
  holder : s.holder = none
  stop : s.stop = false
  db : s.db = Store.empty

/-- A start, with an empty `read_buffer`. -/
def mainState : State where
  pc _ := .start
  workers _ := ⟨0, [], 0⟩
  holder := none
  stop := false
  db := Store.empty

theorem mainState_initial : Initial mainState :=
  ⟨fun _ => rfl, fun _ => rfl, fun _ => rfl, rfl, rfl, rfl⟩

/-- The states some interleaving reaches from a start. -/
inductive Reachable : State → Prop
  | init {s} : Initial s → Reachable s
  | step {s t} (a : Action) : Reachable s → step s a = some t → Reachable t

/-- The summary's `total_acquires`, over the `lock_acquires` the workers reported. -/
def totalAcquires (s : State) : ℕ := ∑ j, (s.workers j).reported

section Lemmas
variable {s t : State} {j k : Fin numThreads} {q : Pc} {w : Worker}

@[simp] theorem setWorker_pc_self : (s.setWorker j q w).pc j = q := by simp [State.setWorker]

@[simp] theorem setWorker_workers_self : (s.setWorker j q w).workers j = w := by
  simp [State.setWorker]

theorem setWorker_pc_ne (hk : k ≠ j) : (s.setWorker j q w).pc k = s.pc k := by
  simp [State.setWorker, hk]

theorem setWorker_workers_ne (hk : k ≠ j) : (s.setWorker j q w).workers k = s.workers k := by
  simp [State.setWorker, hk]

@[simp] theorem setWorker_holder : (s.setWorker j q w).holder = s.holder := rfl

@[simp] theorem setWorker_stop : (s.setWorker j q w).stop = s.stop := rfl

@[simp] theorem setWorker_db : (s.setWorker j q w).db = s.db := rfl

theorem step_setup {ok : Bool} : step s (.setup j ok) = some t ↔
    s.pc j = .start ∧ t = s.setWorker j (if ok then .head 0 else .done) (s.workers j) := by
  cases hp : s.pc j <;> simp [step, hp, eq_comm]

theorem step_poll : step s (.poll j) = some t ↔ ∃ i, s.pc j = .head i ∧
    t = if i < numOperations ∧ s.stop = false then s.setWorker j (.waiting .insert i) (s.workers j)
      else s.setWorker j .done { s.workers j with reported := (s.workers j).lockAcquires } := by
  cases hp : s.pc j <;> simp only [step, hp, reduceCtorEq, false_and, exists_false,
    Pc.head.injEq, exists_eq_left', Option.some.injEq]
  · split_ifs <;> simp [eq_comm]

theorem step_acquire : step s (.acquire j) = some t ↔ ∃ c i, s.pc j = .waiting c i ∧
    s.holder = none ∧ t = { s.setWorker j (.holding c i) (s.workers j) with holder := some j } := by
  cases hp : s.pc j <;> cases hh : s.holder <;>
    simp [step, hp, hh, eq_comm, and_assoc, exists_and_left, exists_eq_left']

theorem step_release : step s (.release j) = some t ↔
    (∃ i, s.pc j = .holding .insert i ∧
      t = { s.setWorker j (.waiting .read i)
          { s.workers j with lockAcquires := (s.workers j).lockAcquires + 1 } with
        holder := none
        db := (insertWithLock s.db (keyVal j i) (valueText j i)).2 }) ∨
    (∃ i, s.pc j = .holding .read i ∧
      t = { s.setWorker j (.head (i + 1))
          { s.workers j with
            lockAcquires := (s.workers j).lockAcquires + 1
            readBuffer := (readWithLock s.db (keyVal j i) readBufferSize).2 } with
        holder := none }) := by
  rcases hp : s.pc j with _ | _ | _ | ⟨_ | _, _⟩ | _ <;> simp [step, hp, eq_comm]

theorem step_stop : step s .stop = some t ↔ s.stop = false ∧ t = { s with stop := true } := by
  cases hs : s.stop <;> simp [step, hs, eq_comm]

/-- An invariant that holds at every start and is kept by every step holds on every reachable
state. -/
theorem Reachable.invariant {I : State → Prop} (h₀ : ∀ s, Initial s → I s)
    (hstep : ∀ s t a, Reachable s → I s → Sample.step s a = some t → I t) (hs : Reachable s) : I s := by
  induction hs with
  | init hi => exact h₀ _ hi
  | step a hr ha ih => exact hstep _ _ a hr ih ha

end Lemmas

end Hscl.Sample
