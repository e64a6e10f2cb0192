import Hscl.Run.Local

/-! `worker_thread` of `upscale_mutex.c`, with `acquire_lock`'s hierarchy tracking. -/
namespace Hscl.Mutex
open Run

/-- `thread_hierarchy_t`: `HIERARCHY_CRITICAL = 0` is the highest level, `HIERARCHY_BACKGROUND = 4`
the lowest. -/
abbrev HierarchyLevel := Fin 5

/-- `lock_type_t`. -/
inductive LockType
  | mutex
  | spin
  | rwlock
  | adaptiveMutex
  deriving DecidableEq, Repr

/-- The global lock objects `global_mutex`, `global_spinlock`, `global_rwlock` (taken as
writer) and `global_adaptive_mutex`. -/
inductive Primitive
  | globalMutex
  | globalSpinlock
  | globalRwlock
  | globalAdaptiveMutex
  deriving DecidableEq, Repr

/-- The object `acquire_lock`'s `switch (current_lock_type)` locks. -/
def acquireLockPrimitive : LockType → Primitive
  | .mutex => .globalMutex
  | .spin => .globalSpinlock
  | .rwlock => .globalRwlock
  | .adaptiveMutex => .globalAdaptiveMutex

/-- The object `release_lock`'s `switch (current_lock_type)` unlocks. -/
def releaseLockPrimitive : LockType → Primitive
  | .mutex => .globalMutex
  | .spin => .globalSpinlock
  | .rwlock => .globalRwlock
  | .adaptiveMutex => .globalAdaptiveMutex

theorem releaseLockPrimitive_eq (type : LockType) :
    releaseLockPrimitive type = acquireLockPrimitive type := by
  cases type <;> rfl

/-- `init_lock`'s choice for `(lock_type_t)atoi(argv[6])`: `none` is `"Unknown lock type"`,
after which `main` exits before starting any worker. -/
def initLock : ℤ → Option LockType
  | 0 => some .mutex
  | 1 => some .spin
  | 2 => some .rwlock
  | 3 => some .adaptiveMutex
  | _ => none

/-- `lock_type = argc > 6 ? (lock_type_t)atoi(argv[6]) : LOCK_MUTEX`. -/
def lockTypeArg (a : Args) : ℤ := if a.argc > 6 then a.selectorArg else 0

/-- The usage line of `upscale_mutex`, after the program name. -/
def usage : String :=
  "<num_threads> <duration_seconds> <db_file> [insert_ratio] [find_ratio] [lock_type]"

/-- `main` up to `init_lock`: the launch configuration and the lock type, or the message it
exits with. -/
def main (a : Args) : Except String (Launch × LockType) :=
  (parseArgs usage a).bind fun l =>
    match initLock (lockTypeArg a) with
    | some type => .ok (l, type)
    | none => .error "Unknown lock type"

theorem main_ok_iff {a : Args} :
    (∃ l, main a = .ok l) ↔
      (4 ≤ a.argc ∧ 1 ≤ a.numThreads ∧ a.numThreads ≤ maxThreads ∧
        Dbl.le (ratioSum a.insertRatio a.findRatio) (.num 1)) ∧ (initLock (lockTypeArg a)).isSome := by
  unfold main
  rcases h : parseArgs usage a with e | l
  · simp only [Except.bind, reduceCtorEq, exists_false, false_iff, not_and]
    exact fun hc => absurd (parseArgs_ok_iff.mpr ⟨hc, rfl⟩) (by rw [h]; simp)
  · have hc := (parseArgs_ok_iff.mp h).1
    rcases initLock (lockTypeArg a) with _ | type <;> simp [Except.bind, hc]

/-- A row of `hierarchy_config[]`; the scheduling policy and work intensity only reach the OS
and `simulate_work`. -/
structure LevelConfig where
  name : String
  systemPriority : ℤ
  niceValue : ℤ

/-- `hierarchy_config[]`. -/
def hierarchyConfig : HierarchyLevel → LevelConfig
  | 0 => ⟨"CRITICAL", 50, -20⟩
  | 1 => ⟨"HIGH", 30, -10⟩
  | 2 => ⟨"NORMAL", 0, 0⟩
  | 3 => ⟨"LOW", 0, 5⟩
  | 4 => ⟨"BACKGROUND", 0, 19⟩

/-- `current_lock_type` and the shared tracking `acquire_lock` updates. -/
structure Tracking where
  currentLockType : LockType
  lastThreadId : ℤ
  lastHierarchy : HierarchyLevel
  consecutiveSameThread : ℕ
  consecutiveSameHierarchy : ℕ
  hierarchySwitches : ℕ
  deriving DecidableEq, Repr

/-- The tracking as the static initialisers and `init_lock` leave it. -/
def Tracking.init (type : LockType) : Tracking := ⟨type, -1, 4, 0, 0, 0⟩

/-- The fields of this harness's `thread_config_t` beyond the shared ones. -/
structure Ext where
  hierarchyLevel : HierarchyLevel
  hierarchyName : String
  systemPriority : ℤ
  niceValue : ℤ
  maxConsecutiveAcquisitions : ℕ
  starvationPeriods : ℕ
  maxStarvationTime : ℕ
  lastLockTime : ℕ
  dominatedLowerThreads : ℕ
  starvedByHigher : ℕ
  deriving DecidableEq, Repr

/-- What `setup_thread_hierarchy` records; it never fails the worker. -/
def setupThreadHierarchy (e : Ext) : Ext :=
  let level := hierarchyConfig e.hierarchyLevel
  { e with
    systemPriority := if level.systemPriority > 0 then level.systemPriority else 0
    niceValue := level.niceValue
    hierarchyName := level.name }

/-- The starvation check at the start of `acquire_lock`'s bookkeeping: more than 100 ms since
the caller's previous acquisition counts a starvation period. -/
def checkStarvation (now : ℕ) (e : Ext) : Ext :=
  let e' :=
    if e.lastLockTime > 0 then
      let since := subU64 now e.lastLockTime
      { e with
        maxStarvationTime := max e.maxStarvationTime since
        starvationPeriods :=
          if since > 100 * cyclePerUs * 1000 then e.starvationPeriods + 1 else e.starvationPeriods }
    else e
  { e' with lastLockTime := now }

/-- The dominance counts of the caller when the previous holder was another thread. -/
def countDominance (lastHierarchy : HierarchyLevel) (e : Ext) : Ext :=
  if e.hierarchyLevel < lastHierarchy then
    { e with dominatedLowerThreads := e.dominatedLowerThreads + 1 }
  else if e.hierarchyLevel > lastHierarchy then
    { e with starvedByHigher := e.starvedByHigher + 1 }
  else e

/-- The shared tracking and the caller's record after `acquire_lock` holds the lock. -/
def trackAcquisition (g : Tracking) (threadId : ℕ) (e : Ext) : Tracking × Ext :=
  if g.lastThreadId = threadId then
    ({ g with consecutiveSameThread := g.consecutiveSameThread + 1 }, e)
  else
    let g' :=
      if g.lastThreadId ≥ 0 then
        if g.lastHierarchy ≠ e.hierarchyLevel then
          { g with
            hierarchySwitches := g.hierarchySwitches + 1
            consecutiveSameHierarchy := 1 }
        else { g with consecutiveSameHierarchy := g.consecutiveSameHierarchy + 1 }
      else g
    let e' := if g.lastThreadId ≥ 0 then countDominance g.lastHierarchy e else e
    ({ g' with
        consecutiveSameThread := 1
        lastThreadId := threadId
        lastHierarchy := e.hierarchyLevel }, e')

/-- `acquire_lock` once the lock object is held, then `worker_thread`'s update of
`max_consecutive_acquisitions` from the shared `consecutive_same_thread`. -/
def enterLock (g : Tracking) (threadId now : ℕ) (e : Ext) : Tracking × Ext :=
  let ge := trackAcquisition g threadId (checkStarvation now e)
  (ge.1, { ge.2 with
    maxConsecutiveAcquisitions := max ge.2.maxConsecutiveAcquisitions ge.1.consecutiveSameThread })

@[simp] theorem trackAcquisition_currentLockType (g : Tracking) (threadId : ℕ) (e : Ext) :
    (trackAcquisition g threadId e).1.currentLockType = g.currentLockType := by
  unfold trackAcquisition; split_ifs <;> rfl

/-- `worker_thread` of `upscale_mutex.c`. -/
def harness : Harness Primitive Tracking Ext where
  acquirePrim g := acquireLockPrimitive g.currentLockType
  releasePrim g := releaseLockPrimitive g.currentLockType
  setup _ _ e := some (setupThreadHierarchy e)
  loopHead _ _ _ e := e
  enter := enterLock
  afterRelease _ _ _ _ e := e
  start g := g = Tracking.init g.currentLockType
  initial _ c := c.ext.hierarchyLevel = (c.threadId : HierarchyLevel) ∧ c.ext.maxConsecutiveAcquisitions = 0 ∧
    c.ext.starvationPeriods = 0 ∧ c.ext.maxStarvationTime = 0 ∧ c.ext.lastLockTime = 0 ∧
    c.ext.dominatedLowerThreads = 0 ∧ c.ext.starvedByHigher = 0
  release_eq _ := releaseLockPrimitive_eq _
  enter_prim g _ _ _ := by simp [enterLock]

/-- `main`'s record for worker `i`: level `i % 5` and zeroed counters; the name, priority and nice
value are left for `setup_thread_hierarchy`. -/
def threadRecord (i : ℕ) : Ext := ⟨(i : HierarchyLevel), "", 0, 0, 0, 0, 0, 0, 0, 0⟩

/-- The state `main` starts `n` workers in once `init_lock` has chosen `type`. -/
def mainState (n : ℕ) (type : LockType) (insertRatio findRatio : ℚ) :
    State n Primitive Tracking Ext :=
  Run.mainState n (Tracking.init type) insertRatio findRatio threadRecord

theorem mainState_initial (n : ℕ) (type : LockType) (insertRatio findRatio : ℚ) :
    Initial harness (mainState n type insertRatio findRatio) :=
  Run.mainState_initial rfl fun _ _ => ⟨rfl, rfl, rfl, rfl, rfl, rfl, rfl⟩

end Hscl.Mutex
