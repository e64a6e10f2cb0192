import Hscl.Harness.Binary64

/-! Constants, `int` wrap, `main`'s argument checks and the operation choice of the harnesses. -/
namespace Hscl
open Dbl

/-- `MAX_THREADS`. -/
def maxThreads : ℕ := 16
/-- `KEY_SIZE`: bytes of a key buffer, terminator included. -/
def keySize : ℕ := 16
/-- `DATA_SIZE`: bytes of a data buffer, terminator included. -/
def dataSize : ℕ := 256
/-- `CYCLE_PER_US`, the rdtsc calibration. -/
def cyclePerUs : ℕ := 2400

/-- Two's-complement wrap of an `int` result (GCC's `__sync_fetch_and_add`, unoptimised `*`). -/
def int32 (z : ℤ) : ℤ := (z + 2 ^ 31) % 2 ^ 32 - 2 ^ 31

theorem int32_of_mem {z : ℤ} (h1 : -2 ^ 31 ≤ z) (h2 : z < 2 ^ 31) : int32 z = z := by
  unfold int32
  rw [Int.emod_eq_of_lt (by omega) (by omega)]
  omega

/-- `unsigned long long` subtraction `a - b` of two clock readings. -/
def subU64 (a b : ℕ) : ℕ := (a + 2 ^ 64 - b % 2 ^ 64) % 2 ^ 64

/-- `operation_type_t`. -/
inductive OperationType
  | insert
  | find
  | update
  deriving DecidableEq, Repr

/-- `(double)rand() / RAND_MAX` for a value `k` that `rand()` returned; `RAND_MAX` is positive. -/
def opRand (randMax k : ℕ) : Dbl ℚ := roundBinary64 ((k : ℚ) / randMax)

/-- The `double` sum `insert_ratio + find_ratio`. -/
def ratioSum (insertRatio findRatio : ℚ) : Dbl ℚ := roundBinary64 (insertRatio + findRatio)

/-- The choice at the top of `worker_thread`'s loop, the same in all three harnesses. -/
def selectOperation (insertRatio findRatio : ℚ) (opRand : Dbl ℚ) : OperationType :=
  if lt opRand (num insertRatio) then .insert
  else if lt opRand (ratioSum insertRatio findRatio) then .find
  else .update

/-- The two checks every `main` makes before it starts a worker, with their messages. -/
def checkArgs (numThreads : ℤ) (insertRatio findRatio : ℚ) : Except String Unit :=
  if numThreads > maxThreads ∨ numThreads < 1 then
    .error "Number of threads must be between 1 and 16"
  else if lt (num 1) (ratioSum insertRatio findRatio) then
    .error "insert_ratio + find_ratio must be <= 1.0"
  else .ok ()

theorem lt_one_eq_false_iff {d : Dbl ℚ} (hd : d ≠ nan) : lt (num 1) d = false ↔ le d (num 1) := by
  cases d with
  | num a => simp
  | inf s => cases s <;> simp [lt, le]
  | nan => exact absurd rfl hd

theorem checkArgs_ok_iff {numThreads : ℤ} {insertRatio findRatio : ℚ} :
    checkArgs numThreads insertRatio findRatio = .ok () ↔
      1 ≤ numThreads ∧ numThreads ≤ maxThreads ∧ le (ratioSum insertRatio findRatio) (num 1) := by
  rw [← lt_one_eq_false_iff (d := ratioSum insertRatio findRatio) (roundBinary64_ne_nan _)]
  unfold checkArgs
  split_ifs with h1 h2 <;> simp only [reduceCtorEq, false_iff, true_iff, not_and, not_le]
  · omega
  · intro _ _; simpa using h2
  · exact ⟨by omega, by omega, by simpa using h2⟩

/-- `main`'s command line as `atoi` and `atof` read it: `argc`, then `argv[1]`, `argv[2]`,
`argv[4]`, `argv[5]` and `argv[6]`. A value whose argument is absent is never read. -/
structure Args where
  argc : ℕ
  numThreads : ℤ
  duration : ℤ
  /-- `atof(argv[4])`, a double -/
  insertArg : ℚ
  /-- `atof(argv[5])`, a double -/
  findArg : ℚ
  selectorArg : ℤ
  deriving DecidableEq, Repr

/-- The `double` literal `0.3`. -/
def defaultInsertRatio : ℚ := 5404319552844595 / 2 ^ 54
/-- The `double` literal `0.6`. -/
def defaultFindRatio : ℚ := 5404319552844595 / 2 ^ 53

/-- `insert_ratio = argc > 4 ? atof(argv[4]) : 0.3`. -/
def Args.insertRatio (a : Args) : ℚ := if a.argc > 4 then a.insertArg else defaultInsertRatio
/-- `find_ratio = argc > 5 ? atof(argv[5]) : 0.6`. -/
def Args.findRatio (a : Args) : ℚ := if a.argc > 5 then a.findArg else defaultFindRatio

/-- What `main` starts its workers with once the arguments pass. -/
structure Launch where
  numThreads : ℕ
  duration : ℤ
  insertRatio : ℚ
  findRatio : ℚ
  updateRatio : Dbl ℚ
  deriving DecidableEq, Repr

/-- `update_ratio = 1.0 - insert_ratio - find_ratio`, each subtraction rounded. -/
def updateRatio (insertRatio findRatio : ℚ) : Dbl ℚ :=
  match roundBinary64 (1 - insertRatio) with
  | num u => roundBinary64 (u - findRatio)
  | inf s => inf s
  | nan => nan

theorem updateRatio_of_num {insertRatio findRatio u : ℚ} (h : roundBinary64 (1 - insertRatio) = num u) :
    updateRatio insertRatio findRatio = roundBinary64 (u - findRatio) := by
  unfold updateRatio
  rw [h]

/-- The argument handling the three `main`s share: the usage message below four arguments, the
defaults, `update_ratio = 1.0 - insert_ratio - find_ratio` and the two checks. -/
def parseArgs (usage : String) (a : Args) : Except String Launch :=
  if a.argc < 4 then .error usage
  else (checkArgs a.numThreads a.insertRatio a.findRatio).map fun _ =>
    ⟨a.numThreads.toNat, a.duration, a.insertRatio, a.findRatio, updateRatio a.insertRatio a.findRatio⟩

/-- `main` gets past its checks exactly for four arguments or more, `1 ≤ num_threads ≤ MAX_THREADS`
and a `double` sum `insert_ratio + find_ratio` of at most `1.0`; the ratios themselves are not
bounded. -/
theorem parseArgs_ok_iff {usage : String} {a : Args} {l : Launch} :
    parseArgs usage a = .ok l ↔
      (4 ≤ a.argc ∧ 1 ≤ a.numThreads ∧ a.numThreads ≤ maxThreads ∧
        le (ratioSum a.insertRatio a.findRatio) (num 1)) ∧
      l = ⟨a.numThreads.toNat, a.duration, a.insertRatio, a.findRatio,
        updateRatio a.insertRatio a.findRatio⟩ := by
  unfold parseArgs
  split_ifs with h
  · simp only [reduceCtorEq, false_iff, not_and]; omega
  · rcases hc : checkArgs a.numThreads a.insertRatio a.findRatio with e | u
    · simp only [Except.map, reduceCtorEq, false_iff]
      exact fun ⟨⟨_, hc'⟩, _⟩ => absurd (checkArgs_ok_iff.mpr hc') (by rw [hc]; simp)
    · obtain ⟨h₁, h₂, h₃⟩ := checkArgs_ok_iff.mp hc
      simp only [Except.map, Except.ok.injEq]
      exact ⟨fun e => ⟨⟨by omega, h₁, h₂, h₃⟩, e.symm⟩, fun e => e.2.symm⟩

theorem opRand_self {randMax : ℕ} (h : 0 < randMax) : opRand randMax randMax = num 1 := by
  rw [opRand, div_self (by exact_mod_cast h.ne'), ← Nat.cast_one, roundBinary64_natCast (by norm_num)]

@[simp] theorem opRand_zero (randMax : ℕ) : opRand randMax 0 = num 0 := by
  simp [opRand]

/-- `op_rand` is `1` when `rand()` returns `RAND_MAX`, so with `update_ratio = 0`
(and `find_ratio ≥ 0`) the loop still picks `OP_UPDATE`. -/
theorem selectOperation_update_at_randMax {randMax : ℕ} (h : 0 < randMax)
    {insertRatio findRatio : ℚ} (hi : insertRatio ≤ 1) (hsum : insertRatio + findRatio = 1) :
    selectOperation insertRatio findRatio (opRand randMax randMax) = .update := by
  have hs : ratioSum insertRatio findRatio = num 1 := by
    rw [ratioSum, hsum, ← Nat.cast_one, roundBinary64_natCast (by norm_num), Nat.cast_one]
  rw [opRand_self h, selectOperation, hs]
  simp [not_lt.mpr hi]

theorem selectOperation_update_at_randMax_glibc :
    (0 < 2147483647 ∧ (0 : ℚ) ≤ 1 ∧ (0 : ℚ) + 1 = 1) ∧
      selectOperation 0 1 (opRand 2147483647 2147483647) = .update :=
  ⟨⟨by norm_num, by norm_num, by norm_num⟩,
    selectOperation_update_at_randMax (by norm_num) (by norm_num) (by norm_num)⟩

end Hscl
