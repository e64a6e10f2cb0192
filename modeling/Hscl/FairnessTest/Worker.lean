import Hscl.Run.Progress

/-! `worker_thread` of `upscale_fairness_test.c`, with its slice-violation check. -/
namespace Hscl.FairnessTest
open Run

/-- The fields of this harness's `thread_config_t` beyond the shared ones. -/
structure Ext where
  priority : ℤ
  weight : ℤ
  parentNode : ℕ
  sliceViolations : ℕ
  deriving DecidableEq, Repr

/-- The weight `worker_thread` registers with `hfairlock_thread_init`. -/
def priorityAdjustedWeight (e : Ext) : ℤ := e.weight * (20 + e.priority)

/-- `worker_thread`: the single fair lock is its only primitive and the harness has no shared
globals of its own. -/
def harness : Harness Unit Unit Ext where
  acquirePrim _ := ()
  releasePrim _ := ()
  setup _ ok e := if ok then some e else none
  loopHead _ _ _ e := e
  enter g _ _ e := (g, e)
  afterRelease _ sliceEnd now _ e :=
    { e with sliceViolations := countSliceViolation sliceEnd now e.sliceViolations }
  start _ := True
  initial _ c := c.ext.sliceViolations = 0
  release_eq _ := rfl
  enter_prim _ _ _ _ := rfl

theorem countsSlices : CountsSlices harness Ext.sliceViolations where
  initial _ _ h := h
  setup _ ok e e' h := by
    simp only [harness, Option.ite_none_right_eq_some, Option.some.injEq] at h
    rw [← h.2]
  loopHead _ _ _ _ := rfl
  enter _ _ _ _ := rfl
  afterRelease _ _ _ _ _ := countSliceViolation_le _ _ _

/-- The state `main` starts `n` workers in when `configure_threads_for_hierarchy` takes its
`default` branch: priority `0`, weight `1024`, node `i + 1`. -/
def defaultState (n : ℕ) (insertRatio findRatio : ℚ) : State n Unit Unit Ext :=
  Run.mainState n () insertRatio findRatio fun i => ⟨0, 1024, i + 1, 0⟩

theorem defaultState_initial (n : ℕ) (insertRatio findRatio : ℚ) :
    Initial harness (defaultState n insertRatio findRatio) :=
  Run.mainState_initial trivial fun _ _ => rfl

theorem defaultState_inserts (m : ℕ) : ∃ s, Run.Steps harness 2147483647 (defaultState 1 1 0) s ∧
    Run.ReadyToInsert harness 2147483647 0 s ∧ s.inserts.length = m :=
  (defaultState_initial 1 1 0).exists_inserts true rfl
    (by simp [defaultState, Run.mainState, selectOperation, opRand]) m

end Hscl.FairnessTest
