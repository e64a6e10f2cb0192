import Hscl.Harness.Nodes
import Hscl.FairnessTest.Worker

/-! The five topologies of `upscale_fairness_test.c` and the threads' bindings to them. -/
namespace Hscl.FairnessTest
open Run

/-- `hierarchy_type_t`. -/
inductive HierarchyType
  | flat
  | balanced
  | skewed
  | deep
  | grouped
  | custom
  deriving DecidableEq, Repr

/-- The shape `init_flat_hierarchy`, `init_balanced_hierarchy`, `init_skewed_hierarchy` and
`init_deep_hierarchy` share: `num_nodes = num_threads + 1`, the root, then node `i` under
`parent i` with weight `0` for `1 ≤ i < num_nodes`. -/
def initThreadNodes (parent : ℕ → ℕ) (numThreads now : ℕ) : NodeArray :=
  ⟨numThreads + 1,
    (0, .fresh 0 0 0 now) :: (List.range' 1 numThreads).map fun i => (i, .fresh i (parent i) 0 now)⟩

/-- `init_flat_hierarchy`: every thread node under the root. -/
def initFlatHierarchy (numThreads now : ℕ) : NodeArray :=
  initThreadNodes (fun _ => 0) numThreads now

/-- `init_balanced_hierarchy`: node `i` under `(i - 1) / 2`. -/
def initBalancedHierarchy (numThreads now : ℕ) : NodeArray :=
  initThreadNodes (fun i => (i - 1) / 2) numThreads now

/-- `init_skewed_hierarchy`: a chain through the nodes up to `mid = num_threads / 2`, the rest
under the root. -/
def initSkewedHierarchy (numThreads now : ℕ) : NodeArray :=
  let mid := numThreads / 2
  initThreadNodes (fun i => if i ≤ mid then i - 1 else 0) numThreads now

/-- `init_deep_hierarchy`: node `i` under `i - 1`. -/
def initDeepHierarchy (numThreads now : ℕ) : NodeArray :=
  initThreadNodes (fun i => i - 1) numThreads now

/-- `num_groups` of `init_grouped_hierarchy`. -/
def numGroups : ℕ := 4

/-- `init_grouped_hierarchy`: the group nodes `1 … 4` under the root, and thread `i` at node
`num_groups + 1 + i` with weight `1024` under group `i % num_groups + 1`. -/
def initGroupedHierarchy (numThreads now : ℕ) : NodeArray :=
  ⟨numThreads + numGroups + 1,
    (0, .fresh 0 0 0 now) :: ((List.range' 1 numGroups).map fun g => (g, .fresh g 0 0 now)) ++
      (List.range numThreads).map fun i =>
        (numGroups + 1 + i, .fresh (numGroups + 1 + i) (i % numGroups + 1) 1024 now)⟩

/-- `init_hierarchy(num_threads, type)`; an unknown type falls back to the flat hierarchy. -/
def initHierarchy (numThreads : ℕ) (type : HierarchyType) (now : ℕ) : NodeArray :=
  match type with
  | .flat => initFlatHierarchy numThreads now
  | .balanced => initBalancedHierarchy numThreads now
  | .skewed => initSkewedHierarchy numThreads now
  | .deep => initDeepHierarchy numThreads now
  | .grouped => initGroupedHierarchy numThreads now
  | .custom => initFlatHierarchy numThreads now

/-- The fields `configure_threads_for_hierarchy` writes into `threads[i]` besides `thread_id`. -/
structure Binding where
  priority : ℤ
  weight : ℤ
  parentNode : ℕ
  deriving DecidableEq, Repr

/-- `configure_threads_for_hierarchy`'s binding of thread `i` of `num_threads`. -/
def configureThreadsForHierarchy (type : HierarchyType) (numThreads i : ℕ) : Binding :=
  match type with
  | .flat => ⟨-10 + (i % 20 : ℕ), (1024 >>> (i % 4) : ℕ), i + 1⟩
  | .balanced => ⟨-5 + (i % 10 : ℕ), 512 + (i % 3 : ℕ) * 256, i + 1⟩
  | .skewed =>
    ⟨if i < numThreads / 2 then -10 + i else 0,
      if i < numThreads / 2 then (2048 >>> i : ℕ) else 1024, i + 1⟩
  | .deep => ⟨-15 + i, 1024 + i * 128, i + 1⟩
  | .grouped =>
    let group := i % 4
    ⟨-10 + group * 5, (1024 >>> group : ℕ), 4 + 1 + i⟩
  | .custom => ⟨0, 1024, i + 1⟩

/-- Thread `i`'s record as `main` fills it after `configure_threads_for_hierarchy`. -/
def threadRecord (type : HierarchyType) (numThreads i : ℕ) : Ext :=
  let b := configureThreadsForHierarchy type numThreads i
  ⟨b.priority, b.weight, b.parentNode, 0⟩

/-- The state `main` starts `n` workers in for the topology `type`. -/
def mainState (n : ℕ) (type : HierarchyType) (insertRatio findRatio : ℚ) : State n Unit Unit Ext :=
  Run.mainState n () insertRatio findRatio (threadRecord type n)

theorem mainState_initial (n : ℕ) (type : HierarchyType) (insertRatio findRatio : ℚ) :
    Initial harness (mainState n type insertRatio findRatio) :=
  Run.mainState_initial trivial fun _ _ => rfl

/-- `total_nodes`, the count `main` passes to `print_hierarchy_structure`. -/
def totalNodes (type : HierarchyType) (numThreads : ℕ) : ℕ :=
  if type = .grouped then numThreads + 5 else numThreads + 1

/-- `hierarchy_type` as `main` reads it: `atoi(argv[6])` when it is `0` to `4`,
`HIERARCHY_FLAT` otherwise. -/
def hierarchyTypeOf (a : Args) : HierarchyType :=
  if a.argc > 6 then
    match a.selectorArg with
    | 0 => .flat
    | 1 => .balanced
    | 2 => .skewed
    | 3 => .deep
    | 4 => .grouped
    | _ => .flat
  else .flat

/-- The usage line of `upscale_fairness_test`, after the program name. -/
def usage : String :=
  "<num_threads> <duration_seconds> <db_file> [insert_ratio] [find_ratio] [hierarchy_type]"

/-- `main` up to `init_hierarchy`: the launch configuration and the topology, or the message it
exits with. -/
def main (a : Args) : Except String (Launch × HierarchyType) :=
  (parseArgs usage a).map fun l => (l, hierarchyTypeOf a)

theorem main_ok_iff {a : Args} :
    (∃ l, main a = .ok l) ↔
      4 ≤ a.argc ∧ 1 ≤ a.numThreads ∧ a.numThreads ≤ maxThreads ∧
        Dbl.le (ratioSum a.insertRatio a.findRatio) (.num 1) := by
  unfold main
  rcases h : parseArgs usage a with e | l
  · simp only [Except.map, reduceCtorEq, exists_false, false_iff]
    exact fun hc => absurd (parseArgs_ok_iff.mpr ⟨hc, rfl⟩) (by rw [h]; simp)
  · simp only [Except.map, Except.ok.injEq, exists_eq', true_iff]
    exact (parseArgs_ok_iff.mp h).1

section Tree
variable {parent : ℕ → ℕ} {numThreads now : ℕ}

theorem initThreadNodes_writesOnce : (initThreadNodes parent numThreads now).WritesOnce where
  indices := by
    simp [initThreadNodes, List.range_eq_range', List.range'_succ, Function.comp_def]
  ids := by
    simp only [initThreadNodes, List.mem_cons, List.mem_map]
    rintro _ (rfl | ⟨i, -, rfl⟩) <;> rfl

theorem initThreadNodes_parent_zero : (initThreadNodes parent numThreads now).parent 0 = 0 :=
  initThreadNodes_writesOnce.parent (List.mem_cons_self _ _)

theorem initThreadNodes_parent {i : ℕ} (h₁ : 1 ≤ i) (h₂ : i < numThreads + 1) :
    (initThreadNodes parent numThreads now).parent i = parent i :=
  initThreadNodes_writesOnce.parent <| List.mem_cons_of_mem _ <|
    List.mem_map.mpr ⟨i, List.mem_range'_1.mpr ⟨h₁, by omega⟩, rfl⟩

theorem initGroupedHierarchy_writesOnce : (initGroupedHierarchy numThreads now).WritesOnce where
  indices := by
    have : List.range (numThreads + numGroups + 1) =
        0 :: List.range' 1 numGroups ++ List.range' (numGroups + 1) numThreads := by
      rw [List.range_eq_range', List.range'_succ, Nat.add_comm numGroups 1, List.cons_append,
        List.range'_append_1]
    simp [initGroupedHierarchy, this, List.range'_eq_map_range, Function.comp_def]
  ids := by
    simp only [initGroupedHierarchy, List.mem_cons, List.mem_append, List.mem_map]
    rintro _ ((rfl | ⟨g, -, rfl⟩) | ⟨i, -, rfl⟩) <;> rfl

theorem initGroupedHierarchy_parent_zero : (initGroupedHierarchy numThreads now).parent 0 = 0 :=
  initGroupedHierarchy_writesOnce.parent (List.mem_cons_self _ _)

theorem initGroupedHierarchy_parent_group {g : ℕ} (h₁ : 1 ≤ g) (h₂ : g ≤ numGroups) :
    (initGroupedHierarchy numThreads now).parent g = 0 :=
  initGroupedHierarchy_writesOnce.parent <| List.mem_append_left _ <| List.mem_cons_of_mem _ <|
    List.mem_map.mpr ⟨g, List.mem_range'_1.mpr ⟨h₁, by omega⟩, rfl⟩

theorem initGroupedHierarchy_parent_thread {i : ℕ} (h : i < numThreads) :
    (initGroupedHierarchy numThreads now).parent (numGroups + 1 + i) = i % numGroups + 1 :=
  initGroupedHierarchy_writesOnce.parent <| List.mem_append_right _ <|
    List.mem_map.mpr ⟨i, List.mem_range.mpr h, rfl⟩

/-- The parent of node `i ≥ 1` as the topologies are described: the root for FLAT,
`(i - 1) / 2` for BALANCED, `i - 1` up to `num_threads / 2` and the root after it for SKEWED,
`i - 1` for DEEP, and for GROUPED the root for the groups `1 … 4` and group `t % 4 + 1` for
thread `t`'s node `5 + t`; an unknown type is built as FLAT. -/
def statedParent (numThreads : ℕ) : HierarchyType → ℕ → ℕ
  | .flat, _ => 0
  | .balanced, i => (i - 1) / 2
  | .skewed, i => if i ≤ numThreads / 2 then i - 1 else 0
  | .deep, i => i - 1
  | .grouped, i => if i ≤ 4 then 0 else (i - 5) % 4 + 1
  | .custom, _ => 0

variable {type : HierarchyType}

theorem initHierarchy_numNodes : (initHierarchy numThreads type now).numNodes = totalNodes type numThreads := by
  cases type <;> rfl

theorem initHierarchy_writesOnce : (initHierarchy numThreads type now).WritesOnce := by
  cases type
  case grouped => exact initGroupedHierarchy_writesOnce
  all_goals exact initThreadNodes_writesOnce

theorem initHierarchy_parent_zero : (initHierarchy numThreads type now).parent 0 = 0 := by
  cases type
  case grouped => exact initGroupedHierarchy_parent_zero
  all_goals exact initThreadNodes_parent_zero

theorem initHierarchy_parent {i : ℕ} (h₁ : 1 ≤ i) (h₂ : i < (initHierarchy numThreads type now).numNodes) :
    (initHierarchy numThreads type now).parent i = statedParent numThreads type i := by
  cases type
  case grouped =>
    simp only [statedParent]
    split_ifs with hg
    · exact initGroupedHierarchy_parent_group h₁ hg
    · obtain ⟨t, rfl⟩ : ∃ t, i = numGroups + 1 + t := ⟨i - 5, by simp only [numGroups]; omega⟩
      have ht : t < numThreads := by simp only [initHierarchy, initGroupedHierarchy, numGroups] at h₂; omega
      rw [show numGroups + 1 + t - 5 = t by simp only [numGroups]; omega]
      exact initGroupedHierarchy_parent_thread ht
  all_goals exact initThreadNodes_parent h₁ h₂

theorem statedParent_lt {i : ℕ} (h₁ : 1 ≤ i) : statedParent numThreads type i < i := by
  cases type <;> simp only [statedParent] <;> (try split_ifs) <;> omega

/-- The array `init_hierarchy` builds, as a tree rooted at node `0`. -/
def hierarchyTree (numThreads : ℕ) (type : HierarchyType) (now : ℕ) :
    RootedTree (initHierarchy numThreads type now).numNodes where
  parent := (initHierarchy numThreads type now).parent
  parent_zero := initHierarchy_parent_zero
  parent_lt _ h₁ h₂ := initHierarchy_parent h₁ h₂ ▸ statedParent_lt h₁

/-- For every thread count and topology, `init_hierarchy` stores each of its
`num_threads + 5` (GROUPED) or `num_threads + 1` nodes once, with its index as `id`; node `0` is
its own parent, every other node's parent is below it and is the one its topology states, so
`i` hops from node `i` reach the root. -/
theorem initHierarchy_tree (numThreads : ℕ) (type : HierarchyType) (now : ℕ) :
    (initHierarchy numThreads type now).numNodes =
        (if type = .grouped then numThreads + 5 else numThreads + 1) ∧
      (initHierarchy numThreads type now).WritesOnce ∧
      (initHierarchy numThreads type now).parent 0 = 0 ∧
      (∀ i, 1 ≤ i → i < (initHierarchy numThreads type now).numNodes →
        (initHierarchy numThreads type now).parent i < i ∧
          (initHierarchy numThreads type now).parent i = statedParent numThreads type i) ∧
      ∀ i < (initHierarchy numThreads type now).numNodes,
        (initHierarchy numThreads type now).parent^[i] i = 0 :=
  ⟨initHierarchy_numNodes, initHierarchy_writesOnce, initHierarchy_parent_zero,
    fun _ h₁ h₂ => ⟨(hierarchyTree numThreads type now).parent_lt _ h₁ h₂, initHierarchy_parent h₁ h₂⟩,
    fun _ hi => (hierarchyTree numThreads type now).iterate_self hi⟩

theorem configureThreadsForHierarchy_parentNode {i : ℕ} :
    (configureThreadsForHierarchy type numThreads i).parentNode =
      if type = .grouped then 5 + i else i + 1 := by
  cases type <;> simp only [configureThreadsForHierarchy, reduceCtorEq, if_true, if_false]

/-- `configure_threads_for_hierarchy` binds the threads one to one to non-root nodes of the array
`init_hierarchy` allocates. For GROUPED thread `i`'s node `5 + i` is a thread node under group
`i % 4 + 1`, the group its priority and weight come from; for SKEWED a thread takes the chain's
priority and weight exactly when its node is on the chain; and `main` prints as many nodes as
`init_hierarchy` allocates. -/
theorem configureThreadsForHierarchy_binds (numThreads : ℕ) (type : HierarchyType) (now : ℕ) :
    (∀ i < numThreads,
      1 ≤ (configureThreadsForHierarchy type numThreads i).parentNode ∧
        (configureThreadsForHierarchy type numThreads i).parentNode <
          (initHierarchy numThreads type now).numNodes) ∧
    (∀ i < numThreads, ∀ j < numThreads,
      (configureThreadsForHierarchy type numThreads i).parentNode =
        (configureThreadsForHierarchy type numThreads j).parentNode → i = j) ∧
    (∀ i < numThreads,
      (configureThreadsForHierarchy .grouped numThreads i).parentNode = 5 + i ∧
      numGroups < (configureThreadsForHierarchy .grouped numThreads i).parentNode ∧
      (initHierarchy numThreads .grouped now).parent (5 + i) = i % 4 + 1 ∧
      (configureThreadsForHierarchy .grouped numThreads i).priority =
        -10 + (((initHierarchy numThreads .grouped now).parent (5 + i) - 1 : ℕ) : ℤ) * 5 ∧
      (configureThreadsForHierarchy .grouped numThreads i).weight =
        (1024 >>> ((initHierarchy numThreads .grouped now).parent (5 + i) - 1) : ℕ)) ∧
    (∀ i < numThreads,
      ((configureThreadsForHierarchy .skewed numThreads i).priority = -10 + i ∧
          (configureThreadsForHierarchy .skewed numThreads i).weight = (2048 >>> i : ℕ) ↔
        (configureThreadsForHierarchy .skewed numThreads i).parentNode ≤ numThreads / 2) ∧
      (initHierarchy numThreads .skewed now).parent
          (configureThreadsForHierarchy .skewed numThreads i).parentNode =
        if (configureThreadsForHierarchy .skewed numThreads i).parentNode ≤ numThreads / 2
        then i else 0) ∧
    totalNodes type numThreads = (initHierarchy numThreads type now).numNodes := by
  have hN : (initHierarchy numThreads type now).numNodes = totalNodes type numThreads := initHierarchy_numNodes
  refine ⟨fun i hi => ?_, fun i hi j hj => ?_, fun i hi => ?_, fun i hi => ?_, hN.symm⟩
  · rw [configureThreadsForHierarchy_parentNode, hN, totalNodes]
    split_ifs <;> omega
  · rw [configureThreadsForHierarchy_parentNode, configureThreadsForHierarchy_parentNode]
    split_ifs <;> omega
  · have hp : (initHierarchy numThreads .grouped now).parent (5 + i) = i % 4 + 1 :=
      initGroupedHierarchy_parent_thread hi
    refine ⟨rfl, by simp only [configureThreadsForHierarchy, numGroups]; omega, hp, ?_, ?_⟩ <;>
      simp [configureThreadsForHierarchy, hp]
  · have hp : (initHierarchy numThreads .skewed now).parent (i + 1) =
        if i + 1 ≤ numThreads / 2 then i else 0 := by
      rw [initHierarchy_parent (by omega) (by rw [initHierarchy_numNodes, totalNodes]; simp only [reduceCtorEq, ↓reduceIte]; omega)]
      simp [statedParent]
    refine ⟨?_, hp⟩
    by_cases hc : i < numThreads / 2
    · simp only [configureThreadsForHierarchy, hc, ↓reduceIte, Int.reduceNeg, and_self, true_iff]; omega
    · simp only [configureThreadsForHierarchy, hc, if_false]
      refine iff_of_false (fun ⟨h₁, h₂⟩ => ?_) (by omega)
      obtain rfl : i = 10 := by omega
      exact absurd h₂ (by decide)

end Tree

end Hscl.FairnessTest
