import Hscl.Mutex.Worker

/-! Counts over a sequence of lock acquisitions that the hierarchy statistics are meant to keep. -/
namespace Hscl.Mutex

variable {α : Type} [DecidableEq α]

/-- The consecutive pairs `(s_{k-1}, s_k)`, `k ≥ 2`, of a sequence. -/
def handoffs (l : List α) : List (α × α) := l.zip l.tail

omit [DecidableEq α] in
theorem handoffs_append_singleton (l : List α) (x : α) :
    handoffs (l ++ [x]) = handoffs l ++ (l.getLast?.map fun y => (y, x)).toList := by
  induction l with
  | nil => rfl
  | cons a l ih =>
    cases l with
    | nil => rfl
    | cons b l =>
      have : handoffs (a :: b :: l ++ [x]) = (a, b) :: handoffs (b :: l ++ [x]) := rfl
      rw [this, ih]
      simp [handoffs, List.getLast?_cons_cons]

/-- `#{k ≥ 2 : level s_{k-1} ≠ level s_k}`. -/
def switchCount (level : α → HierarchyLevel) (l : List α) : ℕ :=
  ((handoffs l).filter fun p => level p.1 ≠ level p.2).length

/-- `#{k ≥ 2 : s_k = t ∧ level s_k < level s_{k-1}}`: `t` took the lock from a lower level. -/
def dominatedCount (level : α → HierarchyLevel) (t : α) (l : List α) : ℕ :=
  ((handoffs l).filter fun p => p.2 = t ∧ level p.2 < level p.1).length

/-- `#{k ≥ 2 : s_k = t ∧ level s_k > level s_{k-1}}`: `t` took the lock from a higher level. -/
def starvedCount (level : α → HierarchyLevel) (t : α) (l : List α) : ℕ :=
  ((handoffs l).filter fun p => p.2 = t ∧ level p.2 > level p.1).length

/-- The length of the final block of `t`s in a sequence. -/
def runLength (t : α) (l : List α) : ℕ := (l.reverse.takeWhile (· = t)).length

variable {level : α → HierarchyLevel} {l : List α} {x t : α}

omit [DecidableEq α] in
theorem switchCount_append_singleton :
    switchCount level (l ++ [x]) =
      switchCount level l + l.getLast?.elim 0 fun y => if level y ≠ level x then 1 else 0 := by
  unfold switchCount
  rw [handoffs_append_singleton, List.filter_append, List.length_append]
  cases l.getLast? <;> simp [List.filter_cons]; split_ifs <;> simp

theorem dominatedCount_append_singleton :
    dominatedCount level t (l ++ [x]) = dominatedCount level t l +
      l.getLast?.elim 0 fun y => if x = t ∧ level x < level y then 1 else 0 := by
  unfold dominatedCount
  rw [handoffs_append_singleton, List.filter_append, List.length_append]
  cases l.getLast? <;> simp [List.filter_cons]; split_ifs <;> simp_all

theorem starvedCount_append_singleton :
    starvedCount level t (l ++ [x]) = starvedCount level t l +
      l.getLast?.elim 0 fun y => if x = t ∧ level x > level y then 1 else 0 := by
  unfold starvedCount
  rw [handoffs_append_singleton, List.filter_append, List.length_append]
  cases l.getLast? <;> simp [List.filter_cons]; split_ifs <;> simp_all

theorem runLength_append_singleton :
    runLength t (l ++ [x]) = if x = t then runLength t l + 1 else 0 := by
  unfold runLength
  split_ifs with hx <;> simp [List.takeWhile_cons, hx]

theorem runLength_eq_zero_of_getLast? (h : l.getLast? ≠ some t) : runLength t l = 0 := by
  induction l using List.reverseRecOn with
  | nil => rfl
  | append_singleton l y _ =>
    rw [runLength_append_singleton, if_neg]
    rintro rfl
    simp at h

theorem replicate_prefix_iff {k : ℕ} {m : List α} :
    List.replicate k t <+: m ↔ k ≤ (m.takeWhile (· = t)).length := by
  induction k generalizing m with
  | zero => simp
  | succ k ih =>
    cases m with
    | nil => simp
    | cons y m =>
      by_cases hy : y = t
      · subst hy; simp [List.replicate_succ, List.takeWhile_cons, ih]
      · simp [List.replicate_succ, List.takeWhile_cons, hy, Ne.symm hy]

theorem replicate_infix_append_singleton {k : ℕ} :
    List.replicate k t <:+: l ++ [x] ↔ List.replicate k t <:+: l ∨ k ≤ runLength t (l ++ [x]) := by
  rw [← List.reverse_infix, List.reverse_replicate, List.reverse_append, List.reverse_singleton,
    List.singleton_append, List.infix_cons_iff, replicate_prefix_iff, ← List.reverse_infix,
    List.reverse_replicate, List.reverse_reverse, runLength, List.reverse_append]
  simp only [List.reverse_singleton, List.singleton_append]
  exact or_comm

theorem isGreatest_blocks_append_singleton {k : ℕ}
    (h : IsGreatest {k | List.replicate k t <:+: l} k) :
    IsGreatest {k | List.replicate k t <:+: l ++ [x]} (max k (runLength t (l ++ [x]))) := by
  have : {k | List.replicate k t <:+: l ++ [x]} =
      {k | List.replicate k t <:+: l} ∪ Set.Iic (runLength t (l ++ [x])) := by
    ext; exact replicate_infix_append_singleton
  rw [this]
  exact h.union isGreatest_Iic

theorem replicate_infix_count {k : ℕ} (h : List.replicate k t <:+: l) : k ≤ l.count t := by
  simpa using h.sublist.count_le t

theorem dominatedCount_add_starvedCount_le :
    dominatedCount level t l + starvedCount level t l ≤ l.count t := by
  induction l using List.reverseRecOn with
  | nil => simp [dominatedCount, starvedCount, handoffs]
  | append_singleton l x ih =>
    rw [dominatedCount_append_singleton, starvedCount_append_singleton, List.count_append]
    have : (l.getLast?.elim 0 fun y => if x = t ∧ level x < level y then 1 else 0) +
        (l.getLast?.elim 0 fun y => if x = t ∧ level x > level y then 1 else 0) ≤ [x].count t := by
      cases l.getLast? with
      | none => simp
      | some y =>
        by_cases hx : x = t
        · subst hx; simp only [Option.elim, true_and, List.count_singleton_self]
          split_ifs with h₁ h₂ <;> simp_all [lt_asymm]
        · simp [hx]
    omega

/-- Summing over the taker, the hand-offs that go down in level plus those that go up are the
ones that change level. -/
theorem sum_dominated_add_starved {n : ℕ} (level : Fin n → HierarchyLevel) (l : List (Fin n)) :
    ∑ t, (dominatedCount level t l + starvedCount level t l) = switchCount level l := by
  unfold dominatedCount starvedCount switchCount
  simp only [← List.countP_eq_length_filter]
  induction handoffs l with
  | nil => simp
  | cons p ps ih =>
    have hp : ∑ t, ((if p.2 = t ∧ level p.2 < level p.1 then 1 else 0) +
        (if p.2 = t ∧ level p.2 > level p.1 then 1 else 0)) =
        if level p.1 ≠ level p.2 then 1 else 0 := by
      simp only [Finset.sum_add_distrib, ite_and, Finset.sum_ite_eq, Finset.mem_univ, if_true]
      rcases lt_trichotomy (level p.2) (level p.1) with hl | hl | hl
      · simp [hl, hl.ne', not_lt.mpr hl.le]
      · simp [hl]
      · simp [hl, hl.ne, not_lt.mpr hl.le]
    simp only [List.countP_cons, decide_eq_true_eq]
    rw [← ih, ← hp, ← Finset.sum_add_distrib]
    exact Finset.sum_congr rfl fun t _ => by omega

end Hscl.Mutex
