import Hscl.Run.Exclusion

/-! `next_key_id` under `__sync_fetch_and_add`: inserts obtain the ids `1, 2, 3, …` in order. -/
namespace Hscl.Run

/-- The values the first `m` fetch-and-adds of `next_key_id` return, starting from `1`. -/
def fetchedKeyIds (m : ℕ) : List ℤ := (List.range m).map fun k : ℕ => int32 (k + 1)

theorem int32_int32_add_one (z : ℤ) : int32 (int32 z + 1) = int32 (z + 1) := by
  simp only [int32]; omega

theorem fetchedKeyIds_of_lt {m : ℕ} (hm : m < 2 ^ 31) :
    fetchedKeyIds m = (List.range m).map fun k : ℕ => (k + 1 : ℤ) := by
  refine List.map_congr_left fun k hk => ?_
  rw [List.mem_range] at hk
  exact int32_of_mem (by omega) (by omega)

variable {n : ℕ} {P G ε : Type} {h : Harness P G ε} {randMax : ℕ} {s t : State n P G ε}
  {a : Action n} {i : Fin n}

theorem step_threadId [DecidableEq P] (hs : step h randMax s a = some t) (j : Fin n) :
    (t.threads j).threadId = (s.threads j).threadId := by
  have hw : ∀ (i : Fin n) (q : Pc) (c : ThreadConfig ε), c.threadId = (s.threads i).threadId →
      ((s.setWorker i q c).threads j).threadId = (s.threads j).threadId := by
    intro i q c hc
    by_cases hj : j = i
    · subst hj; simpa using hc
    · rw [setWorker_threads_ne hj]
  cases a with
  | setup i ok => obtain ⟨-, rfl⟩ := step_setup.mp hs; split <;> exact hw _ _ _ rfl
  | poll i r now₁ now₂ => obtain ⟨-, -, rfl⟩ := step_poll.mp hs; split <;> exact hw _ _ _ rfl
  | acquire i => obtain ⟨op, -, -, rfl⟩ := step_acquire.mp hs; exact hw i (.entered op) _ rfl
  | enter i waited now =>
    obtain ⟨op, -, rfl⟩ := step_enter.mp hs; exact hw i (.performing op) _ rfl
  | perform i inp =>
    obtain ⟨op, -, rfl⟩ := step_perform.mp hs
    by_cases hj : j = i
    · subst hj; simp
    · simp [hj]
  | release i sliceEnd now => obtain ⟨-, rfl⟩ := step_release.mp hs; exact hw i .head _ rfl
  | stop => rw [step_stop.mp hs]

/-- Only a worker's insert touches `next_key_id` and the history of inserts. -/
theorem step_keys [DecidableEq P] (hs : step h randMax s a = some t) :
    (t.inserts = s.inserts ∧ t.nextKeyId = s.nextKeyId) ∨
    ∃ i, t.inserts = s.inserts ++ [((s.threads i).threadId, s.nextKeyId)] ∧
      t.nextKeyId = int32 (s.nextKeyId + 1) := by
  cases a with
  | setup i ok => obtain ⟨-, rfl⟩ := step_setup.mp hs; split <;> exact .inl ⟨rfl, rfl⟩
  | poll i r now₁ now₂ => obtain ⟨-, -, rfl⟩ := step_poll.mp hs; split <;> exact .inl ⟨rfl, rfl⟩
  | acquire i => obtain ⟨op, -, -, rfl⟩ := step_acquire.mp hs; exact .inl ⟨rfl, rfl⟩
  | enter i waited now => obtain ⟨op, -, rfl⟩ := step_enter.mp hs; exact .inl ⟨rfl, rfl⟩
  | perform i inp =>
    obtain ⟨op, -, rfl⟩ := step_perform.mp hs
    cases op
    · exact .inr ⟨i, rfl, rfl⟩
    · exact .inl ⟨rfl, rfl⟩
    · exact .inl ⟨rfl, rfl⟩
  | release i sliceEnd now => obtain ⟨-, rfl⟩ := step_release.mp hs; exact .inl ⟨rfl, rfl⟩
  | stop => rw [step_stop.mp hs]; exact .inl ⟨rfl, rfl⟩

/-- The fetch-and-add history: `m` inserts so far, which obtained the first `m` values of the
counter, each made by a worker whose `thread_id` is its index. -/
structure KeyInv (s : State n P G ε) : Prop where
  next : s.nextKeyId = int32 (s.inserts.length + 1)
  ids : s.inserts.map Prod.snd = fetchedKeyIds s.inserts.length
  tids : ∀ p ∈ s.inserts, p.1 < n
  threadId : ∀ i, (s.threads i).threadId = i

theorem keyInv_of_reachable [DecidableEq P] (hs : Reachable h randMax s) : KeyInv s := by
  refine hs.invariant (fun s hi => ⟨by simp [hi.nextKeyId, hi.inserts, int32_of_mem],
    by simp [hi.inserts, fetchedKeyIds], by simp [hi.inserts], hi.threadId⟩) ?_
  intro s t a _ hinv ha
  have htid : ∀ i, (t.threads i).threadId = i := fun i => (step_threadId ha i).trans (hinv.threadId i)
  obtain ⟨hk, hn⟩ | ⟨i, hk, hn⟩ := step_keys ha
  · exact ⟨by rw [hn, hk]; exact hinv.next, by rw [hk]; exact hinv.ids,
      by rw [hk]; exact hinv.tids, htid⟩
  · refine ⟨?_, ?_, ?_, htid⟩
    · rw [hn, hk, hinv.next, int32_int32_add_one]; simp [add_assoc]
    · rw [hk, List.map_append, hinv.ids, hinv.next]
      simp [fetchedKeyIds, List.range_succ]
    · intro p hp
      rw [hk, List.mem_append, List.mem_singleton] at hp
      rcases hp with hp | rfl
      · exact hinv.tids p hp
      · simp [hinv.threadId i]

end Hscl.Run
