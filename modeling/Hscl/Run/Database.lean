import Hscl.Run.Progress
import Hscl.FairnessTest.Worker

/-! The database of a run: the keys of its inserts, records that never change, and lookups. -/
namespace Hscl

theorem upsDbInsert_apply (db : Store) (key record : List Char) (key' : List Char) :
    (upsDbInsert db key record false).2 key' =
      if key' = key ∧ db key = none then some record else db key' := by
  unfold upsDbInsert
  cases hk : db key with
  | none => by_cases h : key' = key <;> simp [h, hk]
  | some _ => by_cases h : key' = key <;> simp [h, hk]

theorem upsDbInsert_status (db : Store) (key record : List Char) :
    (upsDbInsert db key record false).1 = if db key = none then .success else .duplicateKey := by
  unfold upsDbInsert
  cases db key <;> rfl

theorem performFind_eq (db : Store) {nextKeyId : ℤ} (h : 1 < nextKeyId) (r₁ r₂ : ℕ) :
    performFind db nextKeyId r₁ r₂ = some (if (db (generateKey (r₂ % maxThreads)
      (drawnKeyId nextKeyId r₁))).isSome then .success else .keyNotFound) := by
  simp only [performFind, if_neg (not_le.mpr h), upsDbFind]
  split <;> rename_i hk <;> simp [hk]

theorem performUpdate_status (db : Store) {nextKeyId : ℤ} (h : 1 < nextKeyId) (r₁ r₂ : ℕ)
    (rands : List ℕ) :
    (performUpdate db nextKeyId r₁ r₂ rands).1 = if (db (generateKey (r₂ % maxThreads)
      (drawnKeyId nextKeyId r₁))).isSome then .success else .keyNotFound := by
  simp only [performUpdate, if_neg (not_le.mpr h), upsDbFind]
  cases db (generateKey (r₂ % maxThreads) (drawnKeyId nextKeyId r₁)) <;> simp

namespace Run

variable {n : ℕ} {P G ε : Type} {h : Harness P G ε} {randMax : ℕ} {s t s₀ : State n P G ε}
  {a : Action n}

section Steps
variable [DecidableEq P]

/-- Only a worker's insert writes the database. -/
theorem step_db (hs : step h randMax s a = some t) :
    (t.db = s.db ∧ t.inserts = s.inserts) ∨
    ∃ i rands, t.db = (performInsert s.db (s.threads i).threadId s.nextKeyId rands).2 ∧
      t.inserts = s.inserts ++ [((s.threads i).threadId, s.nextKeyId)] := by
  cases a with
  | setup i ok => obtain ⟨-, rfl⟩ := step_setup.mp hs; split <;> exact .inl ⟨rfl, rfl⟩
  | poll i r now₁ now₂ => obtain ⟨-, -, rfl⟩ := step_poll.mp hs; split <;> exact .inl ⟨rfl, rfl⟩
  | acquire i => obtain ⟨op, -, -, rfl⟩ := step_acquire.mp hs; exact .inl ⟨rfl, rfl⟩
  | enter i waited now => obtain ⟨op, -, rfl⟩ := step_enter.mp hs; exact .inl ⟨rfl, rfl⟩
  | perform i inp =>
    obtain ⟨op, -, rfl⟩ := step_perform.mp hs
    cases op
    · exact .inr ⟨i, inp.rands, rfl, rfl⟩
    · exact .inl ⟨rfl, rfl⟩
    · exact .inl ⟨performUpdate_store _ _ _ _ _, rfl⟩
  | release i sliceEnd now => obtain ⟨-, rfl⟩ := step_release.mp hs; exact .inl ⟨rfl, rfl⟩
  | stop => rw [step_stop.mp hs]; exact .inl ⟨rfl, rfl⟩

/-- No step changes or removes a stored record. -/
theorem step_db_keeps (hs : step h randMax s a = some t) {key record : List Char}
    (hk : s.db key = some record) : t.db key = some record := by
  obtain ⟨hdb, -⟩ | ⟨i, rands, hdb, -⟩ := step_db hs
  · rw [hdb, hk]
  · rw [hdb, performInsert, upsDbInsert_apply, if_neg fun hc => by simp [← hc.1, hk] at hc]
    exact hk

end Steps

/-- The keys stored are those of the start's database `D` and of the inserts made. -/
def DbInv (D : Store) (s : State n P G ε) : Prop :=
  ∀ key, (s.db key).isSome ↔ (D key).isSome ∨ ∃ p ∈ s.inserts, key = generateKey p.1 p.2

theorem dbInv_step [DecidableEq P] {D : Store} (hinv : DbInv D s) (hs : step h randMax s a = some t) :
    DbInv D t := by
  obtain ⟨hdb, hins⟩ | ⟨i, rands, hdb, hins⟩ := step_db hs
  · intro key; rw [hdb, hins]; exact hinv key
  · intro key
    have hmem : (∃ p ∈ s.inserts ++ [((s.threads i).threadId, s.nextKeyId)],
        key = generateKey p.1 p.2) ↔ (∃ p ∈ s.inserts, key = generateKey p.1 p.2) ∨
          key = generateKey (s.threads i).threadId s.nextKeyId := by
      simp only [List.mem_append, List.mem_singleton, or_and_right, exists_or, exists_eq_left]
    rw [hdb, hins, hmem, performInsert, upsDbInsert_apply]
    by_cases hkey : key = generateKey (s.threads i).threadId s.nextKeyId
    · subst hkey
      simp only [true_and, or_true, iff_true]
      split_ifs with hc
      · rfl
      · exact Option.isSome_iff_ne_none.mpr hc
    · rw [if_neg fun hc => hkey hc.1, hinv key, eq_false hkey, or_false]

theorem dbInv_of_steps [DecidableEq P] (h₀ : Initial h s₀) (hst : Steps h randMax s₀ s) :
    DbInv s₀.db s := by
  induction hst with
  | refl => intro key; simp [h₀.inserts]
  | tail _ hab ih => obtain ⟨a, ha⟩ := hab; exact dbInv_step ih ha

/-- On a run from the empty database, the stored keys are the keys of the run's inserts. -/
theorem dbKeys_of_steps [DecidableEq P] (h₀ : Initial h s₀) (hdb : s₀.db = Store.empty)
    (hst : Steps h randMax s₀ s) (key : List Char) :
    (s.db key).isSome ↔ ∃ p ∈ s.inserts, key = generateKey p.1 p.2 := by
  simpa [hdb, Store.empty] using dbInv_of_steps h₀ hst key

/-- The database of a run `main` starts on the empty database `ups_env_create_db` returns holds
exactly the keys of the run's inserts; and no step of any run changes or removes a stored
record: an insert of an existing key is refused, and `perform_update` stores back the record it
found. -/
theorem db_history [DecidableEq P] (h₀ : Initial h s₀) (hdb : s₀.db = Store.empty)
    (hst : Steps h randMax s₀ s) :
    (∀ key, (s.db key).isSome ↔ ∃ p ∈ s.inserts, key = generateKey p.1 p.2) ∧
    ∀ a t key record, step h randMax s a = some t → s.db key = some record →
      t.db key = some record :=
  ⟨dbKeys_of_steps h₀ hdb hst, fun _ _ _ _ ha hk => step_db_keeps ha hk⟩

theorem db_history_two_inserts :
    ∃ s : State 1 Unit Unit FairnessTest.Ext, s.inserts.length = 2 ∧
      (Initial FairnessTest.harness (FairnessTest.defaultState 1 1 0) ∧
        (FairnessTest.defaultState 1 1 0).db = Store.empty ∧
        Steps FairnessTest.harness 2147483647 (FairnessTest.defaultState 1 1 0) s) ∧
      ((∀ key, (s.db key).isSome ↔ ∃ p ∈ s.inserts, key = generateKey p.1 p.2) ∧
        ∀ a t key record, step FairnessTest.harness 2147483647 s a = some t →
          s.db key = some record → t.db key = some record) := by
  obtain ⟨s, hst, -, hl⟩ := FairnessTest.defaultState_inserts 2
  have h₀ := FairnessTest.defaultState_initial 1 1 0
  exact ⟨s, hl, ⟨h₀, rfl, hst⟩, db_history h₀ rfl hst⟩

section Lookups

theorem KeyInv.mem_ids (hk : KeyInv s) (hm : s.inserts.length < 2 ^ 31) {kid : ℤ} :
    (∃ p ∈ s.inserts, p.2 = kid) ↔ 0 < kid ∧ kid ≤ s.inserts.length := by
  rw [← List.mem_map, hk.ids, fetchedKeyIds_of_lt hm, List.mem_map]
  constructor
  · rintro ⟨k, hk', rfl⟩; rw [List.mem_range] at hk'; omega
  · rintro ⟨h₁, h₂⟩; exact ⟨(kid - 1).toNat, List.mem_range.mpr (by omega), by omega⟩

theorem KeyInv.eq_of_snd (hk : KeyInv s) (hm : s.inserts.length < 2 ^ 31) {p q : ℕ × ℤ}
    (hp : p ∈ s.inserts) (hq : q ∈ s.inserts) (he : p.2 = q.2) : p = q := by
  have hnd : (s.inserts.map Prod.snd).Nodup := by
    rw [hk.ids, fetchedKeyIds_of_lt hm]
    exact (List.nodup_range _).map fun a b hab => by simpa using hab
  exact List.inj_on_of_nodup_map hnd hp hq he

/-- With at most `MAX_THREADS` workers and below `2^31` inserts, the key of a thread id below
`MAX_THREADS` and a positive `int` key id is stored exactly when that pair was inserted. -/
theorem stored_iff (hn : n ≤ maxThreads) (hk : KeyInv s) (hm : s.inserts.length < 2 ^ 31)
    (hdb : ∀ key, (s.db key).isSome ↔ ∃ p ∈ s.inserts, key = generateKey p.1 p.2) {tid : ℕ}
    {kid : ℤ} (ht : tid < maxThreads) (hk₀ : 0 < kid) (hk₁ : kid < 2 ^ 31) :
    (s.db (generateKey tid kid)).isSome ↔ (tid, kid) ∈ s.inserts := by
  rw [hdb]
  refine ⟨fun ⟨p, hp, he⟩ => ?_, fun h => ⟨_, h, rfl⟩⟩
  have hp₁ := hk.tids p hp
  obtain ⟨hp₂, hp₃⟩ := (hk.mem_ids hm).mp ⟨p, hp, rfl⟩
  obtain ⟨h₁, rfl⟩ := generateKey_injective (by omega) (by simp only [maxThreads] at hn ⊢; omega)
    ⟨hk₀, hk₁⟩ ⟨hp₂, by omega⟩ he
  rwa [show tid = p.1 by exact_mod_cast h₁]

/-- In a run `main` starts on the empty database, with at most `MAX_THREADS` workers and below
`2^31 - 1` inserts: the insert a worker makes is never refused, its key id being fresh; and once
a key exists, the key id a find or an update draws, `1 + r₁ % (next_key_id - 1)`, was obtained by
one worker, and the lookup succeeds exactly when the thread it draws, `r₂ % MAX_THREADS`, is
that worker. -/
theorem lookups_of_steps [DecidableEq P] (hn : n ≤ maxThreads) (h₀ : Initial h s₀) (hdb : s₀.db = Store.empty)
    (hst : Steps h randMax s₀ s) (hm : s.inserts.length + 1 < 2 ^ 31) :
    (∀ i rands, (performInsert s.db (s.threads i).threadId s.nextKeyId rands).1 = .success) ∧
    ∀ r₁ r₂ rands, 1 < s.nextKeyId →
      ∃ owner < n, (owner, drawnKeyId s.nextKeyId r₁) ∈ s.inserts ∧
        (performFind s.db s.nextKeyId r₁ r₂ = some .success ↔ r₂ % maxThreads = owner) ∧
        ((performUpdate s.db s.nextKeyId r₁ r₂ rands).1 = .success ↔ r₂ % maxThreads = owner) := by
  have hk := keyInv_of_reachable (hst.reachable (.init h₀))
  have hkeys := dbKeys_of_steps h₀ hdb hst
  have hm' : s.inserts.length < 2 ^ 31 := by omega
  have hnext : s.nextKeyId = s.inserts.length + 1 := by rw [hk.next]; exact int32_of_mem (by omega) (by omega)
  refine ⟨fun i rands => ?_, fun r₁ r₂ rands h1 => ?_⟩
  · have hi : (s.threads i).threadId < maxThreads := by rw [hk.threadId i]; exact i.isLt.trans_le hn
    have hfresh : ((s.threads i).threadId, s.nextKeyId) ∉ s.inserts := fun hmem => by
      have := ((hk.mem_ids hm').mp ⟨_, hmem, rfl⟩).2
      omega
    have hnone : s.db (generateKey (s.threads i).threadId s.nextKeyId) = none :=
      Option.not_isSome_iff_eq_none.mp fun hs =>
        hfresh ((stored_iff hn hk hm' hkeys hi (by omega) (by omega)).mp hs)
    rw [performInsert, upsDbInsert_status, if_pos hnone]
  · have hkid : 0 < drawnKeyId s.nextKeyId r₁ ∧ drawnKeyId s.nextKeyId r₁ ≤ s.inserts.length := by
      have hm₁ : (0 : ℤ) < s.inserts.length := by omega
      simp only [drawnKeyId, hnext, add_sub_cancel_right]
      have := Int.emod_nonneg (r₁ : ℤ) hm₁.ne'
      have := Int.emod_lt_of_pos (r₁ : ℤ) hm₁
      omega
    obtain ⟨⟨owner, kid⟩, hp, rfl⟩ := (hk.mem_ids hm').mpr hkid
    have hiff : (s.db (generateKey (r₂ % maxThreads) (drawnKeyId s.nextKeyId r₁))).isSome ↔
        r₂ % maxThreads = owner := by
      rw [show ((r₂ : ℤ) % maxThreads) = ((r₂ % maxThreads : ℕ) : ℤ) from rfl,
        stored_iff hn hk hm' hkeys (Nat.mod_lt _ (by decide)) hkid.1 (by omega)]
      exact ⟨fun hq => congrArg Prod.fst (hk.eq_of_snd hm' hq hp rfl), fun he => he ▸ hp⟩
    refine ⟨owner, hk.tids _ hp, hp, ?_, ?_⟩
    · rw [performFind_eq _ h1]; split_ifs with hs <;> simp [hs, hiff.mp, hiff.not.mp]
    · rw [performUpdate_status _ h1]; split_ifs with hs <;> simp [hs, hiff.mp, hiff.not.mp]

theorem lookups_of_steps_two_inserts :
    ∃ s : State 1 Unit Unit FairnessTest.Ext, s.inserts.length = 2 ∧ s.nextKeyId = 3 ∧
      (1 ≤ maxThreads ∧ Initial FairnessTest.harness (FairnessTest.defaultState 1 1 0) ∧
        (FairnessTest.defaultState 1 1 0).db = Store.empty ∧
        Steps FairnessTest.harness 2147483647 (FairnessTest.defaultState 1 1 0) s ∧
        s.inserts.length + 1 < 2 ^ 31) ∧
      (∀ i rands, (performInsert s.db (s.threads i).threadId s.nextKeyId rands).1 = .success) ∧
      ∀ r₁ r₂ rands, 1 < s.nextKeyId →
        ∃ owner < 1, (owner, drawnKeyId s.nextKeyId r₁) ∈ s.inserts ∧
          (performFind s.db s.nextKeyId r₁ r₂ = some .success ↔ r₂ % maxThreads = owner) ∧
          ((performUpdate s.db s.nextKeyId r₁ r₂ rands).1 = .success ↔ r₂ % maxThreads = owner) := by
  obtain ⟨s, hst, hr, hl⟩ := FairnessTest.defaultState_inserts 2
  have h₀ := FairnessTest.defaultState_initial 1 1 0
  have hnext : s.nextKeyId = 3 := by rw [(keyInv_of_reachable hr.reachable).next, hl]; rfl
  exact ⟨s, hl, hnext, ⟨by decide, h₀, rfl, hst, by omega⟩,
    lookups_of_steps (by decide) h₀ rfl hst (by omega)⟩

end Lookups

end Run

end Hscl
