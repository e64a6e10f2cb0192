import Hscl.Sample.Machine

/-! The keys and records of `upscaledb_hscl_test.c`. -/
namespace Hscl.Sample

theorem toNat_byte {b : ℕ} (hb : b < 2 ^ 8) : (Char.ofNat b).toNat = b := by
  rw [Char.ofNat, dif_pos (Or.inl (by omega))]; rfl

theorem keyBytes_inj {a b : ℤ} (h : keyBytes a = keyBytes b) : a % 2 ^ 32 = b % 2 ^ 32 := by
  have byte : ∀ {x y : ℕ}, Char.ofNat (x % 2 ^ 8) = Char.ofNat (y % 2 ^ 8) → x % 2 ^ 8 = y % 2 ^ 8 :=
    fun hxy => (toNat_byte (Nat.mod_lt _ (by norm_num))).symm.trans
      ((congrArg Char.toNat hxy).trans (toNat_byte (Nat.mod_lt _ (by norm_num))))
  simp only [keyBytes, List.map_cons, List.map_nil, List.cons.injEq, and_true] at h
  have ha := Int.emod_nonneg a (by norm_num : (2 : ℤ) ^ 32 ≠ 0)
  have hb := Int.emod_nonneg b (by norm_num : (2 : ℤ) ^ 32 ≠ 0)
  have ha' := Int.emod_lt_of_pos a (by norm_num : (0 : ℤ) < 2 ^ 32)
  have hb' := Int.emod_lt_of_pos b (by norm_num : (0 : ℤ) < 2 ^ 32)
  have h0 := byte h.1
  have h1 := byte h.2.1
  have h2 := byte h.2.2.1
  have h3 := byte h.2.2.2
  omega

/-- Iterations below `10000` of workers below `NUM_THREADS` share a key only if they are the same
worker's same iteration. -/
theorem keyBytes_keyVal_inj {j₁ j₂ i₁ i₂ : ℕ} (hj₁ : j₁ < numThreads) (hj₂ : j₂ < numThreads)
    (hi₁ : i₁ < 10000) (hi₂ : i₂ < 10000) (h : keyBytes (keyVal j₁ i₁) = keyBytes (keyVal j₂ i₂)) :
    j₁ = j₂ ∧ i₁ = i₂ := by
  have h' := keyBytes_inj h
  unfold numThreads at hj₁ hj₂
  rw [keyVal, keyVal, int32_of_mem (by omega) (by omega), int32_of_mem (by omega) (by omega),
    Int.emod_eq_of_lt (by omega) (by omega), Int.emod_eq_of_lt (by omega) (by omega)] at h'
  omega

theorem zeroPad_ne_nul (width n : ℕ) : ∀ c ∈ zeroPad width n, c ≠ nul := by
  simp only [zeroPad, List.mem_append, List.mem_replicate, List.mem_map, List.mem_reverse]
  rintro c (⟨-, rfl⟩ | ⟨d, hd, rfl⟩)
  · decide
  · have := Nat.digits_lt_base (by norm_num) hd
    interval_cases d <;> decide

theorem valueText_ne_nul (threadId i : ℕ) : ∀ c ∈ valueText threadId i, c ≠ nul := by
  intro c hc
  replace hc := List.mem_of_mem_take hc
  simp only [formatInt, Int.natCast_nonneg, not_lt.mpr, if_false, Int.toNat_natCast,
    List.mem_append] at hc
  rcases hc with ((h | h) | h) | h
  · revert c; decide
  · exact zeroPad_ne_nul _ _ c h
  · revert c; decide
  · exact zeroPad_ne_nul _ _ c h

theorem copyString_recordBytes {v : List Char} (hv : ∀ c ∈ v, c ≠ nul)
    (hl : v.length ≤ readBufferSize - 1) : copyString readBufferSize (recordBytes v) = v := by
  rw [copyString, recordBytes, List.takeWhile_append_of_pos (by simpa using hv)]
  simp [nul, List.take_of_length_le hl]

/-- `read_with_lock` on a key whose record `insert_with_lock` stored from `value_str` finds it and
leaves `value_str` in the buffer. -/
theorem readWithLock_of_stored {db : Store} {threadId i : ℕ}
    (h : db (keyBytes (keyVal threadId i)) = some (recordBytes (valueText threadId i))) :
    readWithLock db (keyVal threadId i) readBufferSize = (.success, valueText threadId i) := by
  rw [readWithLock, upsDbFind_of_some h]
  exact congrArg (Prod.mk _) (copyString_recordBytes (valueText_ne_nul _ _) (List.length_take_le _ _))

end Hscl.Sample
