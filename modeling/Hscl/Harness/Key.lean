import Hscl.Harness.Basic
import Mathlib.Data.Nat.Digits

/-! `generate_key`, `snprintf(key, KEY_SIZE, "T%02d_K%08d", thread_id, key_id)`. -/
namespace Hscl

/-- `%0<width>u`: the decimal digits of `n`, left-padded with `'0'` to `width` characters. -/
def zeroPad (width n : ℕ) : List Char :=
  List.replicate (width - (Nat.digits 10 n).length) '0' ++
    (Nat.digits 10 n).reverse.map Nat.digitChar

/-- `%0<width>d` of an `int`: a negative value is `'-'` followed by its padded magnitude. -/
def formatInt (width : ℕ) (v : ℤ) : List Char :=
  if v < 0 then '-' :: zeroPad (width - 1) v.natAbs else zeroPad width v.toNat

/-- The text `"T%02d_K%08d"` formats, before `snprintf` cuts it to the buffer. -/
def keyText (threadId keyId : ℤ) : List Char :=
  'T' :: formatInt 2 threadId ++ '_' :: 'K' :: formatInt 8 keyId

/-- `generate_key`: `snprintf` keeps at most `KEY_SIZE - 1` characters before the terminator. -/
def generateKey (threadId keyId : ℤ) : List Char :=
  (keyText threadId keyId).take (keySize - 1)

/-- The value of a decimal digit character. -/
def digitValue (c : Char) : ℕ := c.toNat - '0'.toNat

/-- Reads a string of decimal digits, most significant first. -/
def readDecimal (cs : List Char) : ℕ := Nat.ofDigits 10 (cs.reverse.map digitValue)

private theorem digitValue_digitChar {d : ℕ} (h : d < 10) : digitValue (Nat.digitChar d) = d := by
  interval_cases d <;> rfl

private theorem ofDigits_replicate_zero (k : ℕ) : Nat.ofDigits 10 (List.replicate k 0) = 0 := by
  induction k with
  | zero => rfl
  | succ k ih => simp [List.replicate_succ, Nat.ofDigits_cons, ih]

theorem readDecimal_zeroPad (width n : ℕ) : readDecimal (zeroPad width n) = n := by
  have hmap : ((Nat.digits 10 n).map Nat.digitChar).map digitValue = Nat.digits 10 n := by
    rw [List.map_map]
    conv_rhs => rw [← List.map_id (Nat.digits 10 n)]
    exact List.map_congr_left fun d hd =>
      digitValue_digitChar (Nat.digits_lt_base (by norm_num) hd)
  simp only [readDecimal, zeroPad, List.reverse_append, List.map_reverse, List.reverse_reverse,
    List.reverse_replicate, List.map_append, List.map_replicate, hmap, Nat.ofDigits_append]
  rw [show digitValue '0' = 0 from rfl, ofDigits_replicate_zero, Nat.ofDigits_digits]
  simp

theorem zeroPad_length (width n : ℕ) :
    (zeroPad width n).length = max width (Nat.digits 10 n).length := by
  simp only [zeroPad, List.length_append, List.length_replicate, List.length_map,
    List.length_reverse]
  omega

private theorem digits_length_le {n k : ℕ} (h : n < 10 ^ k) : (Nat.digits 10 n).length ≤ k := by
  rcases Nat.eq_zero_or_pos n with rfl | hn
  · simp
  · have hle := Nat.base_pow_length_digits_le 10 n (by norm_num) hn.ne'
    have hlt : 10 ^ (Nat.digits 10 n).length < 10 ^ (k + 1) := by
      calc _ ≤ 10 * n := hle
        _ < 10 * 10 ^ k := by omega
        _ = 10 ^ (k + 1) := by ring
    have := (Nat.pow_lt_pow_iff_right (by norm_num : 1 < 10)).mp hlt
    omega

theorem zeroPad_length_of_lt {width n : ℕ} (h : n < 10 ^ width) :
    (zeroPad width n).length = width := by
  rw [zeroPad_length, max_eq_left (digits_length_le h)]

theorem keyText_length {threadId keyId : ℤ} (ht0 : 0 ≤ threadId) (ht : threadId < maxThreads)
    (hk0 : 0 < keyId) :
    (keyText threadId keyId).length = 5 + max 8 (Nat.digits 10 keyId.toNat).length := by
  have h2 : (zeroPad 2 threadId.toNat).length = 2 :=
    zeroPad_length_of_lt (by simp only [maxThreads] at ht; omega)
  simp only [keyText, formatInt, if_neg (not_lt.mpr ht0), if_neg (not_lt.mpr hk0.le),
    List.length_cons, List.length_append, h2, zeroPad_length]
  omega

theorem keyText_fits {threadId keyId : ℤ} (ht0 : 0 ≤ threadId) (ht : threadId < maxThreads)
    (hk0 : 0 < keyId) (hk : keyId < 2 ^ 31) : (keyText threadId keyId).length + 1 ≤ keySize := by
  have hd : (Nat.digits 10 keyId.toNat).length ≤ 10 := digits_length_le (by omega)
  rw [keyText_length ht0 ht hk0, keySize]
  omega

/-- On thread ids in `[0, MAX_THREADS)` and positive `int` key ids, `generate_key` is injective
and its text, with the terminator, fits in `KEY_SIZE` bytes. -/
theorem generateKey_injective {t₁ t₂ k₁ k₂ : ℤ} (ht₁ : 0 ≤ t₁ ∧ t₁ < maxThreads)
    (ht₂ : 0 ≤ t₂ ∧ t₂ < maxThreads) (hk₁ : 0 < k₁ ∧ k₁ < 2 ^ 31) (hk₂ : 0 < k₂ ∧ k₂ < 2 ^ 31)
    (h : generateKey t₁ k₁ = generateKey t₂ k₂) : t₁ = t₂ ∧ k₁ = k₂ := by
  have hfit : ∀ t k : ℤ, 0 ≤ t ∧ t < maxThreads → 0 < k ∧ k < 2 ^ 31 →
      generateKey t k = 'T' :: zeroPad 2 t.toNat ++ '_' :: 'K' :: zeroPad 8 k.toNat := by
    intro t k ht hk
    have := keyText_fits ht.1 ht.2 hk.1 hk.2
    rw [generateKey, List.take_of_length_le (by omega), keyText, formatInt, formatInt,
      if_neg (not_lt.mpr ht.1), if_neg (not_lt.mpr hk.1.le)]
  have hlen : ∀ t : ℤ, 0 ≤ t ∧ t < maxThreads → (zeroPad 2 t.toNat).length = 2 := fun t ht =>
    zeroPad_length_of_lt (by simp only [maxThreads] at ht; omega)
  rw [hfit t₁ k₁ ht₁ hk₁, hfit t₂ k₂ ht₂ hk₂] at h
  simp only [List.cons_append, List.cons.injEq, true_and] at h
  obtain ⟨hz, ht⟩ := List.append_inj h ((hlen t₁ ht₁).trans (hlen t₂ ht₂).symm)
  have hk := congrArg readDecimal (List.tail_eq_of_cons_eq (List.tail_eq_of_cons_eq ht))
  have hz' := congrArg readDecimal hz
  simp only [readDecimal_zeroPad] at hk hz'
  omega

end Hscl
