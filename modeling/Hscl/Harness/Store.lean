import Hscl.Harness.Key

/-! The upscaledb database as the harnesses use it, and their three database operations. -/
namespace Hscl

/-- The `ups_status_t` values the harness distinguishes. -/
inductive Status
  | success
  | duplicateKey
  | keyNotFound
  deriving DecidableEq, Repr

/-- An upscaledb database: each key maps to at most one record, keys and records being the
characters before their terminators. -/
abbrev Store := List Char → Option (List Char)

/-- The empty database `ups_env_create_db` returns. -/
def Store.empty : Store := fun _ => none

/-- `ups_db_find`: on success it writes the found record's data into the `ups_record_t`
(upscaledb's behaviour without `UPS_RECORD_USER_ALLOC`); otherwise the record is unchanged. -/
def upsDbFind (db : Store) (key record : List Char) : Status × List Char :=
  match db key with
  | some found => (.success, found)
  | none => (.keyNotFound, record)

/-- `ups_db_insert`: flags `0` refuse an existing key, `UPS_OVERWRITE` replaces its record. -/
def upsDbInsert (db : Store) (key record : List Char) (overwrite : Bool) : Status × Store :=
  if overwrite then (.success, Function.update db key (some record))
  else match db key with
    | some _ => (.duplicateKey, db)
    | none => (.success, Function.update db key (some record))

/-- `generate_data`: `DATA_SIZE - 1` letters `'A' + rand() % 26`, from the values `rand()` returns. -/
def generateData (rands : List ℕ) : List Char :=
  (rands.take (dataSize - 1)).map fun r => Char.ofNat ('A'.toNat + r % 26)

/-- The key id `perform_find` and `perform_update` draw, `1 + rand() % (next_key_id - 1)`. -/
def drawnKeyId (nextKeyId : ℤ) (r : ℕ) : ℤ := 1 + (r : ℤ) % (nextKeyId - 1)

/-- `perform_insert`'s effect: the key of `key_id` is added unless it is already present. -/
def performInsert (db : Store) (threadId keyId : ℤ) (rands : List ℕ) : Status × Store :=
  upsDbInsert db (generateKey threadId keyId) (generateData rands) false

/-- `perform_find`'s status; it leaves the database unchanged, and returns early before any
key exists (`next_key_id <= 1`). -/
def performFind (db : Store) (nextKeyId : ℤ) (r₁ r₂ : ℕ) : Option Status :=
  if nextKeyId ≤ 1 then none
  else some (upsDbFind db (generateKey (r₂ % maxThreads) (drawnKeyId nextKeyId r₁)) []).1

/-- `perform_update`: `ups_db_find` into the record holding `new_data`, then on success
`ups_db_insert(..., UPS_OVERWRITE)` with that same record. -/
def performUpdate (db : Store) (nextKeyId : ℤ) (r₁ r₂ : ℕ) (rands : List ℕ) : Status × Store :=
  if nextKeyId ≤ 1 then (.keyNotFound, db)
  else
    let key := generateKey (r₂ % maxThreads) (drawnKeyId nextKeyId r₁)
    let (st, record) := upsDbFind db key (generateData rands)
    if st = .success then upsDbInsert db key record true else (st, db)

@[simp] theorem upsDbInsert_overwrite (db : Store) (key record : List Char) :
    upsDbInsert db key record true = (.success, Function.update db key (some record)) := rfl

theorem upsDbFind_of_some {db : Store} {key found : List Char} (h : db key = some found)
    (record : List Char) : upsDbFind db key record = (.success, found) := by
  simp [upsDbFind, h]

theorem upsDbFind_of_none {db : Store} {key : List Char} (h : db key = none)
    (record : List Char) : upsDbFind db key record = (.keyNotFound, record) := by
  simp [upsDbFind, h]

theorem performUpdate_store (db : Store) (nextKeyId : ℤ) (r₁ r₂ : ℕ) (rands : List ℕ) :
    (performUpdate db nextKeyId r₁ r₂ rands).2 = db := by
  unfold performUpdate
  split_ifs
  · rfl
  · generalize generateKey _ _ = key
    cases hk : db key with
    | none => simp [upsDbFind_of_none hk]
    | some found => simp [upsDbFind_of_some hk, ← hk]

/-- On a database holding `"A"` under the key an update picks, with `new_data` of `"B"`
letters, the key still maps to `"A"` after `perform_update`. -/
theorem performUpdate_keeps_old_record :
    (performUpdate (Function.update Store.empty (generateKey (0 % maxThreads) (drawnKeyId 2 0))
        (some ['A'])) 2 0 0 [1]).2 (generateKey (0 % maxThreads) (drawnKeyId 2 0)) = some ['A'] ∧
      generateData [1] = ['B'] :=
  ⟨by rw [performUpdate_store]; simp, rfl⟩

end Hscl
