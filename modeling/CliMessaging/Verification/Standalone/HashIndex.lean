import CliMessaging.Library.Horner
import CliMessaging.Model.Standalone.HashTable
import CliMessaging.Model.Standalone.Server

/-! # Bucket indices of remote keys

The index of a key is its value in base 7 modulo the number of buckets, unless bytes above
127 have taken the running remainder below zero. -/

namespace CliMessaging.Standalone

variable {N : ℕ} {key data : List UInt8} {req : ClientRequest} {name : Cname}

/-! ## Bucket counts -/

/-- The bucket counts are 32 times a power of two, up to the largest capacity. -/
theorem tableSize_iff : TableSize N ↔ ∃ k ≤ 22, N = 32 * 2 ^ k := by
  constructor
  · intro h
    induction h with
    | create => exact ⟨0, by decide, rfl⟩
    | resize _ ih =>
        obtain ⟨k, hk, rfl⟩ := ih
        by_cases hmax : k = 22
        · subst hmax
          exact ⟨22, le_rfl, by decide⟩
        · refine ⟨k + 1, by omega, ?_⟩
          have hpow : 2 ^ k ≤ 2 ^ 21 := Nat.pow_le_pow_right (by decide) (by omega)
          rw [resize, maxCapacity, if_neg (by omega)]
          ring
  · rintro ⟨k, hk, rfl⟩
    induction k with
    | zero => exact .create
    | succ k ih =>
        have hpow : 2 ^ k ≤ 2 ^ 21 := Nat.pow_le_pow_right (by decide) (by omega)
        have hnext := (ih (by omega)).resize
        rw [resize, maxCapacity, if_neg (by omega)] at hnext
        rw [pow_succ, ← mul_assoc, mul_comm _ 2]
        exact hnext

theorem TableSize.pos (h : TableSize N) : 0 < N := by
  obtain ⟨k, -, rfl⟩ := tableSize_iff.mp h
  positivity

/-! ## The index of a key -/

/-- The bytes of a key take the index below zero, and it is below zero at the end. -/
def KeySinks (N : ℕ) (key : List UInt8) : Prop := Horner.Sinks 7 N (key.map signedChar)

theorem hash_eq_truncated (key : List UInt8) (N : ℕ) :
    hash key N = Horner.truncated 7 N (key.map signedChar) := by
  rw [hash, Horner.truncated, List.foldl_map]

theorem hash_mem_range_iff (hN : 0 < N) (key : List UInt8) :
    0 ≤ hash key N ∧ hash key N < N ↔ ¬KeySinks N key := by
  rw [hash_eq_truncated]
  exact Horner.truncated_mem_range_iff (by decide) (by omega) _

/-- The index of a key without bytes above 127 is in range. -/
theorem hash_mem_range_of_ascii (hN : 0 < N) (hkey : ∀ b ∈ key, b.toNat < 128) :
    0 ≤ hash key N ∧ hash key N < N := by
  rw [hash_mem_range_iff hN]
  apply Horner.not_sinks_of_nonneg (by decide) (by omega)
  intro d hd
  obtain ⟨b, hb, rfl⟩ := List.mem_map.mp hd
  rw [signedChar, if_pos (hkey b hb)]
  omega

/-! ## Keys in datagrams -/

/-- The bytes of the username or channel field of a datagram, up to its NUL. -/
def keyField (data : List UInt8) : List UInt8 :=
  ((data.drop 4).take (channelMax - 1)).takeWhile (· ≠ 0)

/-- The key of an accepted request is its first field. -/
theorem key_of_readRequest {buffer : List UInt8} (h : readRequest buffer = some req)
    (hkey : requestKey req = some name) :
    name = CString.ofBuffer channelMax (by decide) (buffer.drop 4) ∧
      ∀ n, testValid buffer n = true → 4 + channelMax ≤ n := by
  obtain ⟨t, ht, rfl⟩ := Option.map_eq_some_iff.mp h
  simp only [testValid, ht, decide_eq_true_eq]
  cases t with
  | logout => cases hkey
  | list => cases hkey
  | keepAlive => cases hkey
  | say =>
      cases hkey
      exact ⟨rfl, fun n hn => by simp [hn, RequestType.size]⟩
  | _ =>
      cases hkey
      exact ⟨rfl, fun n hn => hn.ge⟩

theorem bytes_of_accepts (h : Accepts data req) (hkey : requestKey req = some name) :
    name.bytes = keyField data := by
  obtain ⟨hvalid, hread⟩ := h
  obtain ⟨rfl, hsize⟩ := key_of_readRequest hread hkey
  have hlen : 4 + channelMax ≤ min data.length bufSize := hsize _ hvalid
  change (((recvfrom bufSize data).1.drop 4).take (channelMax - 1)).takeWhile (· ≠ 0) =
    ((data.drop 4).take (channelMax - 1)).takeWhile (· ≠ 0)
  congr 1
  rw [List.take_drop, List.take_drop, recvfrom, List.take_append_of_le_length, List.take_take]
  · congr 2
  · rw [List.length_take]
    omega

/-! ## The index of a remote key -/

/-- The bucket index of the field of an accepted request lies between 0 and the bucket
count minus 1 exactly when the bytes of the field do not sink it. -/
theorem index_inRange_iff_not_sinks (h : Accepts data req) (hkey : requestKey req = some name)
    (hN : TableSize N) :
    0 ≤ hash name.bytes N ∧ hash name.bytes N ≤ (N : ℤ) - 1 ↔ ¬KeySinks N (keyField data) := by
  rw [← bytes_of_accepts h hkey, ← hash_mem_range_iff hN.pos, Int.le_sub_one_iff]

/-- A byte above 127 can be taken back up: the name ff 7a has the index 19. -/
theorem index_inRange_iff_not_sinks_recovered :
    Accepts (requestLogin (.ofText usernameMax [255, 122]))
        (.login (.ofBuffer usernameMax (by decide) [255, 122])) ∧
      hash [255, 122] 32 = 19 ∧
      ¬KeySinks 32 (keyField (requestLogin (.ofText usernameMax [255, 122]))) :=
  have haccepts : Accepts (requestLogin (.ofText usernameMax [255, 122]))
      (.login (.ofBuffer usernameMax (by decide) [255, 122])) := by decide
  ⟨haccepts, by decide, (index_inRange_iff_not_sinks haccepts rfl .create).mp (by decide)⟩

/-- The name ff is accepted and has the index -1. -/
theorem index_of_ff_outOfRange :
    Accepts (requestLogin (.ofText usernameMax [255]))
        (.login (.ofBuffer usernameMax (by decide) [255])) ∧
      TableSize 32 ∧
      ¬(0 ≤ hash (CString.ofBuffer usernameMax (by decide) [255]).bytes 32 ∧
        hash (CString.ofBuffer usernameMax (by decide) [255]).bytes 32 ≤ (32 : ℤ) - 1) :=
  ⟨by decide, .create, by decide⟩

end CliMessaging.Standalone
