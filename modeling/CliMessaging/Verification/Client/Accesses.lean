import CliMessaging.Model.Client.Accesses
import CliMessaging.Verification.Client.ListReplies

/-! # What is printed from memory

The strings that the handlers print are those at the offsets that they touch, and a message
is handled to its end when these lie in the receive buffer. -/

namespace CliMessaging.Client

variable {memory memory' : ℕ → UInt8} {req : List UInt8} {beyond : ℕ → UInt8}
  {len i offset size n : ℕ} {count : UInt32} {t : TextType}

/-! ## Fields and entries -/

theorem last_mem_fieldOffsets (memory : ℕ → UInt8) (offset size : ℕ) :
    offset + size - 1 ∈ fieldOffsets memory offset size := List.mem_cons_self

/-- A string ends inside its field. -/
theorem bounds_of_mem_fieldOffsets (hsize : 0 < size) (hi : i ∈ fieldOffsets memory offset size) :
    offset ≤ i ∧ i < offset + size := by
  have hstrlen := (List.takeWhile_prefix (p := (· ≠ (0 : UInt8)))
    (l := (List.range (size - 1)).map fun i => memory (offset + i))).length_le
  rw [List.length_map, List.length_range] at hstrlen
  rcases List.mem_cons.mp hi with rfl | hi
  · omega
  · obtain ⟨j, hj, rfl⟩ := List.mem_map.mp hi
    have hj := List.mem_range.mp hj
    omega

theorem mem_intOffsets : i ∈ intOffsets offset ↔ offset ≤ i ∧ i < offset + 4 := by
  simp only [intOffsets, List.mem_map, List.mem_range]
  constructor
  · rintro ⟨j, hj, rfl⟩
    omega
  · intro h
    exact ⟨i - offset, by omega, by omega⟩

theorem bounds_of_mem_entryOffsets (hi : i ∈ entryOffsets memory offset n) :
    offset ≤ i ∧ i < offset + usernameMax * n := by
  obtain ⟨k, hk, hi⟩ := List.mem_flatMap.mp hi
  have hk := List.mem_range.mp hk
  have hfield := bounds_of_mem_fieldOffsets (by decide) hi
  simp only [usernameMax] at hfield ⊢
  omega

/-- The last byte of an entry is overwritten. -/
theorem last_mem_entryOffsets (memory : ℕ → UInt8) (offset : ℕ) {k : ℕ} (hk : k < n) :
    offset + usernameMax * k + usernameMax - 1 ∈ entryOffsets memory offset n :=
  List.mem_flatMap.mpr ⟨k, List.mem_range.mpr hk, last_mem_fieldOffsets _ _ _⟩

/-- The entries end where the message ends only if there are few enough of them. -/
theorem entries_lt_iff (hlen : len = offset + usernameMax * n) {rounds : ℕ} :
    (∀ i ∈ entryOffsets memory offset rounds, i < len) ↔ rounds ≤ n := by
  constructor
  · intro hall
    by_contra hlt
    have hlast := hall _ (last_mem_entryOffsets memory offset (Nat.not_le.mp hlt))
    simp only [usernameMax] at hlast hlen
    omega
  · intro hle i hi
    have hbounds := bounds_of_mem_entryOffsets hi
    simp only [usernameMax] at hbounds hlen
    omega

/-! ## Strings in memory -/

/-- The string of a field. -/
def fieldText (memory : ℕ → UInt8) (offset size : ℕ) : List UInt8 :=
  ((List.range (size - 1)).map fun i => memory (offset + i)).takeWhile (· ≠ 0)

theorem memoryAt_eq (hi : i < req.length) : memoryAt req beyond i = req[i] := by
  rw [memoryAt, dif_pos hi]
  rfl

/-- What `printf` reads from a field in the buffer. -/
theorem ofBuffer_drop (beyond : ℕ → UInt8) (hsize : 0 < size) (hfits : offset + size ≤ req.length) :
    (CString.ofBuffer size hsize (req.drop offset)).bytes =
      fieldText (memoryAt req beyond) offset size := by
  change ((req.drop offset).take (size - 1)).takeWhile (· ≠ 0) = _
  rw [fieldText]
  congr 1
  refine List.ext_getElem ?_ fun i hi hi' => ?_
  · simp only [List.length_take, List.length_drop, List.length_map, List.length_range]
    omega
  · rw [List.length_map, List.length_range] at hi'
    rw [List.getElem_take, List.getElem_drop, List.getElem_map, List.getElem_range,
      memoryAt_eq (by omega)]

/-- A string depends on no byte behind its NUL. -/
theorem takeWhile_congr {α : Type} {p : α → Bool} {xs ys : List α} (hlen : ys.length = xs.length)
    (h : ∀ i ≤ (xs.takeWhile p).length, ys[i]? = xs[i]?) : ys.takeWhile p = xs.takeWhile p := by
  induction xs generalizing ys with
  | nil => rw [List.length_eq_zero_iff.mp hlen]
  | cons x xs ih =>
      cases ys with
      | nil => simp at hlen
      | cons y ys =>
          obtain rfl : y = x := by simpa using h 0 (Nat.zero_le _)
          cases hy : p y with
          | false => simp [hy]
          | true =>
              rw [List.takeWhile_cons_of_pos hy, List.takeWhile_cons_of_pos hy]
              congr 1
              refine ih (by simpa using hlen) fun i hi => ?_
              simpa using h (i + 1) (by simpa [List.takeWhile_cons_of_pos hy] using hi)

theorem fieldText_congr
    (h : ∀ i ∈ fieldOffsets memory offset size, memory' i = memory i) :
    fieldText memory' offset size = fieldText memory offset size := by
  refine takeWhile_congr (by simp) fun i hi => ?_
  simp only [List.getElem?_map]
  rcases Nat.lt_or_ge i (size - 1) with hlt | hge
  · have hmem : offset + i ∈ fieldOffsets memory offset size :=
      List.mem_cons_of_mem _ (List.mem_map_of_mem (List.mem_range.mpr (Nat.lt_succ_of_le hi)))
    rw [List.getElem?_range hlt, Option.map_some, Option.map_some, h _ hmem]
  · rw [List.getElem?_eq_none (by simpa using hge), Option.map_none, Option.map_none]

/-- The lines of the entries that start at `offset`. -/
def entryLines (memory : ℕ → UInt8) (offset n : ℕ) : List UInt8 :=
  (List.range n).flatMap fun i =>
    ascii " " ++ fieldText memory (offset + usernameMax * i) usernameMax ++ ascii "\n"

theorem entryLines_congr
    (h : ∀ i ∈ entryOffsets memory offset n, memory' i = memory i) :
    entryLines memory' offset n = entryLines memory offset n := by
  rw [entryLines, entryLines, List.flatMap, List.flatMap]
  congr 1
  refine List.map_congr_left fun k hk => ?_
  rw [fieldText_congr fun i hi => h i (List.mem_flatMap.mpr ⟨k, hk, hi⟩)]

theorem entryLines_succ : entryLines memory offset (n + 1) =
    ascii " " ++ fieldText memory offset usernameMax ++ ascii "\n" ++
      entryLines memory (offset + usernameMax) n := by
  rw [entryLines, List.range_succ_eq_map, List.flatMap_cons, List.flatMap_map, entryLines,
    Nat.mul_zero, Nat.add_zero]
  congr 2
  funext i
  congr 3
  simp only [Nat.mul_succ]
  omega

/-- The loop comes to its end when its entries lie in the buffer. -/
theorem printEntries_eq (beyond : ℕ → UInt8) (hoffset : offset ≤ req.length) :
    printEntries (req.drop offset) n =
      if offset + usernameMax * n ≤ req.length then
        .ok (entryLines (memoryAt req beyond) offset n)
      else .error .outOfRange := by
  induction n generalizing offset with
  | zero => simp [printEntries, entryLines, hoffset]
  | succ n ih =>
      rw [printEntries, List.length_drop]
      by_cases hroom : offset + usernameMax ≤ req.length
      · rw [if_neg (by omega), List.drop_drop, ih hroom, Nat.mul_succ, ← Nat.add_assoc,
          Nat.add_right_comm]
        split
        · rw [bind_ok, ofBuffer_drop beyond usernameMax_pos hroom, entryLines_succ]
          rfl
        · rfl
      · rw [if_pos (by omega), if_neg (by rw [Nat.mul_succ]; omega)]

/-! ## Handlers -/

/-- What the handler of a text prints, by the memory from the start of the buffer on. -/
def printed (memory : ℕ → UInt8) (count : UInt32) : TextType → List UInt8
  | .say => ascii "[" ++ fieldText memory 4 channelMax ++ ascii "][" ++
      fieldText memory (4 + channelMax) usernameMax ++ ascii "]: " ++
      fieldText memory (4 + channelMax + usernameMax) sayMax ++ ascii "\n"
  | .list => ascii "Existing Channels:\n" ++ entryLines memory 8 (rounds count)
  | .who => ascii "Users on channel " ++ fieldText memory 8 channelMax ++ ascii ":\n" ++
      entryLines memory (8 + channelMax) (rounds count)
  | .error => ascii "SERVER_ERROR::" ++ fieldText memory 4 sayMax ++ ascii "\n"

/-- It depends on no byte but those at the offsets that the handler touches. -/
theorem printed_congr (ht : TextType.ofCode (decodeInt req) = some t)
    (h : ∀ i ∈ handlerOffsets req beyond, memory i = memoryAt req beyond i) :
    printed memory (entryCount req) t = printed (memoryAt req beyond) (entryCount req) t := by
  simp only [handlerOffsets, ht] at h
  cases t with
  | say =>
      simp only [handleTxtSayOffsets, List.forall_mem_append] at h
      obtain ⟨⟨hchannel, husername⟩, htext⟩ := h
      rw [printed, printed, fieldText_congr hchannel, fieldText_congr husername,
        fieldText_congr htext]
  | list =>
      simp only [handleTxtListOffsets, List.forall_mem_append] at h
      rw [printed, printed, entryLines_congr h.2]
  | who =>
      simp only [handleTxtWhoOffsets, List.forall_mem_append] at h
      rw [printed, printed, fieldText_congr h.1.1, entryLines_congr h.2]
  | error => rw [printed, printed, fieldText_congr h]

theorem fieldOffsets_lt (hsize : 0 < size) (hfits : offset + size ≤ len) :
    ∀ i ∈ fieldOffsets memory offset size, i < len := fun i hi => by
  have hbounds := bounds_of_mem_fieldOffsets hsize hi
  omega

theorem intOffsets_lt (hfits : offset + 4 ≤ len) : ∀ i ∈ intOffsets offset, i < len :=
  fun i hi => by
    have hbounds := mem_intOffsets.mp hi
    omega

/-- The handler of a message prints what is in memory, and comes to its end exactly when it
stays inside the receive buffer. -/
theorem handleServerMessage_eq (beyond : ℕ → UInt8) (hlen : req.length = bufferMax)
    (ht : TextType.ofCode (decodeInt req) = some t) (hcheck : checkServerMessage req n = true) :
    handleServerMessage req n =
      if ∀ i ∈ handlerOffsets req beyond, i < bufferMax then
        .ok (printed (memoryAt req beyond) (entryCount req) t)
      else .error .outOfRange := by
  have htext {offset size : ℕ} (hsize : 0 < size) (hfits : offset + size ≤ bufferMax) :
      (CString.ofBuffer size hsize (req.drop offset)).bytes =
        fieldText (memoryAt req beyond) offset size :=
    ofBuffer_drop beyond hsize (hlen ▸ hfits)
  simp only [handleServerMessage, hcheck, Bool.not_true, Bool.false_eq_true, if_false, ht,
    handlerOffsets]
  cases t with
  | say =>
      have hall : ∀ i ∈ handleTxtSayOffsets (memoryAt req beyond), i < bufferMax := by
        simp only [handleTxtSayOffsets, List.forall_mem_append]
        exact ⟨⟨fieldOffsets_lt (by decide) (by decide), fieldOffsets_lt (by decide) (by decide)⟩,
          fieldOffsets_lt (by decide) (by decide)⟩
      rw [if_pos hall, handleTxtSay, htext channelMax_pos (by decide),
        htext usernameMax_pos (by decide), htext sayMax_pos (by decide)]
      rfl
  | list =>
      have hiff : (∀ i ∈ handleTxtListOffsets (memoryAt req beyond) (entryCount req),
          i < bufferMax) ↔ 8 + usernameMax * rounds (entryCount req) ≤ req.length := by
        rw [handleTxtListOffsets, List.forall_mem_append,
          and_iff_right (intOffsets_lt (by decide)),
          entries_lt_iff (by decide : bufferMax = 8 + usernameMax * 1024), hlen]
        simp only [usernameMax, bufferMax]
        omega
      simp only [hiff, handleTxtList]
      rw [printEntries_eq beyond (by rw [hlen]; decide)]
      split <;> rfl
  | who =>
      have hiff : (∀ i ∈ handleTxtWhoOffsets (memoryAt req beyond) (entryCount req),
          i < bufferMax) ↔
            8 + channelMax + usernameMax * rounds (entryCount req) ≤ req.length := by
        rw [handleTxtWhoOffsets, List.forall_mem_append, List.forall_mem_append,
          and_iff_right ⟨fieldOffsets_lt (by decide) (by decide), intOffsets_lt (by decide)⟩,
          entries_lt_iff (by decide : bufferMax = 8 + channelMax + usernameMax * 1023), hlen]
        simp only [usernameMax, channelMax, bufferMax]
        omega
      simp only [hiff, handleTxtWho]
      rw [printEntries_eq beyond (by rw [hlen]; decide), htext channelMax_pos (by decide)]
      split <;> rfl
  | error =>
      have hall : ∀ i ∈ handleTxtErrorOffsets (memoryAt req beyond), i < bufferMax :=
        fieldOffsets_lt (by decide) (by decide)
      rw [if_pos hall, handleTxtError, htext sayMax_pos (by decide)]
      rfl

theorem length_recvfrom (size : ℕ) (data : List UInt8) : (recvfrom size data).1.length = size := by
  rw [recvfrom, List.length_append, List.length_take, length_zeros]
  omega

theorem readFromServer_eq {data : List UInt8} (beyond : ℕ → UInt8)
    (hdata : data.length ≤ bufferMax)
    (ht : TextType.ofCode (decodeInt (recvfrom bufferMax data).1) = some t)
    (hcheck : checkServerMessage (recvfrom bufferMax data).1 data.length = true) :
    readFromServer data =
      if ∀ i ∈ handlerOffsets (recvfrom bufferMax data).1 beyond, i < bufferMax then
        .ok (printed (memoryAt (recvfrom bufferMax data).1 beyond)
          (entryCount (recvfrom bufferMax data).1) t)
      else .error .outOfRange := by
  rw [← handleServerMessage_eq beyond (length_recvfrom bufferMax data) ht hcheck, readFromServer,
    recvfrom_of_le hdata]

/-- A message that passes the check is printed in full exactly when its handler stays inside
the receive buffer. -/
theorem readFromServer_ok_iff {data : List UInt8} (beyond : ℕ → UInt8)
    (hdata : data.length ≤ bufferMax)
    (hcheck : checkServerMessage (recvfrom bufferMax data).1 data.length = true) :
    (∃ out, readFromServer data = .ok out) ↔
      ∀ i ∈ handlerOffsets (recvfrom bufferMax data).1 beyond, i < bufferMax := by
  cases ht : TextType.ofCode (decodeInt (recvfrom bufferMax data).1) with
  | none => simp [checkServerMessage, ht] at hcheck
  | some t =>
      rw [readFromServer_eq beyond hdata ht hcheck]
      split <;> simp_all

end CliMessaging.Client
