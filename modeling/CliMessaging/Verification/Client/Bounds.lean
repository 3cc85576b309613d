import CliMessaging.Verification.Client.Accesses

/-! # Bounds of the messages from the server

Whether the handler of an accepted message stays inside the bytes that were received. The
length is checked modulo 2^32, so a count of entries that does not fit the message can pass
the check. -/

namespace CliMessaging.Client

variable {memory : ℕ → UInt8} {req : List UInt8} {beyond : ℕ → UInt8} {len i offset size n : ℕ}

/-! ## Messages -/

/-- The announced entries have room in the receive buffer, and a list of users has a
channel. -/
def CountFits (req : List UInt8) (len : ℕ) : Prop :=
  match TextType.ofCode (decodeInt req) with
  | some .list => 8 + channelMax * rounds (entryCount req) ≤ bufferMax
  | some .who => 8 + channelMax ≤ len ∧
      8 + channelMax + usernameMax * rounds (entryCount req) ≤ bufferMax
  | _ => True

/-- A length that passes the check fits the number of entries modulo 2^27, so the loop runs
over the entries that are there, or over too many, or over none. -/
theorem rounds_of_check {k : ℕ} {count : UInt32} (hk : k ≤ 40) (hlen : len ≤ bufferMax)
    (hcheck : UInt32.ofNat len = UInt32.ofNat k + UInt32.ofNat usernameMax * count)
    (hfits : k ≤ len) : ∃ n, len = k + usernameMax * n ∧
      (rounds count = n ∨ rounds count = 0 ∨ 2 ^ 27 ≤ rounds count) := by
  have hnat := congrArg UInt32.toNat hcheck
  rw [UInt32.toNat_add, UInt32.toNat_mul, UInt32.toNat_ofNat', UInt32.toNat_ofNat',
    UInt32.toNat_ofNat'] at hnat
  simp only [usernameMax, bufferMax, rounds] at *
  refine ⟨(len - k) / 32, by omega, ?_⟩
  split <;> omega

/-- The loop over the entries of an accepted message. -/
theorem entries_of_check {k : ℕ} {count : UInt32} (hk : k ≤ 40) (hlen : len ≤ bufferMax)
    (hcheck : UInt32.ofNat len = UInt32.ofNat k + UInt32.ofNat usernameMax * count)
    (hfits : k ≤ len) : (∀ i ∈ entryOffsets memory k (rounds count), i < len) ↔
      k + usernameMax * rounds count ≤ bufferMax := by
  obtain ⟨n, hn, hrounds⟩ := rounds_of_check hk hlen hcheck hfits
  rw [entries_lt_iff hn]
  simp only [usernameMax, bufferMax] at *
  omega

theorem say_lt (hlen : len = 4 + channelMax + usernameMax + sayMax) :
    ∀ i ∈ handleTxtSayOffsets memory, i < len := by
  simp only [handleTxtSayOffsets, List.forall_mem_append]
  exact ⟨⟨fieldOffsets_lt channelMax_pos (by omega), fieldOffsets_lt usernameMax_pos (by omega)⟩,
    fieldOffsets_lt sayMax_pos (by omega)⟩

theorem error_lt (hlen : len = 4 + sayMax) : ∀ i ∈ handleTxtErrorOffsets memory, i < len :=
  fieldOffsets_lt sayMax_pos hlen.ge

theorem list_lt_iff {count : UInt32} (hlen : len ≤ bufferMax)
    (hcheck : UInt32.ofNat len = UInt32.ofNat 8 + UInt32.ofNat usernameMax * count) :
    (∀ i ∈ handleTxtListOffsets memory count, i < len) ↔
      8 + usernameMax * rounds count ≤ bufferMax := by
  have hfits : 8 ≤ len := by
    have hnat := congrArg UInt32.toNat hcheck
    rw [UInt32.toNat_add, UInt32.toNat_mul, UInt32.toNat_ofNat', UInt32.toNat_ofNat',
      UInt32.toNat_ofNat'] at hnat
    simp only [usernameMax, bufferMax] at *
    omega
  rw [handleTxtListOffsets, List.forall_mem_append, and_iff_right (intOffsets_lt (by omega))]
  exact entries_of_check (by omega) hlen hcheck hfits

theorem who_lt_iff {count : UInt32} (hlen : len ≤ bufferMax)
    (hcheck : UInt32.ofNat len =
      UInt32.ofNat (8 + channelMax) + UInt32.ofNat usernameMax * count) :
    (∀ i ∈ handleTxtWhoOffsets memory count, i < len) ↔
      8 + channelMax ≤ len ∧ 8 + channelMax + usernameMax * rounds count ≤ bufferMax := by
  rw [handleTxtWhoOffsets, List.forall_mem_append, List.forall_mem_append]
  constructor
  · rintro ⟨⟨hchannel, -⟩, hentries⟩
    have hlast := hchannel _ (last_mem_fieldOffsets memory 8 channelMax)
    have hfits : 8 + channelMax ≤ len := by
      simp only [channelMax] at hlast ⊢
      omega
    exact ⟨hfits, (entries_of_check (by decide) hlen hcheck hfits).mp hentries⟩
  · rintro ⟨hfits, hroom⟩
    exact ⟨⟨fieldOffsets_lt channelMax_pos hfits, intOffsets_lt (by omega)⟩,
      (entries_of_check (by decide) hlen hcheck hfits).mpr hroom⟩

theorem offsets_lt_iff {data : List UInt8} (hdata : data.length ≤ bufferMax)
    (hcheck : checkServerMessage (recvfrom bufferMax data).1 data.length = true)
    (beyond : ℕ → UInt8) :
    (∀ i ∈ handlerOffsets (recvfrom bufferMax data).1 beyond, i < data.length) ↔
      CountFits (recvfrom bufferMax data).1 data.length := by
  rw [checkServerMessage] at hcheck
  rw [handlerOffsets, CountFits]
  cases htype : TextType.ofCode (decodeInt (recvfrom bufferMax data).1) with
  | none => simp
  | some t =>
      simp only [htype] at hcheck ⊢
      cases t with
      | say => exact iff_true_intro (say_lt (of_decide_eq_true hcheck).symm)
      | list => exact list_lt_iff hdata (of_decide_eq_true hcheck)
      | who =>
          apply who_lt_iff hdata
          have hlen := of_decide_eq_true hcheck
          rwa [UInt32.ofNat_add]
      | error => exact iff_true_intro (error_lt (of_decide_eq_true hcheck))

/-- A message whose entries fit is printed from the bytes that were received, whatever the
rest of the memory holds. -/
theorem readFromServer_of_fits {data : List UInt8} {t : TextType}
    (hdata : data.length ≤ bufferMax)
    (hcheck : checkServerMessage (recvfrom bufferMax data).1 data.length = true)
    (ht : TextType.ofCode (decodeInt (recvfrom bufferMax data).1) = some t)
    (hfits : CountFits (recvfrom bufferMax data).1 data.length)
    (hmemory : ∀ i (h : i < data.length), memory i = data[i]) :
    readFromServer data =
      .ok (printed memory (entryCount (recvfrom bufferMax data).1) t) := by
  have hlt := (offsets_lt_iff hdata hcheck fun _ => 0).mpr hfits
  have hbuffer : ∀ i ∈ handlerOffsets (recvfrom bufferMax data).1 (fun _ => 0), i < bufferMax :=
    fun i hi => (hlt i hi).trans_le hdata
  have hsame : ∀ i ∈ handlerOffsets (recvfrom bufferMax data).1 (fun _ => 0),
      memory i = memoryAt (recvfrom bufferMax data).1 (fun _ => 0) i := by
    intro i hi
    rw [hmemory i (hlt i hi), memoryAt_eq (by rw [length_recvfrom]; exact hbuffer i hi)]
    simp only [recvfrom_of_le hdata, List.getElem_append_left (hlt i hi)]
  rw [readFromServer_eq (fun _ => 0) hdata ht hcheck, if_pos hbuffer, printed_congr ht hsame]

/-- The handler of an accepted message touches only bytes that were received, exactly when
the announced entries have room in the receive buffer and a list of users has a channel. The
message is printed in full as long as the handler stays inside the buffer. -/
theorem handlerOffsets_lt_iff {data : List UInt8} (hdata : data.length ≤ bufferMax)
    (hcheck : checkServerMessage (recvfrom bufferMax data).1 data.length = true)
    (beyond : ℕ → UInt8) :
    ((∀ i ∈ handlerOffsets (recvfrom bufferMax data).1 beyond, i < data.length) ↔
      CountFits (recvfrom bufferMax data).1 data.length) ∧
    ((∃ out, readFromServer data = .ok out) ↔
      ∀ i ∈ handlerOffsets (recvfrom bufferMax data).1 beyond, i < bufferMax) :=
  ⟨offsets_lt_iff hdata hcheck beyond, readFromServer_ok_iff beyond hdata hcheck⟩

/-- The users alice and bob of a channel, as a server sends them. -/
def twoUsers : List UInt8 := textWho (.ofString chat) [.ofString alice, .ofString bob]

/-- The last byte of each of the two names is overwritten, and no byte is touched that was
not received. -/
theorem handlerOffsets_lt_twoUsers :
    71 ∈ handlerOffsets (recvfrom bufferMax twoUsers).1 (fun _ => 0) ∧
      103 ∈ handlerOffsets (recvfrom bufferMax twoUsers).1 (fun _ => 0) ∧
      twoUsers.length = 104 ∧
      ∀ i ∈ handlerOffsets (recvfrom bufferMax twoUsers).1 (fun _ => 0), i < 104 := by
  have hrounds : rounds (entryCount (recvfrom bufferMax twoUsers).1) = 2 := by decide
  have hcheck : checkServerMessage (recvfrom bufferMax twoUsers).1 twoUsers.length = true := by
    decide
  have hfits : CountFits (recvfrom bufferMax twoUsers).1 twoUsers.length :=
    (by decide : 8 + channelMax ≤ 104 ∧ 8 + channelMax + usernameMax *
      rounds (entryCount (recvfrom bufferMax twoUsers).1) ≤ bufferMax)
  have hlast : ∀ k < 2, 8 + channelMax + usernameMax * k + usernameMax - 1 ∈
      handlerOffsets (recvfrom bufferMax twoUsers).1 (fun _ => 0) := fun k hk =>
    List.mem_append_right _ (last_mem_entryOffsets _ _ (hrounds ▸ hk))
  exact ⟨hlast 0 (by decide), hlast 1 (by decide), by decide,
    (handlerOffsets_lt_iff (by decide) hcheck _).1.mpr hfits⟩

/-- A list of 2^27 channels in eight bytes passes the check, and the first channel is
terminated outside them. -/
theorem handlerOffsets_wrap : ¬ ∀ (data : List UInt8) (beyond : ℕ → UInt8),
    data.length ≤ bufferMax →
    checkServerMessage (recvfrom bufferMax data).1 data.length = true →
    ∀ i ∈ handlerOffsets (recvfrom bufferMax data).1 beyond, i < data.length := by
  intro hall
  have hbounds := hall [1, 0, 0, 0, 0, 0, 0, 8] (fun _ => 0) (by decide) (by decide)
  have hcount : 0 < rounds (entryCount (recvfrom bufferMax [1, 0, 0, 0, 0, 0, 0, 8]).1) := by decide
  have hlast := hbounds 39 (List.mem_append_right _ (last_mem_entryOffsets _ 8 hcount))
  exact absurd hlast (by decide)

end CliMessaging.Client
