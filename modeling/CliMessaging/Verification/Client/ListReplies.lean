import CliMessaging.Verification.Client.Receiving

/-! # List replies at the client

What the client makes of the lists of channels and users that the two servers send. Its
buffer has room for 1024 channels but only for 1023 users. -/

namespace CliMessaging.Client

variable {names : List Cname} {fields : List (Field channelMax)} {channel : Cname}
  {channelField : Field channelMax}

/-- One line for each name. -/
def nameLines (names : List Cname) : List UInt8 :=
  names.flatMap fun name => ascii " " ++ name.bytes ++ ascii "\n"

def channelLines (channels : List Cname) : List UInt8 :=
  ascii "Existing Channels:\n" ++ nameLines channels

def userLines (channel : Cname) (users : List Uname) : List UInt8 :=
  ascii "Users on channel " ++ channel.bytes ++ ascii ":\n" ++ nameLines users

/-! ## The fields of a list -/

theorem holds_map_ofString (names : List Cname) :
    List.Forall₂ Field.Holds (names.map Field.ofString) names := by
  induction names with
  | nil => exact .nil
  | cons name names ih => exact .cons (Field.holds_ofString name) ih

theorem holds_map_terminate (h : List.Forall₂ Field.Holds fields names) :
    List.Forall₂ Field.Holds (fields.map Field.terminate) names := by
  induction h with
  | nil => exact .nil
  | cons hfield _ ih => exact .cons hfield.terminate ih

theorem length_flatMap_bytes (fields : List (Field channelMax)) :
    (fields.flatMap Field.bytes).length = channelMax * fields.length := by
  induction fields with
  | nil => rfl
  | cons f fields ih =>
      rw [List.flatMap_cons, List.length_append, f.length_eq, ih, List.length_cons]
      ring

/-- The loop prints the string of each field, whatever follows them. -/
theorem printEntries_fields (h : List.Forall₂ Field.Holds fields names) (rest : List UInt8) :
    printEntries (fields.flatMap Field.bytes ++ rest) names.length = .ok (nameLines names) := by
  induction h with
  | nil => rfl
  | @cons f name fields names hf _ ih =>
      have hlen : ¬((f.bytes ++ (fields.flatMap Field.bytes ++ rest)).length < usernameMax) := by
        rw [List.length_append, f.length_eq]
        exact Nat.not_lt.mpr (Nat.le_add_right _ _)
      have hdrop : (f.bytes ++ (fields.flatMap Field.bytes ++ rest)).drop usernameMax =
          fields.flatMap Field.bytes ++ rest :=
        List.drop_left' f.length_eq
      rw [List.flatMap_cons, List.append_assoc, List.length_cons, printEntries, if_neg hlen, hdrop,
        ih, hf.ofBuffer]
      rfl

/-! ## Receiving a list -/

theorem rounds_ofNat {n : ℕ} (h : n ≤ 1024) : rounds (UInt32.ofNat n) = n := by
  have hval : (UInt32.ofNat n).toNat = n :=
    UInt32.toNat_ofNat_of_lt' (lt_of_le_of_lt h (by decide))
  rw [rounds, hval, if_pos (by omega)]

/-- The two words of a list arrive, whatever becomes of its entries. -/
theorem recvfrom_header (t : TextType) (n : UInt32) (body : List UInt8) :
    recvfrom bufferMax (encodeInt t.code ++ (encodeInt n ++ body)) =
      (encodeInt t.code ++ (encodeInt n ++ (recvfrom (bufferMax - 8) body).1),
        8 + (recvfrom (bufferMax - 8) body).2) := by
  have hfirst : (encodeInt t.code).length ≤ bufferMax := by simp [bufferMax]
  have hsecond : (encodeInt n).length ≤ bufferMax - (encodeInt t.code).length := by
    simp [bufferMax]
  rw [recvfrom_append hfirst, recvfrom_append hsecond, ← add_assoc]
  rfl

theorem entryCount_header (t : TextType) (n : UInt32) (body : List UInt8) :
    entryCount (encodeInt t.code ++ (encodeInt n ++ body)) = n :=
  decodeInt_encodeInt n body

theorem drop_header (t : TextType) (n : UInt32) (body : List UInt8) :
    (encodeInt t.code ++ (encodeInt n ++ body)).drop 8 = body := rfl

/-- The length that the client computes from the announced number of entries. -/
theorem length_formula (k n : ℕ) :
    UInt32.ofNat (k + channelMax * n) =
      UInt32.ofNat k + UInt32.ofNat channelMax * UInt32.ofNat n := by
  rw [UInt32.ofNat_add, UInt32.ofNat_mul]

theorem check_list (n len : ℕ) (body : List UInt8) :
    checkServerMessage (encodeInt TextType.list.code ++ (encodeInt (UInt32.ofNat n) ++ body)) len =
      decide (UInt32.ofNat len = UInt32.ofNat (8 + channelMax * n)) := by
  rw [checkServerMessage, decodeInt_encodeInt, TextType.ofCode_code, entryCount_header,
    length_formula]
  rfl

theorem check_who (n len : ℕ) (body : List UInt8) :
    checkServerMessage (encodeInt TextType.who.code ++ (encodeInt (UInt32.ofNat n) ++ body)) len =
      decide (UInt32.ofNat len = UInt32.ofNat (8 + channelMax + channelMax * n)) := by
  rw [checkServerMessage, decodeInt_encodeInt, TextType.ofCode_code, entryCount_header,
    length_formula]
  rfl

/-- A list of channels fits into the buffer of the client. -/
theorem textList_survives (h : List.Forall₂ Field.Holds fields names)
    (hlen : names.length ≤ 1024) : Survives (textList fields) (channelLines names) := by
  have hbody := length_flatMap_bytes fields
  have hcount : fields.length = names.length := h.length_eq
  have hfit : (fields.flatMap Field.bytes).length ≤ bufferMax - 8 := by
    simp only [bufferMax, channelMax] at *
    omega
  have hrecv := recvfrom_header .list (UInt32.ofNat fields.length) (fields.flatMap Field.bytes)
  rw [recvfrom_of_le hfit, hbody] at hrecv
  have hcheck := check_list fields.length (8 + channelMax * fields.length)
    (fields.flatMap Field.bytes ++ zeros (bufferMax - 8 - channelMax * fields.length))
  rw [decide_eq_true rfl] at hcheck
  apply survives_of_handled hrecv hcheck
  rw [handleServerMessage, hcheck, decodeInt_encodeInt, TextType.ofCode_code]
  change handleTxtList _ = _
  rw [handleTxtList, drop_header, entryCount_header, hcount, rounds_ofNat hlen,
    printEntries_fields h]
  rfl

/-- A list of users fits when it has at most 1023 entries. -/
theorem textWho_survives (h : List.Forall₂ Field.Holds fields names)
    (hchannel : channelField.Holds channel) (hlen : names.length ≤ 1023) :
    Survives (textWho channelField fields) (userLines channel names) := by
  have hbody := length_flatMap_bytes fields
  have hcount : fields.length = names.length := h.length_eq
  have hlength : (channelField.bytes ++ fields.flatMap Field.bytes).length =
      channelMax + channelMax * fields.length := by
    rw [List.length_append, channelField.length_eq, hbody]
  have hfit : (channelField.bytes ++ fields.flatMap Field.bytes).length ≤ bufferMax - 8 := by
    simp only [bufferMax, channelMax] at *
    omega
  have hrecv := recvfrom_header .who (UInt32.ofNat fields.length)
    (channelField.bytes ++ fields.flatMap Field.bytes)
  rw [recvfrom_of_le hfit, hlength, ← add_assoc, List.append_assoc] at hrecv
  have hcheck := check_who fields.length (8 + channelMax + channelMax * fields.length)
    (channelField.bytes ++ (fields.flatMap Field.bytes ++
      zeros (bufferMax - 8 - (channelMax + channelMax * fields.length))))
  rw [decide_eq_true rfl] at hcheck
  apply survives_of_handled hrecv hcheck
  rw [handleServerMessage, hcheck, decodeInt_encodeInt, TextType.ofCode_code]
  change handleTxtWho _ = _
  rw [handleTxtWho, ← List.drop_drop, drop_header, entryCount_header, hcount,
    rounds_ofNat (by omega), hchannel.ofBuffer, List.drop_left' channelField.length_eq,
    printEntries_fields h]
  rfl

/-- A list of 1024 users is cut off and refused. -/
theorem textWho_refused (hlen : fields.length = 1024) (out : List UInt8) :
    ¬Survives (textWho channelField fields) out := by
  have hlength : bufferMax - 8 < (channelField.bytes ++ fields.flatMap Field.bytes).length := by
    rw [List.length_append, channelField.length_eq, length_flatMap_bytes, hlen]
    simp only [bufferMax, channelMax]
    omega
  have hwrong : UInt32.ofNat (8 + (bufferMax - 8)) ≠
      UInt32.ofNat (8 + channelMax + channelMax * 1024) := by
    intro h
    have hval := congrArg UInt32.toNat h
    simp only [bufferMax, channelMax, UInt32.toNat_ofNat'] at hval
    omega
  rw [Survives, textWho, recvfrom_header, recvfrom_of_lt hlength, check_who, hlen,
    decide_eq_false hwrong]
  exact fun h => Bool.false_ne_true h.1

/-- Of at most 1024 users, the list survives exactly when it has fewer. -/
theorem textWho_survives_iff (h : List.Forall₂ Field.Holds fields names)
    (hchannel : channelField.Holds channel) (hlen : names.length ≤ 1024) :
    Survives (textWho channelField fields) (userLines channel names) ↔ names.length ≤ 1023 := by
  have hcount : fields.length = names.length := h.length_eq
  constructor
  · intro hsurvives
    by_contra hmany
    exact textWho_refused (by omega) _ hsurvives
  · exact textWho_survives h hchannel

/-! ## The replies of the two servers -/

/-- For at most 1024 names the list of channels always survives, and the list of users
survives exactly when it has fewer entries than that. -/
theorem listReplies_survive_iff {users : List Uname} {channels : List Cname}
    {userFields : List (Field usernameMax)} {channelFields : List (Field channelMax)}
    (hchannels : channels.length ≤ 1024) (husers : users.length ≤ 1024)
    (hchannelFields : List.Forall₂ Field.Holds channelFields channels)
    (huserFields : List.Forall₂ Field.Holds userFields users)
    (hchannel : channelField.Holds channel) :
    Survives (Standalone.encodeChannelList channels) (channelLines channels) ∧
      Survives (Distributed.encodeChannelList channelFields) (channelLines channels) ∧
      (Survives (Standalone.encodeUserList users channel) (userLines channel users) ↔
        users.length ≤ 1023) ∧
      (Survives (Distributed.encodeWho channelField userFields) (userLines channel users) ↔
        users.length ≤ 1023) := by
  refine ⟨textList_survives (holds_map_ofString channels) hchannels,
    textList_survives (holds_map_terminate hchannelFields) hchannels, ?_, ?_⟩
  · exact textWho_survives_iff (holds_map_ofString users) (Field.holds_ofString channel) husers
  · exact textWho_survives_iff (holds_map_terminate huserFields) hchannel.terminate husers

/-- A field of the network code, with what its buffer held behind the NUL. -/
def leftover (name : CString usernameMax) : Field usernameMax :=
  ⟨name.bytes ++ 0 :: .replicate (usernameMax - 1 - name.bytes.length) 120, by
    have hlen := name.length_lt
    rw [List.length_append, List.length_cons, List.length_replicate]
    omega⟩

theorem holds_leftover (names : List Cname) :
    List.Forall₂ Field.Holds (names.map leftover) names := by
  induction names with
  | nil => exact .nil
  | cons name names ih => exact .cons ⟨_, rfl⟩ ih

/-- The replies of both servers about two channels, and about three users on one of them. -/
theorem listReplies_survive_three :
    let alice := CString.ofBuffer usernameMax (by decide) (ascii "alice")
    let bob := CString.ofBuffer usernameMax (by decide) (ascii "bob")
    let carol := CString.ofBuffer usernameMax (by decide) (ascii "carol")
    let common := CString.ofBuffer channelMax (by decide) (ascii "Common")
    let help := CString.ofBuffer channelMax (by decide) (ascii "help")
    Survives (Standalone.encodeChannelList [common, help]) (channelLines [common, help]) ∧
      Survives (Distributed.encodeChannelList ([common, help].map leftover))
        (channelLines [common, help]) ∧
      Survives (Standalone.encodeUserList [alice, bob, carol] common)
        (userLines common [alice, bob, carol]) ∧
      Survives (Distributed.encodeWho (leftover common) ([alice, bob, carol].map leftover))
        (userLines common [alice, bob, carol]) := by
  intro alice bob carol common help
  have hchannels : [common, help].length ≤ 1024 := by decide
  have husers : [alice, bob, carol].length ≤ 1024 := by decide
  have hcommon : (leftover common).Holds common := ⟨_, rfl⟩
  obtain ⟨hlist, hlist', hwho, hwho'⟩ := listReplies_survive_iff hchannels husers
    (holds_leftover [common, help]) (holds_leftover [alice, bob, carol]) hcommon
  exact ⟨hlist, hlist', hwho.mpr (by decide), hwho'.mpr (by decide)⟩

/-- 1024 users of one name each fill more than the buffer. -/
theorem userList_1024_refused :
    let alice := CString.ofBuffer usernameMax (by decide) (ascii "alice")
    let common := CString.ofBuffer channelMax (by decide) (ascii "Common")
    ¬Survives (Standalone.encodeUserList (List.replicate 1024 alice) common)
      (userLines common (List.replicate 1024 alice)) :=
  textWho_refused (by rw [List.length_map, List.length_replicate]) _

end CliMessaging.Client
