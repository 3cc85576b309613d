import CliMessaging.Model.Distributed.Wire
import CliMessaging.Verification.Reception

/-! # What the bytes are taken for

The numbers of the texts are those of the first requests, but no text has the length of
such a request. So a server reads from the bytes of another server the message that was
sent, and takes no text for a request. -/

namespace CliMessaging

/-! ## Texts -/

/-- What bears the number of a type but not its length is not well sized, cut off or not. -/
theorem not_sized {sizeOf : UInt32 → Option ℕ} {size k : ℕ} {data : List UInt8}
    (hsize : sizeOf (decodeInt data) = some k) (hlen : k ≠ data.length) (hbuf : k ≠ size) :
    ¬ (WellSized sizeOf data ∨ (size < data.length ∧ sizeOf (decodeInt data) = some size)) := by
  rintro (⟨-, h⟩ | ⟨-, h⟩)
  · rw [hsize] at h
    exact hlen (Option.some.inj h)
  · rw [hsize] at h
    exact hbuf (Option.some.inj h)

/-- The request that bears the number of a text. -/
def TextType.namesake : TextType → RequestType
  | .say => .login
  | .list => .logout
  | .who => .join
  | .error => .leave

theorem TextType.code_namesake (t : TextType) : t.namesake.code = t.code := by
  cases t <;> rfl

/-- Neither server takes a text whose length is not that of its namesake. -/
theorem text_not_accepted (t : TextType) {body : List UInt8}
    (hlen : t.namesake.size ≠ 4 + body.length) :
    (¬ ∃ req, Standalone.Accepts (encodeInt t.code ++ body) req) ∧
      ¬ ∃ req, Distributed.Accepts (encodeInt t.code ++ body) req := by
  have hcode : decodeInt (encodeInt t.code ++ body) = t.namesake.code := by
    rw [decodeInt_encodeInt, t.code_namesake]
  have hdata : t.namesake.size ≠ (encodeInt t.code ++ body).length := by
    rwa [List.length_append, length_encodeInt]
  constructor
  · rw [Standalone.exists_accepts_iff, recvfrom_sized Standalone.requestSize_bounds (by decide)]
    refine not_sized (k := t.namesake.size) ?_ hdata (by cases t <;> decide)
    rw [hcode, Standalone.requestSize, RequestType.ofCode_code]
    rfl
  · rw [Distributed.exists_accepts_iff, recvfrom_sized Distributed.packetSize_bounds (by decide)]
    refine not_sized (k := t.namesake.size) ?_ hdata (by cases t <;> decide)
    rw [hcode, Distributed.packetSize, Distributed.PacketType.ofCode, RequestType.ofCode_code]
    rfl

theorem textSay_not_accepted (channel : Field channelMax) (username : Field usernameMax)
    (text : Field sayMax) :
    (¬ ∃ req, Standalone.Accepts (textSay channel username text) req) ∧
      ¬ ∃ req, Distributed.Accepts (textSay channel username text) req := by
  apply text_not_accepted .say
  rw [List.length_append, List.length_append, channel.length_eq, username.length_eq, text.length_eq]
  decide

theorem textList_not_accepted (channels : List (Field channelMax)) :
    (¬ ∃ req, Standalone.Accepts (textList channels) req) ∧
      ¬ ∃ req, Distributed.Accepts (textList channels) req := by
  apply text_not_accepted .list
  rw [List.length_append, length_encodeInt]
  change 4 ≠ _
  omega

theorem textWho_not_accepted (channel : Field channelMax) (users : List (Field usernameMax)) :
    (¬ ∃ req, Standalone.Accepts (textWho channel users) req) ∧
      ¬ ∃ req, Distributed.Accepts (textWho channel users) req := by
  apply text_not_accepted .who
  rw [List.length_append, length_encodeInt, List.length_append, channel.length_eq]
  change 4 + channelMax ≠ _
  omega

theorem textError_not_accepted (error : Field sayMax) :
    (¬ ∃ req, Standalone.Accepts (textError error) req) ∧
      ¬ ∃ req, Distributed.Accepts (textError error) req := by
  apply text_not_accepted .error
  rw [error.length_eq]
  decide

theorem Standalone.encodeText_not_accepted (text : Text) :
    (¬ ∃ req, Standalone.Accepts (Standalone.encodeText text) req) ∧
      ¬ ∃ req, Distributed.Accepts (Standalone.encodeText text) req := by
  cases text with
  | say channel username text => exact textSay_not_accepted _ _ _
  | list channels => exact textList_not_accepted _
  | who channel usernames => exact textWho_not_accepted _ _
  | error text => exact textError_not_accepted _

namespace Distributed

variable {msg : Msg} {data : List UInt8}

@[simp] theorem PacketType.ofCode_code (t : PacketType) : ofCode t.code = some t := by
  cases t with
  | client t => simp [ofCode, code]
  | _ => rfl

/-! ## Server-to-server messages -/

/-- A request of the right size is read whole. -/
theorem checkRequest_of_size (t : PacketType) (body : List UInt8) (hlen : 4 + body.length = t.size)
    (hmax : t.size ≤ bufSize) :
    ∃ rest, checkRequest (recvfrom bufSize (encodeInt t.code ++ body)).1
      (recvfrom bufSize (encodeInt t.code ++ body)).2 =
        some (readRequest (encodeInt t.code ++ (body ++ rest)) t) := by
  have hsize : (encodeInt t.code ++ body).length = t.size := by
    rw [List.length_append, length_encodeInt, hlen]
  refine ⟨zeros (bufSize - t.size), ?_⟩
  rw [recvfrom_of_le (hsize.trans_le hmax), hsize, List.append_assoc, checkRequest,
    if_neg (by omega), decodeInt_encodeInt, PacketType.ofCode_code]
  exact if_neg (not_not_intro rfl)

theorem accepts_s2sJoin {channel : Cname} {f : Field channelMax} (h : f.Holds channel) :
    Accepts (structS2sJoin f) (.s2s (.join channel)) := by
  obtain ⟨rest, hread⟩ := checkRequest_of_size .s2sJoin f.bytes
    (by rw [f.length_eq]; rfl) (by decide)
  rw [Accepts, structS2sJoin, hread, readRequest, List.drop_left' (length_encodeInt _),
    h.ofBuffer]

theorem accepts_s2sLeave {channel : Cname} {f : Field channelMax} (h : f.Holds channel) :
    Accepts (structS2sLeave f) (.s2s (.leave channel)) := by
  obtain ⟨rest, hread⟩ := checkRequest_of_size .s2sLeave f.bytes
    (by rw [f.length_eq]; rfl) (by decide)
  rw [Accepts, structS2sLeave, hread, readRequest, List.drop_left' (length_encodeInt _),
    h.ofBuffer]

theorem accepts_s2sSay {username : Uname} {channel : Cname} {text : SayText}
    {f : Field usernameMax} {g : Field channelMax} {k : Field sayMax} (uid : MsgUid)
    (hf : f.Holds username) (hg : g.Holds channel) (hk : k.Holds text) :
    Accepts (structS2sSay uid f g k) (.s2s (.say uid username channel text)) := by
  obtain ⟨rest, hread⟩ := checkRequest_of_size .s2sSay
    (encodeLong uid ++ (f.bytes ++ (g.bytes ++ k.bytes)))
    (by simp only [List.length_append, length_encodeLong, f.length_eq, g.length_eq, k.length_eq]
        rfl) (by decide)
  have huid : ∀ tail, (encodeInt PacketType.s2sSay.code ++ tail).drop 4 = tail :=
    fun _ => List.drop_left' (length_encodeInt _)
  have hname : ∀ tail, (encodeLong uid ++ tail).drop 8 = tail :=
    fun _ => List.drop_left' (length_encodeLong uid)
  have hchan : ∀ tail, (f.bytes ++ tail).drop usernameMax = tail :=
    fun _ => List.drop_left' f.length_eq
  have htext : ∀ tail, (g.bytes ++ tail).drop channelMax = tail :=
    fun _ => List.drop_left' g.length_eq
  rw [Accepts, structS2sSay, hread]
  simp only [readRequest, List.append_assoc, ← List.drop_drop, huid, hname, hchan, htext,
    decodeLong_encodeLong, hf.ofBuffer, hg.ofBuffer, hk.ofBuffer]

/-- The standalone server knows no server-to-server messages. -/
theorem s2s_not_accepted (t : PacketType) (body : List UInt8)
    (hnone : RequestType.ofCode t.code = none) :
    ¬ ∃ req, Standalone.Accepts (encodeInt t.code ++ body) req := by
  rw [Standalone.exists_accepts_iff, recvfrom_sized Standalone.requestSize_bounds (by decide),
    decodeInt_encodeInt, Standalone.requestSize, hnone]
  rintro (⟨-, h⟩ | ⟨-, h⟩)
  · rw [decodeInt_encodeInt, Standalone.requestSize, hnone] at h
    cases h
  · cases h

/-! ## The round trip -/

/-- A server that receives what another has sent reads the server-to-server message that
was sent, and nothing else. Neither server reads a request from any text. -/
theorem encodes_accepts_iff (henc : Encodes msg data) (req : Request) :
    Accepts data req ↔ ∃ m, msg = .s2s m ∧ req = .s2s m := by
  have hread : ∀ m, msg = .s2s m → Accepts data (.s2s m) →
      (Accepts data req ↔ ∃ m, msg = .s2s m ∧ req = .s2s m) := by
    rintro m rfl hacc
    constructor
    · intro hreq
      rw [Accepts] at hacc hreq
      rw [hacc] at hreq
      exact ⟨m, rfl, (Option.some.inj hreq).symm⟩
    · rintro ⟨m', hm, rfl⟩
      cases hm
      exact hacc
  have htext : (¬ ∃ req, Accepts data req) → (∀ m, msg ≠ .s2s m) →
      (Accepts data req ↔ ∃ m, msg = .s2s m ∧ req = .s2s m) := by
    intro hnone hmsg
    constructor
    · exact fun hreq => absurd ⟨req, hreq⟩ hnone
    · rintro ⟨m, hm, -⟩
      exact absurd hm (hmsg m)
  cases henc with
  | say hc hu ht => exact htext (textSay_not_accepted _ _ _).2 fun _ => Msg.noConfusion
  | list hfields => exact htext (textList_not_accepted _).2 fun _ => Msg.noConfusion
  | who hc hfields => exact htext (textWho_not_accepted _ _).2 fun _ => Msg.noConfusion
  | s2sJoin hc => exact hread _ rfl (accepts_s2sJoin hc.terminate)
  | s2sLeave hc => exact hread _ rfl (accepts_s2sLeave hc.terminate)
  | s2sSay uid hu hc ht =>
      exact hread _ rfl (accepts_s2sSay uid hu.terminate hc.terminate ht.terminate)

/-- What a distributed server sends is read by every server that receives it as the
server-to-server message that it is, if it is one. No text of either server is taken for a
request, by either. -/
theorem messages_are_read_as_sent (henc : Encodes msg data) (text : Text) :
    (∀ req, Accepts data req ↔ ∃ m, msg = .s2s m ∧ req = .s2s m) ∧
      (¬ ∃ req, Standalone.Accepts data req) ∧
      (¬ ∃ req, Standalone.Accepts (Standalone.encodeText text) req) ∧
      ¬ ∃ req, Accepts (Standalone.encodeText text) req := by
  refine ⟨encodes_accepts_iff henc, ?_, Standalone.encodeText_not_accepted text⟩
  cases henc with
  | say hc hu ht => exact (textSay_not_accepted _ _ _).1
  | list hfields => exact (textList_not_accepted _).1
  | who hc hfields => exact (textWho_not_accepted _ _).1
  | s2sJoin hc => exact s2s_not_accepted .s2sJoin _ (by decide)
  | s2sLeave hc => exact s2s_not_accepted .s2sLeave _ (by decide)
  | s2sSay uid hu hc ht => exact s2s_not_accepted .s2sSay _ (by decide)

/-- The say of the examples, with whatever stands in the fields behind the strings. -/
theorem messages_are_read_as_sent_greeting :
    Accepts (encodeS2sSay 7 (.ofString alice) (.ofString chat) (.ofString hello))
      (.s2s (.say 7 alice chat hello)) := by
  have henc : Encodes (.s2s (.say 7 alice chat hello)) _ :=
    .s2sSay 7 (Field.holds_ofString alice) (Field.holds_ofString chat) (Field.holds_ofString hello)
  exact ((messages_are_read_as_sent henc (.list [])).1 _).mpr ⟨_, rfl, rfl⟩

/-! ## Requests of clients -/

/-- What the two servers read from their buffers, the longer of which goes on with zeros. -/
theorem readRequest_client {buffer : List UInt8} (hlen : Standalone.bufSize ≤ buffer.length)
    {t : RequestType} (hcode : RequestType.ofCode (decodeInt buffer) = some t)
    (rest : List UInt8) (req : ClientRequest) :
    readRequest (buffer ++ rest) (.client t) = .client req ↔
      Standalone.readRequest buffer = some req := by
  have hsize : Standalone.bufSize = 100 := rfl
  have hchannel : channelMax = 32 := rfl
  have hsay : sayMax = 64 := rfl
  have hname : CString.ofBuffer channelMax channelMax_pos ((buffer ++ rest).drop 4) =
      CString.ofBuffer channelMax channelMax_pos (buffer.drop 4) := by
    rw [List.drop_append_of_le_length (by omega)]
    apply CString.ofBuffer_append
    rw [List.length_drop]
    omega
  have htext : CString.ofBuffer sayMax sayMax_pos ((buffer ++ rest).drop (4 + channelMax)) =
      CString.ofBuffer sayMax sayMax_pos (buffer.drop (4 + channelMax)) := by
    rw [List.drop_append_of_le_length (by omega)]
    apply CString.ofBuffer_append
    rw [List.length_drop]
    omega
  rw [Standalone.readRequest, hcode, Option.map_some, Option.some.injEq]
  cases t with
  | say => simp only [readRequest, hname, htext, Request.client.injEq]
  | logout => simp only [readRequest, Request.client.injEq]
  | list => simp only [readRequest, Request.client.injEq]
  | keepAlive => simp only [readRequest, Request.client.injEq]
  | _ => simp only [readRequest, hname, Request.client.injEq]

theorem checkRequest_client_iff (buffer : List UInt8) (n : ℕ) (req : ClientRequest) :
    checkRequest buffer n = some (.client req) ↔
      ∃ t, RequestType.ofCode (decodeInt buffer) = some t ∧ t.size = n ∧
        readRequest buffer (.client t) = .client req := by
  cases hcode : RequestType.ofCode (decodeInt buffer) with
  | some t =>
      have hpacket : PacketType.ofCode (decodeInt buffer) = some (.client t) := by
        rw [PacketType.ofCode, hcode]
      have hmin : 4 ≤ t.size := by cases t <;> decide
      have hsize : (PacketType.client t).size = t.size := rfl
      simp only [checkRequest, hpacket, hsize]
      by_cases hlen : t.size = n
      · rw [if_neg (by omega), if_neg (not_not_intro hlen)]
        simp [hlen]
      · simp [hlen]
  | none =>
      have hnone : checkRequest buffer n ≠ some (.client req) := by
        intro hreq
        unfold checkRequest at hreq
        split at hreq
        · cases hreq
        · split at hreq
          · cases hreq
          · rename_i t ht
            simp only [PacketType.ofCode, hcode] at ht
            have hs2s := List.mem_of_find?_eq_some ht
            split at hreq
            · cases hreq
            · simp only [List.mem_cons, List.not_mem_nil, or_false] at hs2s
              rcases hs2s with rfl | rfl | rfl <;> simp [readRequest] at hreq
      simp [hnone]

theorem standalone_accepts_iff (data : List UInt8) (req : ClientRequest) :
    Standalone.Accepts data req ↔
      ∃ t, RequestType.ofCode (decodeInt (recvfrom Standalone.bufSize data).1) = some t ∧
        t.size = (recvfrom Standalone.bufSize data).2 ∧
          Standalone.readRequest (recvfrom Standalone.bufSize data).1 = some req := by
  cases hcode : RequestType.ofCode (decodeInt (recvfrom Standalone.bufSize data).1) with
  | none => simp [Standalone.Accepts, Standalone.readRequest, hcode]
  | some t => simp [Standalone.Accepts, Standalone.testValid, hcode, eq_comm]

/-- The buffer of a distributed server is the longer one. -/
theorem recvfrom_both {data : List UInt8} (h : data.length ≤ Standalone.bufSize) :
    recvfrom bufSize data = ((recvfrom Standalone.bufSize data).1 ++ zeros 40, data.length) := by
  have hlong : bufSize = Standalone.bufSize + 40 := rfl
  have hrest : bufSize - data.length = Standalone.bufSize - data.length + 40 := by omega
  rw [recvfrom_of_le (h.trans (by omega)), recvfrom_of_le h, hrest, zeros, List.replicate_add,
    ← List.append_assoc]
  rfl

/-- A client may talk to either server: a distributed server takes from a datagram the
request of a client that the standalone server takes from it, except that the standalone
server cuts off what is too long. -/
theorem client_requests_agree (data : List UInt8) (req : ClientRequest) :
    Accepts data (.client req) ↔
      Standalone.Accepts data req ∧ data.length ≤ Standalone.bufSize := by
  rw [Accepts, checkRequest_client_iff]
  by_cases hlen : data.length ≤ Standalone.bufSize
  · have hbuf : (recvfrom Standalone.bufSize data).1.length = Standalone.bufSize := by
      rw [recvfrom_of_le hlen, List.length_append, length_zeros]
      omega
    have hmin : 4 ≤ (recvfrom Standalone.bufSize data).1.length := by
      rw [hbuf]
      decide
    have hcount : (recvfrom Standalone.bufSize data).2 = data.length := Nat.min_eq_left hlen
    rw [standalone_accepts_iff, recvfrom_both hlen, decodeInt_append hmin, hcount]
    simp only [hlen, and_true]
    apply exists_congr
    intro t
    apply and_congr_right
    intro hcode
    rw [readRequest_client hbuf.ge hcode]
  · constructor
    · rintro ⟨t, -, hsize, -⟩
      have hmax := Standalone.requestType_size_le t
      have hcount : (recvfrom bufSize data).2 = min data.length bufSize := rfl
      have hlong : Standalone.bufSize < bufSize := by decide
      omega
    · exact fun h => absurd h.2 hlen

end Distributed

end CliMessaging
