import CliMessaging.Model.Distributed.Receive
import CliMessaging.Verification.Standalone.Datagrams

/-! # What the two servers take

Both servers compare the number of bytes that `recvfrom` returns with the size of the type
in the first word, and the buffer of each is as large as its largest request. So each takes
the datagrams that are well sized, and every longer datagram of the largest type. -/

namespace CliMessaging

/-- What is well sized is not cut off. -/
theorem not_cut_of_wellSized {sizeOf : UInt32 → Option ℕ} {size : ℕ} {data : List UInt8}
    {P : Prop} (hsizes : ∀ w k, sizeOf w = some k → 4 ≤ k ∧ k ≤ size) (h : WellSized sizeOf data) :
    ¬ (size < data.length ∧ P) := fun hcut =>
  absurd (hsizes _ _ h.2).2 (Nat.not_le.mpr hcut.1)

/-- A server that takes the messages that are well sized and some that are cut off. -/
theorem exact_iff {runs sized cut unchanged : Prop} (hruns : runs ↔ sized ∨ cut)
    (hcut : sized → ¬ cut) (hrest : ¬ runs → unchanged) :
    (runs ↔ sized) ∧ (¬ sized → unchanged) ↔ ¬ cut := by
  constructor
  · rintro ⟨hexact, -⟩ h
    exact hcut (hexact.mp (hruns.mpr (Or.inr h))) h
  · intro h
    have hexact : runs ↔ sized := hruns.trans (or_iff_left h)
    exact ⟨hexact, fun hsized => hrest (mt hexact.mp hsized)⟩

/-! ## The standalone server -/

namespace Standalone

/-- The size of a request, by the word of its type. -/
def requestSize (w : UInt32) : Option ℕ := (RequestType.ofCode w).map RequestType.size

theorem requestSize_bounds (w : UInt32) (k : ℕ) (h : requestSize w = some k) :
    4 ≤ k ∧ k ≤ bufSize := by
  obtain ⟨t, -, rfl⟩ := Option.map_eq_some_iff.mp h
  exact ⟨by cases t <;> decide, requestType_size_le t⟩

theorem requestSize_eq_bufSize {w : UInt32} :
    requestSize w = some bufSize ↔ RequestType.ofCode w = some .say := by
  rw [requestSize, Option.map_eq_some_iff]
  constructor
  · rintro ⟨t, ht, hsize⟩
    cases t <;> first | exact ht | exact absurd hsize (by decide)
  · exact fun h => ⟨.say, h, rfl⟩

theorem exists_accepts_iff (data : List UInt8) : (∃ req, Accepts data req) ↔
    requestSize (decodeInt (recvfrom bufSize data).1) = some (recvfrom bufSize data).2 := by
  cases htype : RequestType.ofCode (decodeInt (recvfrom bufSize data).1) with
  | none => simp [Accepts, readRequest, requestSize, htype]
  | some t => simp [Accepts, testValid, readRequest, requestSize, htype, eq_comm]

/-- For the datagram the loop runs the handler of the request that it reads, in whatever
state. -/
def RunsHandler (data : List UInt8) : Prop :=
  ∃ req, Accepts data req ∧ ∀ st env client,
    serverLoop st env client data = handleRequest st env client req

theorem runsHandler_iff (data : List UInt8) : RunsHandler data ↔
    requestSize (decodeInt (recvfrom bufSize data).1) = some (recvfrom bufSize data).2 := by
  rw [← exists_accepts_iff]
  exact exists_congr fun req => and_iff_left_of_imp Accepts.serverLoop

/-- A handler is run for the datagram if and only if it is well sized, and it changes
nothing otherwise. -/
def TakesWellSized (data : List UInt8) : Prop :=
  (RunsHandler data ↔ WellSized requestSize data) ∧
    (¬ WellSized requestSize data → ∀ st env client, ∃ sent,
      serverLoop st env client data = .ok (st, sent))

theorem serverLoop_of_not_runsHandler {data : List UInt8} (h : ¬ RunsHandler data) (st : State)
    (env : Env) (client : SockAddr) : ∃ sent, serverLoop st env client data = .ok (st, sent) :=
  serverLoop_of_not_accepts (mt (fun ⟨req, hreq⟩ => ⟨req, hreq, hreq.serverLoop⟩) h) st env client

theorem takesWellSized_iff (data : List UInt8) : TakesWellSized data ↔
    ¬ (bufSize < data.length ∧ RequestType.ofCode (decodeInt data) = some .say) := by
  have hruns := runsHandler_iff data
  rw [recvfrom_sized requestSize_bounds (by decide), requestSize_eq_bufSize] at hruns
  exact exact_iff hruns (not_cut_of_wellSized requestSize_bounds) serverLoop_of_not_runsHandler

end Standalone

/-! ## The distributed server -/

namespace Distributed

/-- The size of a request, by the word of its type. -/
def packetSize (w : UInt32) : Option ℕ := (PacketType.ofCode w).map PacketType.size

theorem packetSize_bounds (w : UInt32) (k : ℕ) (h : packetSize w = some k) :
    4 ≤ k ∧ k ≤ bufSize := by
  obtain ⟨t, -, rfl⟩ := Option.map_eq_some_iff.mp h
  cases t with
  | client t => cases t <;> decide
  | _ => decide

theorem packetSize_eq_bufSize {w : UInt32} :
    packetSize w = some bufSize ↔ PacketType.ofCode w = some .s2sSay := by
  rw [packetSize, Option.map_eq_some_iff]
  constructor
  · rintro ⟨t, ht, hsize⟩
    cases t with
    | client t => cases t <;> exact absurd hsize (by decide)
    | s2sSay => exact ht
    | _ => exact absurd hsize (by decide)
  · exact fun h => ⟨.s2sSay, h, rfl⟩

theorem exists_accepts_iff (data : List UInt8) : (∃ req, Accepts data req) ↔
    packetSize (decodeInt (recvfrom bufSize data).1) = some (recvfrom bufSize data).2 := by
  cases htype : PacketType.ofCode (decodeInt (recvfrom bufSize data).1) with
  | none => simp [Accepts, checkRequest, packetSize, htype]
  | some t =>
      have hsize : 4 ≤ t.size := (packetSize_bounds _ _ (by rw [packetSize, htype]; rfl)).1
      simp only [Accepts, checkRequest, packetSize, htype, Option.map_some, Option.some.injEq]
      constructor
      · rintro ⟨req, hreq⟩
        by_contra hne
        simp [hne] at hreq
      · intro heq
        rw [if_neg (Nat.not_lt.mpr (heq ▸ hsize)), if_neg (not_not_intro heq)]
        exact ⟨_, rfl⟩

/-- What is not accepted changes nothing. -/
theorem serverLoop_of_not_accepts {data : List UInt8} (h : ¬ ∃ req, Accepts data req)
    (st : State) (env : Env) (cur : Addressable) :
    serverLoop st env cur data = .ok (st, []) := by
  cases hcheck : checkRequest (recvfrom bufSize data).1 (recvfrom bufSize data).2 with
  | none => simp only [serverLoop, hcheck]
  | some req => exact absurd ⟨req, hcheck⟩ h

/-- For the datagram the loop runs the handler of the request that it reads, in whatever
state. -/
def RunsHandler (data : List UInt8) : Prop :=
  ∃ req, Accepts data req ∧ ∀ st env cur, serverLoop st env cur data = handler st env cur req

theorem runsHandler_iff (data : List UInt8) : RunsHandler data ↔
    packetSize (decodeInt (recvfrom bufSize data).1) = some (recvfrom bufSize data).2 := by
  rw [← exists_accepts_iff]
  exact exists_congr fun req => and_iff_left_of_imp Accepts.serverLoop

/-- A handler is run for the datagram if and only if it is well sized, and nothing changes
otherwise. -/
def TakesWellSized (data : List UInt8) : Prop :=
  (RunsHandler data ↔ WellSized packetSize data) ∧
    (¬ WellSized packetSize data → ∀ st env cur, serverLoop st env cur data = .ok (st, []))

theorem serverLoop_of_not_runsHandler {data : List UInt8} (h : ¬ RunsHandler data) (st : State)
    (env : Env) (cur : Addressable) : serverLoop st env cur data = .ok (st, []) :=
  serverLoop_of_not_accepts (mt (fun ⟨req, hreq⟩ => ⟨req, hreq, hreq.serverLoop⟩) h) st env cur

theorem takesWellSized_iff (data : List UInt8) : TakesWellSized data ↔
    ¬ (bufSize < data.length ∧ PacketType.ofCode (decodeInt data) = some .s2sSay) := by
  have hruns := runsHandler_iff data
  rw [recvfrom_sized packetSize_bounds (by decide), packetSize_eq_bufSize] at hruns
  exact exact_iff hruns (not_cut_of_wellSized packetSize_bounds) serverLoop_of_not_runsHandler

end Distributed

/-- Each server takes exactly the well-sized datagrams, but for those that are longer than
its buffer and of its largest type. -/
theorem datagrams_wellSized (data : List UInt8) :
    (Standalone.TakesWellSized data ↔ ¬ (Standalone.bufSize < data.length ∧
      RequestType.ofCode (decodeInt data) = some .say)) ∧
    (Distributed.TakesWellSized data ↔ ¬ (Distributed.bufSize < data.length ∧
      Distributed.PacketType.ofCode (decodeInt data) = some .s2sSay)) :=
  ⟨Standalone.takesWellSized_iff data, Distributed.takesWellSized_iff data⟩

/-- A say with a byte too many is cut off to the right size, at both servers. -/
theorem datagrams_wellSized_cut : (¬ ∀ data, Standalone.TakesWellSized data) ∧
    ¬ ∀ data, Distributed.TakesWellSized data := by
  constructor
  · intro hall
    have hsized := (hall (encodeInt RequestType.say.code ++ zeros 97)).1.mp
      ((Standalone.runsHandler_iff _).mpr (by decide))
    exact absurd hsized.2 (by decide)
  · intro hall
    have hsized := (hall (encodeInt Distributed.PacketType.s2sSay.code ++ zeros 137)).1.mp
      ((Distributed.runsHandler_iff _).mpr (by decide))
    exact absurd hsized.2 (by decide)

end CliMessaging
