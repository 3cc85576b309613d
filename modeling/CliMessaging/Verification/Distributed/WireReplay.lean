import CliMessaging.Model.Distributed.Wire
import CliMessaging.Verification.Client.ListReplies

/-! # Replaying a run of the network of bytes

A schedule of what clients send and what arrives determines a run, once every string stands
in a cleared field. -/

namespace CliMessaging.Distributed

open Transition

/-- The bytes of a message in cleared fields. The servers send no error texts. -/
def encode? : Msg → Option (List UInt8)
  | .text (.say channel username text) =>
      some (encodeSay (.ofString channel) (.ofString username) (.ofString text))
  | .text (.list channels) => some (encodeChannelList (channels.map Field.ofString))
  | .text (.who channel usernames) =>
      some (encodeWho (.ofString channel) (usernames.map Field.ofString))
  | .text (.error _) => none
  | .s2s (.join channel) => some (encodeS2sJoin (.ofString channel))
  | .s2s (.leave channel) => some (encodeS2sLeave (.ofString channel))
  | .s2s (.say uid username channel text) =>
      some (encodeS2sSay uid (.ofString username) (.ofString channel) (.ofString text))

def frames? (n : Addressable) : List Datagram → Option (List Frame)
  | [] => some []
  | d :: sent => do
      let data ← encode? d.msg
      let frames ← frames? n sent
      return ⟨n, d.dst, data⟩ :: frames

theorem encodes_of_encode? {msg : Msg} {data : List UInt8} (h : encode? msg = some data) :
    Encodes msg data := by
  cases msg with
  | text text =>
      cases text with
      | say channel username text =>
          cases h
          exact .say (Field.holds_ofString _) (Field.holds_ofString _) (Field.holds_ofString _)
      | list channels =>
          cases h
          exact .list (Client.holds_map_ofString channels)
      | who channel usernames =>
          cases h
          exact .who (Field.holds_ofString _) (Client.holds_map_ofString usernames)
      | error text => cases h
  | s2s msg =>
      cases msg with
      | join channel =>
          cases h
          exact .s2sJoin (Field.holds_ofString _)
      | leave channel =>
          cases h
          exact .s2sLeave (Field.holds_ofString _)
      | say uid username channel text =>
          cases h
          exact .s2sSay uid (Field.holds_ofString _) (Field.holds_ofString _)
            (Field.holds_ofString _)

theorem frames_of_frames? {n : Addressable} {sent : List Datagram} {frames : List Frame}
    (h : frames? n sent = some frames) : Frames n sent frames := by
  induction sent generalizing frames with
  | nil =>
      cases h
      exact .nil
  | cons d sent ih =>
      obtain ⟨data, hdata, h⟩ := Option.bind_eq_some_iff.mp h
      obtain ⟨rest, hrest, h⟩ := Option.bind_eq_some_iff.mp h
      cases h
      exact .cons ⟨rfl, rfl, encodes_of_encode? hdata⟩ (ih hrest)

inductive WireChoice where
  /-- A client sends a frame. -/
  | send (frame : Frame)
  /-- The oldest frame from `src` to `dst` arrives. -/
  | arrive (src dst : Addressable) (env : Env)

namespace WireNet

def act (w : WireNet) : WireChoice → Option (WireEvent × WireNet)
  | .send f => if f.packet? = none then some (.inject f, ⟨w.server, w.flight ++ [f]⟩) else none
  | .arrive src dst env => do
      let f ← w.flight.find? fun f => decide (f.src = src ∧ f.dst = dst)
      let st ← w.server f.dst
      match serverLoop st env f.src f.data with
      | .error _ => none
      | .ok (st', sent) => do
          let frames ← frames? f.dst sent
          return (.receive f st env,
            ⟨Function.update w.server f.dst (some st'), w.flight.erase f ++ frames⟩)

theorem step_of_act {w w' : WireNet} {choice : WireChoice} {e : WireEvent}
    (h : w.act choice = some (e, w')) : Step w e w' := by
  cases choice with
  | send f =>
      simp only [act] at h
      split at h
      · rename_i hnone
        cases h
        exact .inject hnone
      · cases h
  | arrive src dst env =>
      obtain ⟨f, hf, h⟩ := Option.bind_eq_some_iff.mp h
      obtain ⟨st, hst, h⟩ := Option.bind_eq_some_iff.mp h
      cases hok : serverLoop st env f.src f.data with
      | error fault =>
          rw [hok] at h
          cases h
      | ok pair =>
          obtain ⟨st', sent⟩ := pair
          rw [hok] at h
          obtain ⟨frames, hframes, h⟩ := Option.bind_eq_some_iff.mp h
          cases h
          exact .receive (List.mem_of_find?_eq_some hf) hst hok (frames_of_frames? hframes)

def replay (w : WireNet) : List WireChoice → Option (List WireEvent × WireNet)
  | [] => some ([], w)
  | choice :: choices => do
      let (e, w') ← w.act choice
      let (es, final) ← w'.replay choices
      return (e :: es, final)

theorem run_of_replay {w w' : WireNet} {choices : List WireChoice} {ws : List WireEvent}
    (h : w.replay choices = some (ws, w')) : Run Step w ws w' := by
  induction choices generalizing w ws with
  | nil =>
      cases h
      exact .nil _
  | cons choice choices ih =>
      obtain ⟨⟨e, w₁⟩, hact, h⟩ := Option.bind_eq_some_iff.mp h
      obtain ⟨⟨es, final⟩, hrest, h⟩ := Option.bind_eq_some_iff.mp h
      cases h
      exact .cons (step_of_act hact) (ih hrest)

end WireNet

end CliMessaging.Distributed
