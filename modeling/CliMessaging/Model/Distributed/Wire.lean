import CliMessaging.Model.Distributed.Network
import CliMessaging.Model.Distributed.Receive

/-! # A network of distributed servers that exchange bytes

`network.cxx` copies the fixed number of bytes that stand at each pointer, so what follows
the NUL of a string is sent as well; it is left open here. A server takes a datagram for
what its first word and its length say, whoever has sent it. -/

namespace CliMessaging.Distributed

open Transition

/-! ## Server-to-server messages -/

/-- `struct s2s_join` -/
def structS2sJoin (channel : Field channelMax) : List UInt8 :=
  encodeInt PacketType.s2sJoin.code ++ channel.bytes

/-- `struct s2s_leave` -/
def structS2sLeave (channel : Field channelMax) : List UInt8 :=
  encodeInt PacketType.s2sLeave.code ++ channel.bytes

/-- `struct s2s_say` -/
def structS2sSay (uid : MsgUid) (username : Field usernameMax) (channel : Field channelMax)
    (text : Field sayMax) : List UInt8 :=
  encodeInt PacketType.s2sSay.code ++
    (encodeLong uid ++ (username.bytes ++ (channel.bytes ++ text.bytes)))

/-! ## Sending -/

/-- The datagram of `broadcast_say`. -/
def encodeSay (channelName : Field channelMax) (userName : Field usernameMax)
    (msg : Field sayMax) : List UInt8 :=
  textSay channelName.terminate userName.terminate msg.terminate

/-- The datagram of `broadcast_s2s_join`. -/
def encodeS2sJoin (chanName : Field channelMax) : List UInt8 := structS2sJoin chanName.terminate

/-- The datagram of `broadcast_s2s_leave`. -/
def encodeS2sLeave (chanName : Field channelMax) : List UInt8 := structS2sLeave chanName.terminate

/-- The datagram of `broadcast_s2s_say`. -/
def encodeS2sSay (uid : MsgUid) (uname : Field usernameMax) (cname : Field channelMax)
    (msg : Field sayMax) : List UInt8 :=
  structS2sSay uid uname.terminate cname.terminate msg.terminate

/-- `Encodes msg data`: the message may be sent as these bytes. Each pointer points to a
field that holds the string. -/
inductive Encodes : Msg → List UInt8 → Prop where
  | say {channel : Cname} {username : Uname} {text : SayText} {channelName : Field channelMax}
      {userName : Field usernameMax} {msg : Field sayMax} : channelName.Holds channel →
      userName.Holds username → msg.Holds text →
      Encodes (.text (.say channel username text)) (encodeSay channelName userName msg)
  | list {names : List Cname} {channels : List (Field channelMax)} :
      List.Forall₂ Field.Holds channels names →
      Encodes (.text (.list names)) (encodeChannelList channels)
  | who {channel : Cname} {usernames : List Uname} {cname : Field channelMax}
      {names : List (Field usernameMax)} : cname.Holds channel →
      List.Forall₂ Field.Holds names usernames →
      Encodes (.text (.who channel usernames)) (encodeWho cname names)
  | s2sJoin {channel : Cname} {chanName : Field channelMax} : chanName.Holds channel →
      Encodes (.s2s (.join channel)) (encodeS2sJoin chanName)
  | s2sLeave {channel : Cname} {chanName : Field channelMax} : chanName.Holds channel →
      Encodes (.s2s (.leave channel)) (encodeS2sLeave chanName)
  | s2sSay {username : Uname} {channel : Cname} {text : SayText} {uname : Field usernameMax}
      {cname : Field channelMax} {msg : Field sayMax} (uid : MsgUid) : uname.Holds username →
      cname.Holds channel → msg.Holds text →
      Encodes (.s2s (.say uid username channel text)) (encodeS2sSay uid uname cname msg)

/-! ## The network -/

structure Frame where
  src : Addressable
  dst : Addressable
  data : List UInt8
  deriving DecidableEq

/-- The frames in which the server at `n` sends its datagrams. -/
def Frames (n : Addressable) (sent : List Datagram) (frames : List Frame) : Prop :=
  List.Forall₂ (fun d f => f.src = n ∧ f.dst = d.dst ∧ Encodes d.msg f.data) sent frames

/-- What a server reads from the frame. -/
def Frame.request? (f : Frame) : Option Request :=
  checkRequest (recvfrom bufSize f.data).1 (recvfrom bufSize f.data).2

/-- The server-to-server datagram that the frame is taken for. -/
def Frame.packet? (f : Frame) : Option Packet :=
  match f.request? with
  | some (.s2s msg) => some ⟨f.src, f.dst, msg⟩
  | _ => none

structure WireNet where
  server : Addressable → Option State
  flight : List Frame

inductive WireEvent where
  /-- A timer of a server fires. -/
  | timer (node : Addressable) (reaction : Reaction)
  /-- A running server receives a frame. -/
  | receive (frame : Frame) (before : State) (env : Env)
  /-- A program that is not one of the servers sends a frame. -/
  | inject (frame : Frame)
  /-- A frame arrives where no server is running. -/
  | drop (frame : Frame)

/-- Frames from outside may be anything but server-to-server messages. -/
inductive WireNet.Step : WireNet → WireEvent → WireNet → Prop where
  | timer {w : WireNet} {n : Addressable} {st : State} {r : Reaction} {frames : List Frame} :
      w.server n = some st → st.Reacts r → (∀ src req, r.input ≠ .recv src req) →
      Frames n r.sent frames →
      Step w (.timer n r) ⟨Function.update w.server n r.after, w.flight ++ frames⟩
  | receive {w : WireNet} {f : Frame} {st st' : State} {env : Env} {sent : List Datagram}
      {frames : List Frame} :
      f ∈ w.flight → w.server f.dst = some st →
      serverLoop st env f.src f.data = .ok (st', sent) → Frames f.dst sent frames →
      Step w (.receive f st env)
        ⟨Function.update w.server f.dst (some st'), w.flight.erase f ++ frames⟩
  | crash {w : WireNet} {f : Frame} {st : State} {env : Env} {fault : Fault} :
      f ∈ w.flight → w.server f.dst = some st →
      serverLoop st env f.src f.data = .error fault →
      Step w (.receive f st env) ⟨Function.update w.server f.dst none, w.flight.erase f⟩
  | inject {w : WireNet} {f : Frame} : f.packet? = none →
      Step w (.inject f) ⟨w.server, w.flight ++ [f]⟩
  | drop {w : WireNet} {f : Frame} : f ∈ w.flight → w.server f.dst = none →
      Step w (.drop f) ⟨w.server, w.flight.erase f⟩

/-- All servers started, nothing in flight. -/
def Topology.wire (T : Topology) : WireNet := ⟨T.initial.server, []⟩

end CliMessaging.Distributed
