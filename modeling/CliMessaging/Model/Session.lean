import CliMessaging.Model.Client.Commands
import CliMessaging.Model.Standalone.Server

/-! # A client and the standalone server in time

Both sides read one clock, which counts seconds. Datagrams arrive at once and none is lost,
and `sendto` does not fail. The keep-alive thread is started in the second of the login and
wakes up every 60 seconds, at any moment of its second. -/

namespace CliMessaging

/-- The addresses of the client and of its server. -/
structure Link where
  client : SockAddr
  server : SockAddr

structure World where
  clock : ℕ
  /-- when the `sleep` of the keep-alive thread ends -/
  nextTick : ℕ
  /-- unless it has ended -/
  client : Option Client
  /-- unless it has been brought down -/
  server : Option Standalone.State

namespace World

inductive Event where
  /-- A second passes. -/
  | second
  /-- A byte is typed at the client. -/
  | key (cur : UInt8)
  /-- A datagram of the server reaches the client. -/
  | heard (data : List UInt8)
  /-- The keep-alive thread of the client wakes up. -/
  | wake
  /-- A datagram of somebody else reaches the server. -/
  | foreign (src : SockAddr) (data : List UInt8)
  /-- The server scans for inactive users. -/
  | cleanup
  deriving DecidableEq

/-- A round of one of the loops of the server. -/
def serve (w : World) (count : ℤ) (event : Standalone.Event) : World :=
  { w with
    server := w.server.bind fun st =>
      match st.serve ⟨fun _ => w.clock, count⟩ event with
      | .ok (st', _) => some st'
      | .error _ => none }

/-- The datagrams of the client arrive at the server, in order. -/
def deliver (link : Link) (count : ℤ) (w : World) (sent : List Client.Datagram) : World :=
  (sent.filter (·.dst = link.server)).foldl
    (fun w d => w.serve count (.datagram link.client d.data)) w

/-- A pass of the client, with what it sends. -/
def clientPass (link : Link) (count : ℤ) (w : World) (input : Client.Input) :
    World × List Client.Datagram :=
  match w.client with
  | none => (w, [])
  | some c =>
      match c.react true input with
      | .ok o => (deliver link count { w with client := o.client } o.sent, o.sent)
      | .error _ => ({ w with client := none }, [])

/-- What happens on an event, if it can occur: no second ends before the keep-alive thread of
a running client has woken up in it. -/
def step (link : Link) (count : ℤ) (w : World) : Event → Option (World × List Client.Datagram)
  | .second =>
      if w.client.isSome ∧ w.clock = w.nextTick then none
      else some ({ w with clock := w.clock + 1 }, [])
  | .key cur => some (w.clientPass link count (.key cur))
  | .heard data => some (w.clientPass link count (.recv link.server data))
  | .wake =>
      if w.clock = w.nextTick then
        some (clientPass link count { w with nextTick := w.nextTick + 60 } .tick)
      else none
  | .foreign src data =>
      if src = link.client then none else some (w.serve count (.datagram src data), [])
  | .cleanup => some (w.serve count .cleanup, [])

/-- An event, when it happened and what the client sent on it. The `count` is what happens to
be in the uninitialised variables of the server. -/
structure Moment where
  event : Event
  count : ℤ
  time : ℕ
  sent : List Client.Datagram

def Step (link : Link) (w : World) (m : Moment) (w' : World) : Prop :=
  w.step link m.count m.event = some (w', m.sent) ∧ m.time = w.clock

/-- The world when the client has been started at a server in state `st`. -/
def start (link : Link) (username : List UInt8) (now : ℕ) (count : ℤ) (st : Standalone.State) :
    World :=
  let (c, sent) := Client.start link.server username fun _ => true
  deliver link count ⟨now, now + 60, some c, some st⟩ sent

end World

end CliMessaging
