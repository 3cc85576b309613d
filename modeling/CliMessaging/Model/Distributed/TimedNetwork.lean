import CliMessaging.Model.Distributed.Network

/-! # The network in time

All servers read one clock, which counts seconds. The loops of a server wake up in time, and
a datagram on its way to a running server arrives in time; apart from that the steps are
those of the network. -/

namespace CliMessaging.Distributed

open Transition

/-- How many seconds may pass. The loops of the code sleep for 60 and for 10 seconds. -/
structure Timing where
  /-- from one pass of `join_send_loop` to the next -/
  send : ℕ
  /-- from one pass of `server_timeout_loop` to the next -/
  check : ℕ
  /-- until a datagram arrives -/
  latency : ℕ

structure TimedNet where
  clock : ℕ
  server : Addressable → Option State
  /-- the datagrams in flight, each with the time by which it arrives -/
  flight : List (Packet × ℕ)
  /-- the time by which the `sleep` of `join_send_loop` ends -/
  nextSend : Addressable → ℕ
  /-- the time by which the `sleep` of `server_timeout_loop` ends -/
  nextCheck : Addressable → ℕ

/-- The event is a pass of the given loop at the server. -/
def Event.wakes (e : Event) (loop : Input) (n : Addressable) : Bool :=
  match e with
  | .pass m r => decide (m = n ∧ r.input = loop)
  | _ => false

namespace TimedNet

/-- The network without its times. -/
def net (w : TimedNet) : Net := ⟨w.server, w.flight.map Prod.fst⟩

/-- The datagrams that the event leaves in flight. Of equal datagrams the one that was sent
first is taken to arrive first. -/
def remaining (w : TimedNet) (e : Event) : List (Packet × ℕ) :=
  match e.packet? with
  | some p => w.flight.eraseP fun q => q.1 = p
  | none => w.flight

/-- The network after an event that leaves the given servers. -/
def follow (timing : Timing) (w : TimedNet) (e : Event) (server : Addressable → Option State) :
    TimedNet where
  clock := w.clock
  server := server
  flight := w.remaining e ++ (packets e.node e.sent).map fun p => (p, w.clock + timing.latency)
  nextSend n := if e.wakes .joinSend n then w.clock + timing.send else w.nextSend n
  nextCheck n := if e.wakes .serverTimeout n then w.clock + timing.check else w.nextCheck n

/-- Either a second passes, unless something still has to happen in it, or an event occurs. -/
inductive Step (timing : Timing) : TimedNet → Option Event → TimedNet → Prop where
  | second {w : TimedNet} :
      (∀ n, (w.server n).isSome → w.clock < w.nextSend n ∧ w.clock < w.nextCheck n) →
      (∀ q ∈ w.flight, (w.server q.1.dst).isSome → w.clock < q.2) →
      Step timing w none { w with clock := w.clock + 1 }
  | event {w : TimedNet} {e : Event} {g : Net} : Net.Step w.net e g →
      (∀ r, e.reaction? = some r → r.env.now = w.clock) →
      Step timing w (some e) (w.follow timing e g.server)

end TimedNet

/-- All servers started at the time `now`. -/
def Topology.timed (T : Topology) (timing : Timing) (now : ℕ) : TimedNet where
  clock := now
  server := T.initial.server
  flight := []
  nextSend _ := now + timing.send
  nextCheck _ := now + timing.check

end CliMessaging.Distributed
