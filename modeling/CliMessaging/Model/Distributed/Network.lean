import CliMessaging.Model.Distributed.Server

/-! # A network of distributed servers

Every server is identified by the address of its socket. Datagrams between servers stay
in flight until they are delivered, in any order; texts to clients leave the network. -/

namespace CliMessaging.Distributed

open Transition

/-- The servers that are started and the adjacency list each is given. -/
structure Topology where
  nodes : Finset Addressable
  adj : Addressable → List Addressable
  adj_nodup : ∀ s, (adj s).Nodup
  adj_nodes : ∀ s t, t ∈ adj s → s ∈ nodes ∧ t ∈ nodes
  adj_symm : ∀ s t, t ∈ adj s → s ∈ adj t

structure Packet where
  src : Addressable
  dst : Addressable
  msg : S2sMsg
  deriving DecidableEq

/-- A server that has gone down is `none`, as is an address without a server. -/
structure Net where
  server : Addressable → Option State
  flight : List Packet

/-- The server-to-server datagrams among those that a server sends. -/
def packets (src : Addressable) (sent : List Datagram) : List Packet :=
  sent.filterMap fun d =>
    match d.msg with
    | .s2s msg => some ⟨src, d.dst, msg⟩
    | .text _ => none

inductive Event where
  /-- A server handles a client's request or a timer fires. -/
  | pass (node : Addressable) (reaction : Reaction)
  /-- A running server handles a datagram of another server. -/
  | delivery (packet : Packet) (reaction : Reaction)
  /-- A datagram arrives where no server is running. -/
  | lost (packet : Packet)

namespace Event

def node : Event → Addressable
  | pass node _ => node
  | delivery packet _ => packet.dst
  | lost packet => packet.dst

def reaction? : Event → Option Reaction
  | pass _ reaction => some reaction
  | delivery _ reaction => some reaction
  | lost _ => none

def packet? : Event → Option Packet
  | pass _ _ => none
  | delivery packet _ => some packet
  | lost packet => some packet

/-- The datagrams that the event's server sends. -/
def sent (e : Event) : List Datagram :=
  match e.reaction? with
  | some reaction => reaction.sent
  | none => []

end Event

namespace Net

/-- The network after the server at `node` has reacted. -/
def update (g : Net) (node : Addressable) (r : Reaction) : Net where
  server := Function.update g.server node r.after
  flight := g.flight ++ packets node r.sent

/-- The network without one copy of a datagram. -/
def take (g : Net) (p : Packet) : Net := { g with flight := g.flight.erase p }

inductive Step : Net → Event → Net → Prop where
  | pass {g : Net} {node : Addressable} {st : State} {r : Reaction} :
      g.server node = some st → st.Reacts r →
      (∀ src msg, r.input ≠ .recv src (.s2s msg)) →
      Step g (.pass node r) (g.update node r)
  | delivery {g : Net} {p : Packet} {st : State} {r : Reaction} :
      p ∈ g.flight → g.server p.dst = some st → st.Reacts r →
      r.input = .recv p.src (.s2s p.msg) →
      Step g (.delivery p r) ((g.take p).update p.dst r)
  | lost {g : Net} {p : Packet} : p ∈ g.flight → g.server p.dst = none →
      Step g (.lost p) (g.take p)

/-- No earlier datagram is in flight from the same server to the same server. -/
def InOrder (g : Net) (p : Packet) : Prop :=
  g.flight.find? (fun q => decide (q.src = p.src ∧ q.dst = p.dst)) = some p

/-- A step that respects the order of the datagrams on every link. -/
def FifoStep (g : Net) (e : Event) (g' : Net) : Prop :=
  Step g e g' ∧ ∀ p, e.packet? = some p → g.InOrder p

end Net

namespace Topology

/-- All servers started, nothing in flight. -/
def initial (T : Topology) : Net where
  server node := if node ∈ T.nodes then some (State.initial (T.adj node)) else none
  flight := []

/-- A network reached by events that all satisfy `P`. -/
def Reaches (T : Topology) (P : Event → Prop) (g : Net) : Prop :=
  ∃ es, Run Net.Step T.initial es g ∧ ∀ e ∈ es, P e

def Reachable (T : Topology) (g : Net) : Prop := T.Reaches (fun _ => True) g

end Topology

end CliMessaging.Distributed
