import CliMessaging.Verification.Distributed.NetInvariant
import CliMessaging.Verification.Distributed.Replay
import CliMessaging.Verification.Distributed.Topologies

/-! # Deliveries that bring a server down

A join or a leave from an adjacent server is always handled. A say is handled exactly
when the server still has its channel. -/

namespace CliMessaging.Distributed

open State Transition

/-- The channel that the message needs is there. -/
def S2sMsg.findsChannel (st : State) : S2sMsg → Bool
  | .join _ | .leave _ => true
  | .say _ _ name _ => (st.chan name).isSome

namespace Event

/-- No server goes down by handling a server-to-server message. -/
def survived : Event → Bool
  | delivery _ r => r.after.isSome
  | pass _ _ | lost _ => true

def findsChannel : Event → Bool
  | delivery p r => p.msg.findsChannel r.before
  | pass _ _ | lost _ => true

end Event

variable {T : Topology} {g g' : Net} {e : Event} {adj : List Server} {st : State}
  {cur : Addressable} {r : Reaction}

theorem Reaction.isSome_after {st' : State} {sent : List Datagram}
    (h : r.result = .ok (st', sent)) : r.after.isSome := by
  simp [Reaction.after, h]

theorem Reaction.not_isSome_after {fault : Fault} (h : r.result = .error fault) :
    r.after.isSome = false := by
  simp [Reaction.after, h]

/-- What becomes of a message from an adjacent server. -/
theorem State.Inv.isSome_after_iff (h : st.Inv adj) (hcur : cur ∈ adj) {msg : S2sMsg}
    (hr : st.Reacts r) (hinput : r.input = .recv cur (.s2s msg)) :
    r.after.isSome = msg.findsChannel st := by
  have hadj : cur ∈ st.sset.serverList := h.servers ▸ hcur
  have hres := hr.2
  rw [hinput] at hres
  cases msg with
  | join name =>
      obtain ⟨st', hok, -⟩ := handleS2sJoin_spec h.sound hadj r.env name
      exact Reaction.isSome_after (hres.trans hok)
  | leave name =>
      obtain ⟨st', hok, -⟩ := handleS2sLeave_spec h.sound hadj name
      exact Reaction.isSome_after (hres.trans hok)
  | say uid username name text =>
      cases hc : st.chan name with
      | none =>
          simp only [S2sMsg.findsChannel, hc, Option.isSome_none]
          exact Reaction.not_isSome_after (hres.trans (handleS2sSay_of_no_channel h.sound hc))
      | some c =>
          have hnew : uid ∉ c.uidSet := by simp [(h.routed name c hc).uids]
          obtain ⟨st', hok, -⟩ := handleS2sSay_spec h.sound hc hnew cur username text
          simp only [S2sMsg.findsChannel, hc, Option.isSome_some]
          exact Reaction.isSome_after (hres.trans hok)

theorem Net.Inv.survived_eq (h : g.Inv T) (hstep : Net.Step g e g') :
    e.survived = e.findsChannel := by
  cases hstep with
  | pass hst hr hkind => rfl
  | @delivery p st r hp hst hr hinput =>
      have hcompletes := (h.servers p.dst st hst).isSome_after_iff (h.packets p hp) hr hinput
      rw [Event.survived, Event.findsChannel, hcompletes, hr.1]
  | lost hp hst => rfl

/-- In every run of a network, a delivery leaves its server running exactly when the
message finds its channel there. -/
theorem survived_iff_findsChannel {es : List Event} (hrun : Run Net.Step T.initial es g) :
    ∀ e ∈ es, e.survived ↔ e.findsChannel := by
  refine hrun.forall_label (I := Net.Inv T) (P := fun _ => True) ?_ (fun _ _ => trivial)
    T.inv_initial
  intro s e t hs _ hstep
  exact ⟨hs.step hstep, by rw [hs.survived_eq hstep]⟩

/-- A channel spreads to a second server, which prunes it when a client logs out there,
while a say of the first server is on its way. -/
def crossing : List Choice :=
  [.pass (node 1) ⟨0, 0⟩ (.recv (desk 1) (.client (.login alice))),
    .pass (node 1) ⟨0, 0⟩ (.recv (desk 1) (.client (.join chat))),
    .deliver (node 1) (node 2) ⟨0, 0⟩,
    .deliver (node 2) (node 1) ⟨0, 0⟩,
    .pass (node 1) ⟨0, 7⟩ (.recv (desk 1) (.client (.say chat hello))),
    .pass (node 2) ⟨0, 0⟩ (.recv (desk 2) (.client (.login bob))),
    .pass (node 2) ⟨0, 0⟩ (.recv (desk 2) (.client .logout)),
    .deliver (node 1) (node 2) ⟨0, 0⟩]

/-- Without the logout the say finds its channel. -/
theorem survived_without_logout :
    ∃ es g, twoServers.initial.replay (crossing.eraseIdx 6) = some (es, g) ∧
      ∀ e ∈ es, e.survived := by
  have hfinds : (twoServers.initial.replay (crossing.eraseIdx 6)).map
      (fun p => p.1.all Event.findsChannel) = some true := by decide
  obtain ⟨⟨es, g⟩, hreplay, hall⟩ := Option.map_eq_some_iff.mp hfinds
  refine ⟨es, g, hreplay, fun e he => ?_⟩
  have hrun := Net.run_of_replay hreplay
  exact (survived_iff_findsChannel hrun e he).mpr (List.all_eq_true.mp hall e he)

/-- The say that crosses the leave brings the second server down. -/
theorem crossing_say_not_survived :
    ¬ ∀ (T : Topology) (es : List Event) (g : Net), Run Net.Step T.initial es g →
      ∀ e ∈ es, e.survived := by
  intro hall
  have hdown : (twoServers.initial.replay crossing).map (fun p => p.1.all Event.survived) =
      some false := by decide
  obtain ⟨⟨es, g⟩, hreplay, hfalse⟩ := Option.map_eq_some_iff.mp hdown
  have hrun := Net.run_of_replay hreplay
  have htrue : es.all Event.survived = true := List.all_eq_true.mpr (hall _ es g hrun)
  rw [htrue] at hfalse
  cases hfalse

end CliMessaging.Distributed
