import CliMessaging.Verification.Distributed.NetInvariant

/-! # Histories of the network

The events so far say where a user, a channel or a datagram comes from. What every server
keeps up by itself when it reacts holds in every run of the network. -/

namespace CliMessaging.Distributed

open State Transition

/-- In the event, the server at `n` reacts by `r`. -/
inductive Event.Handles : Event → Addressable → Reaction → Prop where
  | pass {n : Addressable} {r : Reaction} :
      (∀ src msg, r.input ≠ .recv src (.s2s msg)) → Handles (.pass n r) n r
  | delivery {p : Packet} {r : Reaction} :
      r.input = .recv p.src (.s2s p.msg) → Handles (.delivery p r) p.dst r

/-- What a server in state `st` knows when it reacts in the event `e`, after `es`. -/
structure Reacting (T : Topology) (S : List Event → Addressable → State → Prop)
    (P : List Event → Packet → Prop) (es : List Event) (e : Event) (n : Addressable)
    (st : State) (r : Reaction) : Prop where
  inv : st.Inv (T.adj n)
  server : S es n st
  packet : ∀ p, e.packet? = some p → P es p
  handles : e.Handles n r
  reacts : st.Reacts r

/-- `S` of a server and `P` of a datagram, both relative to the events so far, are kept up
by every server alone. -/
structure Topology.Keeps (T : Topology) (S : List Event → Addressable → State → Prop)
    (P : List Event → Packet → Prop) : Prop where
  initial : ∀ n ∈ T.nodes, S [] n (State.initial (T.adj n))
  server_mono : ∀ {es n st} e, S es n st → S (es ++ [e]) n st
  packet_mono : ∀ {es p} e, P es p → P (es ++ [e]) p
  server : ∀ {es e n st r st'}, Reacting T S P es e n st r → st.Effect r.env r.input st' r.sent →
    S (es ++ [e]) n st'
  packets : ∀ {es e n st r st' p}, Reacting T S P es e n st r →
    st.Effect r.env r.input st' r.sent → p ∈ packets n r.sent → P (es ++ [e]) p

/-- Every server satisfies `S` and every datagram in flight `P`. -/
structure Net.Records (S : List Event → Addressable → State → Prop)
    (P : List Event → Packet → Prop) (es : List Event) (g : Net) : Prop where
  servers : ∀ n st, g.server n = some st → S es n st
  packets : ∀ p ∈ g.flight, P es p

variable {T : Topology} {S : List Event → Addressable → State → Prop}
  {P : List Event → Packet → Prop} {g g' : Net} {es : List Event} {e : Event} {st : State}
  {r : Reaction} {n cur : Addressable}

namespace Event.Handles

theorem eq_pass (h : e.Handles n r) {req : ClientRequest}
    (hinput : r.input = .recv cur (.client req)) : e = .pass n r := by
  cases h with
  | pass hkind => rfl
  | delivery heq =>
      rw [hinput] at heq
      cases heq

theorem eq_delivery (h : e.Handles n r) {msg : S2sMsg}
    (hinput : r.input = .recv cur (.s2s msg)) : e = .delivery ⟨cur, n, msg⟩ r := by
  cases h with
  | pass hkind => exact absurd hinput (hkind cur msg)
  | delivery heq =>
      rw [hinput] at heq
      cases heq
      rfl

theorem node_eq (h : e.Handles n r) : e.node = n := by
  cases h <;> rfl

theorem sent_eq (h : e.Handles n r) : e.sent = r.sent := by
  cases h <;> rfl

end Event.Handles

/-! ## One event -/

theorem Net.Records.take (h : g.Records S P es) (p : Packet) : (g.take p).Records S P es :=
  ⟨h.servers, fun q hq => h.packets q (List.mem_of_mem_erase hq)⟩

/-- In every event a server reacts to what it knows, unless a datagram is lost. -/
theorem Net.Records.reacting (h : g.Records S P es) (hinv : g.Inv T) (hstep : Net.Step g e g') :
    (∃ (g₁ : Net) (st : State) (r : Reaction), g₁.Records S P es ∧
      Reacting T S P es e e.node st r ∧ g' = g₁.update e.node r) ∨
      e.sent = [] ∧ ∃ p, g' = g.take p := by
  cases hstep with
  | @pass n st r hst hr hkind =>
      refine Or.inl ⟨g, st, r, h, ?_, rfl⟩
      refine ⟨hinv.servers n st hst, h.servers n st hst, ?_, .pass hkind, hr⟩
      rintro p ⟨⟩
  | @delivery p st r hp hst hr hinput =>
      refine Or.inl ⟨g.take p, st, r, h.take p, ?_, rfl⟩
      refine ⟨hinv.servers _ st hst, h.servers _ st hst, ?_, .delivery hinput, hr⟩
      rintro q ⟨⟩
      exact h.packets p hp
  | @lost p hp hst => exact Or.inr ⟨rfl, p, rfl⟩

theorem Topology.Keeps.update (hkeeps : T.Keeps S P) (h : g.Records S P es)
    (hr : Reacting T S P es e n st r) : (g.update n r).Records S P (es ++ [e]) := by
  refine ⟨fun m st' hm => ?_, fun p hp => ?_⟩
  · by_cases hmn : m = n
    · subst hmn
      rw [Net.update_server_self] at hm
      exact hkeeps.server hr (hr.inv.effect_of_step ⟨hr.reacts, hm⟩)
    · rw [Net.update_server_of_ne hmn] at hm
      exact hkeeps.server_mono e (h.servers m st' hm)
  · rcases List.mem_append.mp hp with hp | hp
    · exact hkeeps.packet_mono e (h.packets p hp)
    · cases hafter : r.after with
      | none =>
          rw [Reaction.sent_of_down hafter] at hp
          cases hp
      | some st' => exact hkeeps.packets hr (hr.inv.effect_of_step ⟨hr.reacts, hafter⟩) hp

theorem Topology.Keeps.step (hkeeps : T.Keeps S P) (h : g.Records S P es) (hinv : g.Inv T)
    (hstep : Net.Step g e g') : g'.Records S P (es ++ [e]) := by
  rcases h.reacting hinv hstep with ⟨g₁, st, r, h₁, hr, rfl⟩ | ⟨-, p, rfl⟩
  · exact hkeeps.update h₁ hr
  · refine ⟨fun n st hn => ?_, fun q hq => ?_⟩
    · exact hkeeps.server_mono e (h.servers n st hn)
    · exact hkeeps.packet_mono e ((h.take p).packets q hq)

/-! ## Runs -/

theorem Topology.Keeps.records (hkeeps : T.Keeps S P) (hrun : Run Net.Step T.initial es g) :
    g.Records S P es := by
  let I : List Event → Net → Prop := fun es g => g.Inv T ∧ g.Records S P es
  have hstart : I [] T.initial := by
    refine ⟨T.inv_initial, fun n st hst => ?_, fun p hp => ?_⟩
    · simp only [Topology.initial] at hst
      split at hst
      · cases hst
        exact hkeeps.initial n ‹_›
      · cases hst
    · cases hp
  have hend : I ([] ++ es) g := by
    refine hrun.history (P := fun _ => True) ?_ (fun _ _ => trivial) [] hstart
    rintro es g e g' ⟨hinv, h⟩ - hstep
    exact ⟨hinv.step hstep, hkeeps.step h hinv hstep⟩
  exact hend.2

/-- What the sender of a datagram knew when it sent it. -/
theorem Topology.Keeps.sender (hkeeps : T.Keeps S P)
    (hrun : Run Net.Step T.initial (es ++ [e]) g) {d : Datagram} (hd : d ∈ e.sent) :
    ∃ st r st', Reacting T S P es e e.node st r ∧ st.Effect r.env r.input st' r.sent ∧
      d ∈ r.sent := by
  obtain ⟨g₀, hpast, hlast⟩ := hrun.of_append
  cases hlast with
  | cons hstep hnil =>
      have hinv := T.inv_of_run hpast
      rcases (hkeeps.records hpast).reacting hinv hstep with
        ⟨-, st, r, -, hr, -⟩ | ⟨hnone, -⟩
      · rw [hr.handles.sent_eq] at hd
        cases hafter : r.after with
        | none =>
            rw [Reaction.sent_of_down hafter] at hd
            cases hd
        | some st' => exact ⟨st, r, st', hr, hr.inv.effect_of_step ⟨hr.reacts, hafter⟩, hd⟩
      · rw [hnone] at hd
        cases hd

/-! ## Channels and requests -/

/-- Where a channel comes from, after a pass that writes to the channel `other` only. -/
theorem chan_update_cases {chan : Cname → Option Channel} {name other : Cname}
    {found : Option Channel} {c : Channel} {Q : Prop}
    (hc : Function.update chan other found name = some c)
    (hself : name = other → found = some c → Q) (hold : chan name = some c → Q) : Q := by
  by_cases hname : name = other
  · rw [hname, Function.update_self] at hc
    exact hself hname hc
  · rw [Function.update_of_ne hname] at hc
    exact hold hc

/-- In `es`, the server at `n` has got the request from the client at `cur`. -/
def Requested (es : List Event) (n cur : Addressable) (req : ClientRequest) : Prop :=
  ∃ r, Event.pass n r ∈ es ∧ r.input = .recv cur (.client req)

theorem Requested.mono {req : ClientRequest} (h : Requested es n cur req) (e : Event) :
    Requested (es ++ [e]) n cur req := by
  obtain ⟨r, hr, hinput⟩ := h
  exact ⟨r, List.mem_append_left _ hr, hinput⟩

theorem Event.Handles.requested (h : e.Handles n r) {req : ClientRequest}
    (hinput : r.input = .recv cur (.client req)) (es : List Event) :
    Requested (es ++ [e]) n cur req := by
  rw [h.eq_pass hinput]
  exact ⟨r, by simp, hinput⟩

end CliMessaging.Distributed
