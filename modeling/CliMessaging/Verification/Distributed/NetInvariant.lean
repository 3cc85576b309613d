import CliMessaging.Model.Distributed.Network
import CliMessaging.Verification.Distributed.Invariant

/-! # The invariant of the network

Every running server satisfies the invariant of a server with its own adjacency list,
and every datagram in flight comes from a server adjacent to its receiver. -/

namespace CliMessaging.Distributed

open State Transition

variable {T : Topology} {g g' : Net} {e : Event} {adj : List Server} {st st' : State}
  {env : Env} {input : Input} {sent : List Datagram}

theorem mem_packets {src : Addressable} {p : Packet} :
    p ∈ packets src sent ↔ p.src = src ∧ ⟨p.dst, .s2s p.msg⟩ ∈ sent := by
  simp only [packets, List.mem_filterMap]
  constructor
  · rintro ⟨⟨dst, msg⟩, hd, heq⟩
    cases msg with
    | text text => cases heq
    | s2s msg =>
        cases heq
        exact ⟨rfl, hd⟩
  · rintro ⟨rfl, hd⟩
    exact ⟨_, hd, rfl⟩

theorem packets_append (src : Addressable) (sent sent' : List Datagram) :
    packets src (sent ++ sent') = packets src sent ++ packets src sent' := by
  simp [packets]

theorem mem_sendMessage {targets : List Addressable} {msg : Msg} {d : Datagram} :
    d ∈ sendMessage targets msg ↔ d.dst ∈ targets ∧ d.msg = msg := by
  simp only [sendMessage, List.mem_map]
  constructor
  · rintro ⟨target, htarget, rfl⟩
    exact ⟨htarget, rfl⟩
  · rintro ⟨htarget, rfl⟩
    exact ⟨d.dst, htarget, rfl⟩

/-! ## Where a server sends -/

/-- The server-to-server datagrams go to adjacent servers only. -/
def StaysAdjacent (adj : List Server) (sent : List Datagram) : Prop :=
  ∀ d ∈ sent, ∀ msg, d.msg = .s2s msg → d.dst ∈ adj

theorem staysAdjacent_nil (adj : List Server) : StaysAdjacent adj [] := by
  intro d hd
  cases hd

theorem staysAdjacent_text (adj : List Server) (targets : List Addressable) (text : Text) :
    StaysAdjacent adj (sendMessage targets (.text text)) := by
  intro d hd msg hmsg
  rw [(mem_sendMessage.mp hd).2] at hmsg
  cases hmsg

theorem staysAdjacent_sendMessage {targets : List Addressable}
    (h : ∀ t ∈ targets, t ∈ adj) (msg : Msg) : StaysAdjacent adj (sendMessage targets msg) :=
  fun _ hd _ _ => h _ (mem_sendMessage.mp hd).1

theorem StaysAdjacent.append {sent' : List Datagram} (h : StaysAdjacent adj sent)
    (h' : StaysAdjacent adj sent') : StaysAdjacent adj (sent ++ sent') := by
  intro d hd
  rcases List.mem_append.mp hd with hd | hd
  · exact h d hd
  · exact h' d hd

theorem staysAdjacent_pruneLeaves (hs : st.Sound)
    (hrouted : ∀ name c, st.chan name = some c → ∀ t ∈ c.serverList, t ∈ adj) :
    StaysAdjacent adj (pruneLeaves st) := by
  intro d hd _ _
  obtain ⟨name, c, hc, -, hdst, -⟩ := (mem_pruneLeaves hs).mp hd
  exact hrouted name c hc d.dst hdst

theorem State.Inv.staysAdjacent (h : st.Inv adj) (heff : st.Effect env input st' sent) :
    StaysAdjacent adj sent := by
  have hrouted : ∀ {name c}, st.chan name = some c → ∀ t ∈ c.serverList, t ∈ adj :=
    fun hc => (h.routed _ _ hc).adjacent
  have hall : ∀ t ∈ st.sset.serverList, t ∈ adj := fun t ht => h.servers ▸ ht
  cases heff with
  | login cur username => exact staysAdjacent_nil adj
  | @logout cur st₁ _ hs₁ hpruned hsset huset hchan =>
      refine staysAdjacent_pruneLeaves hs₁ fun name c hc => ?_
      rw [hchan] at hc
      obtain ⟨d, hd, rfl⟩ := Option.map_eq_some_iff.mp hc
      cases st.uset.getUserByIp cur <;> exact fun t ht => hrouted hd t ht
  | strangerJoin name hnone => exact staysAdjacent_sendMessage hall _
  | join huser hs' hsset huset hchan => exact staysAdjacent_sendMessage hall _
  | @leave cur name user st₁ _ huser hs₁ hpruned hsset huset hchan =>
      refine staysAdjacent_pruneLeaves hs₁ (forall_chan_of_update (fun _ _ => hrouted) hchan ?_)
      intro c hc
      obtain ⟨d, hd, rfl⟩ := Option.map_eq_some_iff.mp hc
      exact fun t ht => hrouted hd t ht
  | say text huser hc =>
      exact (staysAdjacent_text adj _ _).append (staysAdjacent_sendMessage (hrouted hc) _)
  | list names huser => exact staysAdjacent_text adj _ _
  | who name names huser => exact staysAdjacent_text adj _ _
  | strangerKeepAlive hnone => exact staysAdjacent_nil adj
  | keepAlive huser => exact staysAdjacent_nil adj
  | s2sJoin hadj hs' hsame hchan =>
      split
      · exact staysAdjacent_nil adj
      · exact staysAdjacent_sendMessage hall _
  | s2sLeave hadj hs' hsame hchan => exact staysAdjacent_nil adj
  | s2sSay hc hpruned =>
      refine ((staysAdjacent_sendMessage ?_ _).append (staysAdjacent_text adj _ _)).append
        (staysAdjacent_pruneLeaves h.sound fun _ _ => hrouted)
      exact fun t ht => hrouted hc t (List.mem_of_mem_filter ht)
  | serverTimeout hs' hsame hchan => exact staysAdjacent_nil adj
  | joinSend =>
      intro d hd _ _
      obtain ⟨name, c, hc, hdst, -⟩ := (mem_joinSends h.sound).mp hd
      exact hrouted hc d.dst hdst
  | userTimeout hpass => exact staysAdjacent_nil adj

/-! ## The network -/

/-- A server that goes down has sent nothing. -/
theorem Reaction.sent_of_down {r : Reaction} (h : r.after = none) : r.sent = [] := by
  unfold Reaction.after at h
  unfold Reaction.sent
  cases hres : r.result with
  | error fault => rfl
  | ok pair => simp [hres] at h

structure Net.Inv (T : Topology) (g : Net) : Prop where
  nodes : ∀ n st, g.server n = some st → n ∈ T.nodes
  servers : ∀ n st, g.server n = some st → st.Inv (T.adj n)
  packets : ∀ p ∈ g.flight, p.src ∈ T.adj p.dst

theorem Topology.inv_initial (T : Topology) : T.initial.Inv T := by
  refine ⟨fun n st hst => ?_, fun n st hst => ?_, fun p hp => ?_⟩
  · simp only [Topology.initial] at hst
    split at hst
    · assumption
    · cases hst
  · simp only [Topology.initial] at hst
    split at hst
    · cases hst
      have hinv := State.inv_initial (T.adj n)
      rwa [State.initial_serverList (T.adj_nodup n)] at hinv
    · cases hst
  · cases hp

namespace Net

@[simp] theorem update_server_self (g : Net) (n : Addressable) (r : Reaction) :
    (g.update n r).server n = r.after :=
  Function.update_self ..

theorem update_server_of_ne {n m : Addressable} (hne : m ≠ n) (r : Reaction) :
    (g.update n r).server m = g.server m :=
  Function.update_of_ne hne ..

theorem Inv.take (h : g.Inv T) (p : Packet) : (g.take p).Inv T :=
  ⟨h.nodes, h.servers, fun q hq => h.packets q (List.mem_of_mem_erase hq)⟩

/-- A server that has reacted keeps the invariant of the network, up or down. -/
theorem Inv.update {n : Addressable} {r : Reaction} (h : g.Inv T) (hst : g.server n = some st)
    (hr : st.Reacts r) : (g.update n r).Inv T := by
  have hinv := h.servers n st hst
  refine ⟨fun m st' hm => ?_, fun m st' hm => ?_, fun p hp => ?_⟩
  · by_cases hmn : m = n
    · subst hmn
      exact h.nodes m st hst
    · rw [update_server_of_ne hmn] at hm
      exact h.nodes m st' hm
  · by_cases hmn : m = n
    · subst hmn
      rw [update_server_self] at hm
      exact hinv.step ⟨hr, hm⟩
    · rw [update_server_of_ne hmn] at hm
      exact h.servers m st' hm
  · rcases List.mem_append.mp hp with hp | hp
    · exact h.packets p hp
    · obtain ⟨rfl, hsent⟩ := mem_packets.mp hp
      cases hafter : r.after with
      | none =>
          rw [Reaction.sent_of_down hafter] at hsent
          cases hsent
      | some st' =>
          have hdst := hinv.staysAdjacent (hinv.effect_of_step ⟨hr, hafter⟩) _ hsent _ rfl
          exact T.adj_symm _ _ hdst

theorem Inv.step (h : g.Inv T) (hstep : Step g e g') : g'.Inv T := by
  cases hstep with
  | pass hst hr hkind => exact h.update hst hr
  | delivery hp hst hr hinput => exact (h.take _).update hst hr
  | lost hp hst => exact h.take _

end Net

theorem Topology.inv_of_run {es : List Event} (hrun : Run Net.Step T.initial es g) : g.Inv T :=
  hrun.invariant (P := fun _ => True) (fun _ _ _ hs _ hstep => hs.step hstep)
    (fun _ _ => trivial) T.inv_initial

theorem Topology.Reaches.inv {P : Event → Prop} (hg : T.Reaches P g) : g.Inv T := by
  obtain ⟨es, hrun, -⟩ := hg
  exact T.inv_of_run hrun

/-! ## The network's view of one channel -/

def Net.chan (g : Net) (n : Addressable) (name : Cname) : Option Channel :=
  (g.server n).bind fun st => st.chan name

def State.routes (st : State) (name : Cname) : List Server :=
  (st.chan name).elim [] Channel.serverList

theorem State.routes_of_chan {name : Cname} {c : Channel} (hc : st.chan name = some c) :
    st.routes name = c.serverList := by
  rw [State.routes, hc]
  rfl

theorem State.routes_congr {name : Cname} (h : st'.chan name = st.chan name) :
    st'.routes name = st.routes name := by
  rw [State.routes, h, State.routes]

/-- A client that joins changes no route. -/
theorem State.routes_of_join {name : Cname} {user : User}
    (hchan : st'.chan = Function.update st.chan name
      (some (((st.chan name).getD (Channel.new name)).addUser user))) :
    st'.routes name = st.routes name := by
  rw [State.routes, State.routes, hchan, Function.update_self]
  cases st.chan name <;> rfl

/-- A server that joins is routed to from then on, whether or not the channel is new. -/
theorem State.Inv.hears {name : Cname} {cur : Addressable} (h : st.Inv adj)
    (hchan : st'.chan = Function.update st.chan name
      (some ((st.chan name).elim ((Channel.new name).addServer env.now cur)
        fun c => c.heardFrom env.now cur))) :
    ∃ c', st'.chan name = some c' ∧ cur ∈ c'.serverList ∧
      (∀ t ∈ st.routes name, t ∈ c'.serverList) ∧
        c'.uset = (st.chan name).elim .empty Channel.uset := by
  rw [hchan, Function.update_self]
  refine ⟨_, rfl, ?_⟩
  cases hc : st.chan name with
  | none =>
      have hlist := (Channel.addServer_sset (c := Channel.new name)
        ServerSet.coherent_empty env.now cur).2
      refine ⟨?_, by simp [State.routes, hc], rfl⟩
      simp [hlist]
  | some c =>
      have hmem := (Channel.heardFrom_sset (h.routed name c hc).coherent env.now cur).2
      refine ⟨(hmem cur).mpr (Or.inr rfl), fun t ht => ?_, Channel.heardFrom_uset c env.now cur⟩
      rw [State.routes_of_chan hc] at ht
      exact (hmem t).mpr (Or.inl ht)

/-- The servers that the server at `n` sends the says of a channel to. -/
def Net.routes (g : Net) (n : Addressable) (name : Cname) : List Server :=
  (g.chan n name).elim [] Channel.serverList

namespace Net

variable {n m : Addressable} {r : Reaction} {name : Cname}

theorem chan_of_server (hst : g.server n = some st) (name : Cname) :
    g.chan n name = st.chan name := by
  simp [Net.chan, hst]

theorem routes_of_server (hst : g.server n = some st) (name : Cname) :
    g.routes n name = st.routes name := by
  rw [Net.routes, chan_of_server hst, State.routes]

theorem isSome_chan_of_server (h : (g.chan n name).isSome) : (g.server n).isSome := by
  cases hst : g.server n with
  | none => simp [Net.chan, hst] at h
  | some st => rfl

theorem chan_update_of_ne (hne : m ≠ n) (r : Reaction) (name : Cname) :
    (g.update n r).chan m name = g.chan m name := by
  rw [Net.chan, update_server_of_ne hne, Net.chan]

theorem routes_update_of_ne (hne : m ≠ n) (r : Reaction) (name : Cname) :
    (g.update n r).routes m name = g.routes m name := by
  rw [Net.routes, chan_update_of_ne hne, Net.routes]

theorem chan_update_self (hafter : r.after = some st') (name : Cname) :
    (g.update n r).chan n name = st'.chan name :=
  chan_of_server ((update_server_self g n r).trans hafter) name

theorem chan_of_down (hafter : r.after = none) : (g.update n r).chan n name = none := by
  simp [Net.chan, hafter]

theorem routes_update_self (hafter : r.after = some st') (name : Cname) :
    (g.update n r).routes n name = st'.routes name :=
  routes_of_server ((update_server_self g n r).trans hafter) name

/-- A server that stays up takes no other server down. -/
theorem isSome_server_update (hst : g.server n = some st) (hafter : r.after = some st')
    (m : Addressable) : ((g.update n r).server m).isSome = (g.server m).isSome := by
  by_cases hmn : m = n
  · rw [hmn, update_server_self, hafter, hst]
    rfl
  · rw [update_server_of_ne hmn]

theorem Inv.mem_nodes (h : g.Inv T) (hhas : (g.chan n name).isSome) : n ∈ T.nodes := by
  obtain ⟨c, hc⟩ := Option.isSome_iff_exists.mp hhas
  obtain ⟨st, hst, -⟩ := Option.bind_eq_some_iff.mp hc
  exact h.nodes n st hst

theorem has_of_mem_routes (h : m ∈ g.routes n name) : (g.chan n name).isSome := by
  rw [Net.routes] at h
  cases hc : g.chan n name with
  | none => simp [hc] at h
  | some c => rfl

end Net

end CliMessaging.Distributed
