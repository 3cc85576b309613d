import CliMessaging.Verification.Distributed.Authorship

/-! # Nothing comes unasked

A channel is known only where a client connected to the server has asked for it, and a
server is sent the says and the leaves of a channel only after it has asked for the
channel itself. -/

namespace CliMessaging.Distributed

open State Transition

def S2sMsg.channel : S2sMsg → Cname
  | .join name | .leave name | .say _ _ name _ => name

/-- In `es`, a client of a server that leads to `n` has asked for the channel. -/
def Topology.Wanted (T : Topology) (es : List Event) (n : Addressable) (name : Cname) : Prop :=
  ∃ s cur, Relation.ReflTransGen (fun a b => b ∈ T.adj a) s n ∧
    Requested es s cur (.join name)

/-- In `es`, the server at `n` has got a join for the channel from the one at `t`. -/
def Subscribed (es : List Event) (n t : Addressable) (name : Cname) : Prop :=
  ∃ r, Event.delivery ⟨t, n, .join name⟩ r ∈ es

/-- The channels of the server are wanted, and their routes are subscribed. -/
structure State.Solicited (T : Topology) (es : List Event) (n : Addressable) (st : State) :
    Prop where
  wanted : ∀ name c, st.chan name = some c → T.Wanted es n name
  routes : ∀ name c, st.chan name = some c → ∀ t ∈ c.serverList, Subscribed es n t name

/-- The channel is wanted at the sender, and the receiver has subscribed to it there unless
the datagram is a join. -/
structure Packet.Solicited (T : Topology) (es : List Event) (p : Packet) : Prop where
  wanted : T.Wanted es p.src p.msg.channel
  subscribed : ¬ p.msg.isJoin → Subscribed es p.src p.dst p.msg.channel

variable {T : Topology} {g : Net} {es : List Event} {e : Event} {adj : List Server}
  {st st' : State} {env : Env} {input : Input} {sent : List Datagram} {d : Datagram}
  {n cur t : Addressable} {r : Reaction} {name : Cname} {msg : S2sMsg}

theorem Topology.Wanted.mono (h : T.Wanted es n name) (e : Event) :
    T.Wanted (es ++ [e]) n name := by
  obtain ⟨s, cur, hpath, hreq⟩ := h
  exact ⟨s, cur, hpath, hreq.mono e⟩

theorem Subscribed.mono (h : Subscribed es n t name) (e : Event) :
    Subscribed (es ++ [e]) n t name := by
  obtain ⟨r, hr⟩ := h
  exact ⟨r, List.mem_append_left _ hr⟩

/-! ## Server sets -/

theorem Channel.removeServer_subset (c : Channel) (server : Server) :
    (c.removeServer server).serverList ⊆ c.serverList := by
  simp only [Channel.removeServer, Channel.serverList, ServerSet.removeServerByIp]
  split
  · exact List.Subset.refl _
  · apply List.eraseP_subset

theorem Channel.foldl_removeServer_subset (dead : List Server) (c : Channel) :
    (dead.foldl Channel.removeServer c).serverList ⊆ c.serverList := by
  induction dead generalizing c with
  | nil => exact List.Subset.refl _
  | cons t dead ih => exact List.Subset.trans (ih (c.removeServer t)) (c.removeServer_subset t)

theorem Channel.foldl_removeUser_serverList (us : List User) (c : Channel) :
    (us.foldl Channel.removeUser c).serverList = c.serverList := by
  induction us generalizing c with
  | nil => rfl
  | cons u us ih => exact ih (c.removeUser u)

/-! ## One pass -/

/-- The input asks the server for the channel, for a client or for an adjacent server. -/
inductive Input.Asks (adj : List Server) (name : Cname) : Input → Prop where
  | client (cur : Addressable) : Asks adj name (.recv cur (.client (.join name)))
  | server {cur : Addressable} : cur ∈ adj → Asks adj name (.recv cur (.s2s (.join name)))

namespace State

/-- A channel after a pass was there before or has just been asked for. -/
theorem Inv.chan_after (h : st.Inv adj) (heff : st.Effect env input st' sent) {c' : Channel}
    (hc' : st'.chan name = some c') : (∃ c, st.chan name = some c) ∨ input.Asks adj name := by
  have hmap : ∀ {other : Cname} {f : Channel → Channel}, name = other →
      (st.chan other).map f = some c' → (∃ c, st.chan name = some c) := by
    rintro other f rfl hfound
    obtain ⟨c, hc, -⟩ := Option.map_eq_some_iff.mp hfound
    exact ⟨c, hc⟩
  cases heff with
  | logout hs₁ hpruned hsset huset hchan =>
      obtain ⟨hc₁, -⟩ := hpruned.chan_eq_some.mp hc'
      rw [hchan] at hc₁
      exact Or.inl (hmap rfl hc₁)
  | @join cur other user _ huser hs' hsset huset hchan =>
      rw [hchan] at hc'
      refine chan_update_cases hc' (fun hname _ => ?_) fun hc => Or.inl ⟨c', hc⟩
      cases hname
      exact Or.inr (.client cur)
  | leave huser hs₁ hpruned hsset huset hchan =>
      obtain ⟨hc₁, -⟩ := hpruned.chan_eq_some.mp hc'
      rw [hchan] at hc₁
      exact chan_update_cases hc₁ (fun hname hfound => Or.inl (hmap hname hfound))
        fun hc => Or.inl ⟨c', hc⟩
  | s2sJoin hadj hs' hsame hchan =>
      rw [hchan] at hc'
      refine chan_update_cases hc' (fun hname _ => ?_) fun hc => Or.inl ⟨c', hc⟩
      cases hname
      exact Or.inr (.server (h.servers ▸ hadj))
  | s2sLeave hadj hs' hsame hchan =>
      rw [hchan] at hc'
      exact chan_update_cases hc' (fun hname hfound => Or.inl (hmap hname hfound))
        fun hc => Or.inl ⟨c', hc⟩
  | s2sSay hc hpruned => exact Or.inl ⟨c', (hpruned.chan_eq_some.mp hc').1⟩
  | serverTimeout hs' hsame hchan =>
      obtain ⟨dead, hdead⟩ := hchan name
      rw [hdead] at hc'
      exact Or.inl (hmap rfl hc')
  | userTimeout hpass =>
      rw [h.sound.userTimeoutPass_chan hpass] at hc'
      exact Or.inl (hmap rfl hc')
  | _ => exact Or.inl ⟨c', hc'⟩

/-- A route after a pass was there before or has just been asked for. -/
theorem Inv.route_after (h : st.Inv adj) (heff : st.Effect env input st' sent) {c' : Channel}
    (hc' : st'.chan name = some c') (ht : t ∈ c'.serverList) :
    (∃ c, st.chan name = some c ∧ t ∈ c.serverList) ∨
      input = .recv t (.s2s (.join name)) := by
  obtain ⟨c, hc, hchanges⟩ := h.channel_after heff hc'
  have hold : t ∈ c.serverList → ∃ c, st.chan name = some c ∧ t ∈ c.serverList := by
    intro ht
    rcases hc with hc | rfl
    · exact ⟨c, hc, ht⟩
    · cases ht
  cases hchanges with
  | dismiss hjoin =>
      rw [Channel.foldl_removeUser_serverList] at ht
      exact Or.inl (hold ht)
  | enroll user hnone hjoin => exact Or.inl (hold ht)
  | forget dead hnone hjoin => exact Or.inl (hold (Channel.foldl_removeServer_subset dead c ht))
  | hear hnone hinput hhears =>
      rcases (hhears.servers t).mp ht with ht | rfl
      · exact Or.inl (hold ht)
      · exact Or.inr hinput

/-- The server sends a join for a channel that it has or is asked for, and all else along
the routes of the channel. -/
def Addresses (st : State) (adj : List Server) (input : Input) (sent : List Datagram) : Prop :=
  ∀ d ∈ sent, ∀ msg, d.msg = .s2s msg →
    (∃ c, st.chan msg.channel = some c ∧ d.dst ∈ c.serverList) ∨
      msg.isJoin ∧ input.Asks adj msg.channel

theorem addresses_nil (st : State) (adj : List Server) (input : Input) :
    st.Addresses adj input [] := by
  intro d hd
  cases hd

theorem Addresses.append {sent' : List Datagram} (h : st.Addresses adj input sent)
    (h' : st.Addresses adj input sent') : st.Addresses adj input (sent ++ sent') := by
  intro d hd
  rcases List.mem_append.mp hd with hd | hd
  · exact h d hd
  · exact h' d hd

theorem addresses_text (targets : List Addressable) (text : Text) :
    st.Addresses adj input (sendMessage targets (.text text)) := by
  intro d hd msg hmsg
  rw [(mem_sendMessage.mp hd).2] at hmsg
  cases hmsg

theorem addresses_joins (hasks : input.Asks adj name) (targets : List Addressable) :
    st.Addresses adj input (broadcastS2sJoin targets name) := by
  intro d hd msg hmsg
  rw [(mem_sendMessage.mp hd).2] at hmsg
  cases hmsg
  exact Or.inr ⟨rfl, hasks⟩

theorem addresses_routes {c : Channel} {targets : List Addressable}
    (hc : st.chan msg.channel = some c) (htargets : targets ⊆ c.serverList) :
    st.Addresses adj input (sendMessage targets (.s2s msg)) := by
  intro d hd msg' hmsg
  obtain ⟨hdst, hd⟩ := mem_sendMessage.mp hd
  rw [hd] at hmsg
  cases hmsg
  exact Or.inl ⟨c, hc, htargets hdst⟩

/-- The leaves that pruning sends after a pass that has only taken users off channels. -/
theorem addresses_pruneLeaves {st₁ : State} (hs : st₁.Sound)
    (hroutes : ∀ name c₁, st₁.chan name = some c₁ →
      ∃ c, st.chan name = some c ∧ c₁.serverList = c.serverList) :
    st.Addresses adj input (pruneLeaves st₁) := by
  intro d hd msg hmsg
  obtain ⟨name, c₁, hc₁, -, hdst, hleave⟩ := (mem_pruneLeaves hs).mp hd
  rw [hleave] at hmsg
  cases hmsg
  obtain ⟨c, hc, hsame⟩ := hroutes name c₁ hc₁
  exact Or.inl ⟨c, hc, hsame ▸ hdst⟩

theorem Inv.addresses (h : st.Inv adj) (heff : st.Effect env input st' sent) :
    st.Addresses adj input sent := by
  cases heff with
  | @logout cur st₁ _ hs₁ hpruned hsset huset hchan =>
      apply addresses_pruneLeaves hs₁
      intro name c₁ hc₁
      rw [hchan] at hc₁
      obtain ⟨c, hc, rfl⟩ := Option.map_eq_some_iff.mp hc₁
      refine ⟨c, hc, ?_⟩
      cases st.uset.getUserByIp cur <;> rfl
  | @strangerJoin cur name hnone => exact addresses_joins (.client cur) _
  | @join cur name user _ huser hs' hsset huset hchan => exact addresses_joins (.client cur) _
  | @leave cur name user st₁ _ huser hs₁ hpruned hsset huset hchan =>
      apply addresses_pruneLeaves hs₁
      intro other c₁ hc₁
      rw [hchan] at hc₁
      refine chan_update_cases hc₁ (fun hname hfound => ?_) fun hc => ⟨c₁, hc, rfl⟩
      cases hname
      obtain ⟨c, hc, rfl⟩ := Option.map_eq_some_iff.mp hfound
      exact ⟨c, hc, rfl⟩
  | @say cur name user c text huser hc =>
      exact (addresses_text _ _).append
        (addresses_routes hc (List.Subset.refl _))
  | list names huser => exact addresses_text _ _
  | who name names huser => exact addresses_text _ _
  | s2sJoin hadj hs' hsame hchan =>
      split
      · exact addresses_nil st adj _
      · exact addresses_joins (.server (h.servers ▸ hadj)) _
  | @s2sSay cur uid username name text c _ hc hpruned =>
      have hsub : c.serverList.filter (· ≠ cur) ⊆ c.serverList :=
        fun t ht => List.mem_of_mem_filter ht
      exact ((addresses_routes hc hsub).append
        (addresses_text _ _)).append
          (addresses_pruneLeaves h.sound fun _ c hc => ⟨c, hc, rfl⟩)
  | joinSend =>
      intro d hd msg hmsg
      obtain ⟨name, c, hc, hdst, hjoin⟩ := (mem_joinSends h.sound).mp hd
      rw [hjoin] at hmsg
      cases hmsg
      exact Or.inl ⟨c, hc, hdst⟩
  | _ => exact addresses_nil st adj _

end State

/-! ## Runs -/

/-- A channel that a server is asked for is wanted there. -/
theorem Input.Asks.wanted
    (hr : Reacting T (State.Solicited T) (Packet.Solicited T) es e n st r)
    (h : r.input.Asks (T.adj n) name) : T.Wanted (es ++ [e]) n name := by
  generalize hinput : r.input = input at h
  cases h with
  | client cur => exact ⟨n, cur, .refl, hr.handles.requested hinput es⟩
  | @server cur hadj =>
      have hpacket : e.packet? = some ⟨cur, n, .join name⟩ := by
        rw [hr.handles.eq_delivery hinput]
        rfl
      obtain ⟨s, client, hpath, hreq⟩ := (hr.packet _ hpacket).wanted
      exact ⟨s, client, hpath.tail (T.adj_symm _ _ hadj), hreq.mono e⟩

theorem Topology.keeps_solicited (T : Topology) :
    T.Keeps (State.Solicited T) (Packet.Solicited T) where
  initial n hn := by
    refine ⟨fun name c hc => ?_, fun name c hc => ?_⟩
    · cases hc
    · cases hc
  server_mono e h :=
    ⟨fun name c hc => (h.wanted name c hc).mono e,
      fun name c hc t ht => (h.routes name c hc t ht).mono e⟩
  packet_mono e h := ⟨h.wanted.mono e, fun hjoin => (h.subscribed hjoin).mono e⟩
  server {es e n st r st'} hr heff := by
    refine ⟨fun name c hc => ?_, fun name c hc t ht => ?_⟩
    · rcases hr.inv.chan_after heff hc with ⟨c, hc⟩ | hasks
      · exact (hr.server.wanted name c hc).mono e
      · exact hasks.wanted hr
    · rcases hr.inv.route_after heff hc ht with ⟨c, hc, ht⟩ | hinput
      · exact (hr.server.routes name c hc t ht).mono e
      · rw [hr.handles.eq_delivery hinput]
        exact ⟨r, by simp⟩
  packets {es e n st r st' p} hr heff hp := by
    obtain ⟨rfl, hd⟩ := mem_packets.mp hp
    rcases hr.inv.addresses heff _ hd p.msg rfl with ⟨c, hc, hdst⟩ | ⟨hjoin, hasks⟩
    · refine ⟨(hr.server.wanted _ c hc).mono e, fun _ => ?_⟩
      exact (hr.server.routes _ c hc p.dst hdst).mono e
    · exact ⟨hasks.wanted hr, fun hnot => absurd hjoin hnot⟩

/-- In every run, a server knows a channel only if a client of a server that leads to it has
asked for the channel. Its routes for the channel, and the says and leaves that are on their
way from it, lead only to servers whose join for the channel has been delivered to it. -/
theorem traffic_is_solicited (hrun : Run Net.Step T.initial es g) :
    (∀ n name c, g.chan n name = some c →
      T.Wanted es n name ∧ ∀ t ∈ c.serverList, Subscribed es n t name) ∧
    ∀ p ∈ g.flight, T.Wanted es p.src p.msg.channel ∧
      (¬ p.msg.isJoin → Subscribed es p.src p.dst p.msg.channel) := by
  have h := T.keeps_solicited.records hrun
  refine ⟨fun n name c hc => ?_, fun p hp => ?_⟩
  · obtain ⟨st, hst, hc⟩ := Option.bind_eq_some_iff.mp hc
    have hserver := h.servers n st hst
    exact ⟨hserver.wanted name c hc, hserver.routes name c hc⟩
  · have hpacket := h.packets p hp
    exact ⟨hpacket.wanted, hpacket.subscribed⟩

/-- The say on its way to the second server answers that server's own join. -/
theorem traffic_is_solicited_say :
    ∃ es g, Run Net.Step twoServers.initial es g ∧
      g.flight = [⟨node 1, node 2, greeting.s2s⟩] ∧
      twoServers.Wanted es (node 1) chat ∧ Subscribed es (node 1) (node 2) chat := by
  have hfacts : (twoServers.initial.replay (crossing.take 5)).map (fun p => p.2.flight) =
      some [⟨node 1, node 2, greeting.s2s⟩] := by decide
  obtain ⟨⟨es, g⟩, hreplay, hflight⟩ := Option.map_eq_some_iff.mp hfacts
  have hrun := Net.run_of_replay hreplay
  obtain ⟨hwanted, hsubscribed⟩ := (traffic_is_solicited hrun).2 ⟨node 1, node 2, greeting.s2s⟩
    (hflight ▸ List.mem_singleton_self _)
  exact ⟨es, g, hrun, hflight, hwanted, hsubscribed Bool.false_ne_true⟩

end CliMessaging.Distributed
