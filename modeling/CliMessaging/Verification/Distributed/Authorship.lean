import CliMessaging.Verification.Distributed.ChannelUsers
import CliMessaging.Verification.Distributed.Histories
import CliMessaging.Verification.Distributed.SayFlood

/-! # Who has said what

A say, wherever it is in the network, was accepted from a client that had logged in under
the name it bears, and it is shown only to clients that had joined its channel. -/

namespace CliMessaging.Distributed

open State Transition

/-- In `es`, a client logs in under the name of the message, and later its server accepts
the message from it. -/
def Said.Authored (m : Said) (es : List Event) : Prop :=
  ∃ n cur past r future, es = past ++ .pass n r :: future ∧
    r.input = m.request cur ∧ r.before.Accepts r m ∧ Requested past n cur (.login m.username)

/-- In `es`, the user logs in at `n` and later joins the channel there. -/
def User.Joined (u : User) (es : List Event) (n : Addressable) (name : Cname) : Prop :=
  ∃ past r future, es = past ++ .pass n r :: future ∧
    r.input = .recv u.addr (.client (.join name)) ∧ u ∈ r.before.uset.userList ∧
      Requested past n u.addr (.login u.name)

/-- Everybody at the server has logged in there, and everybody on a channel has joined it. -/
structure State.Attributed (es : List Event) (n : Addressable) (st : State) : Prop where
  users : ∀ u ∈ st.uset.userList, Requested es n u.addr (.login u.name)
  members : ∀ name c, st.chan name = some c → ∀ u ∈ c.userList, u.Joined es n name

/-- If the datagram is a say, its message has an author. -/
def Packet.Attributed (es : List Event) (p : Packet) : Prop :=
  ∀ m : Said, p.msg = m.s2s → m.Authored es

/-- How a server comes by a message: from a client of its own or from another server. -/
inductive Said.Source (m : Said) (st : State) (env : Env) (input : Input) : Prop where
  | client {cur : Addressable} {user : User} : input = m.request cur →
      st.uset.getUserByIp cur = some user → m.username = user.name → m.uid = env.uid →
      (st.chan m.channel).isSome → Source m st env input
  | server {cur : Addressable} : input = .recv cur (.s2s m.s2s) → Source m st env input

/-- The server has every say it sends from somewhere, and shows it to members of its channel. -/
def State.Relays (st : State) (env : Env) (input : Input) (sent : List Datagram) : Prop :=
  ∀ d ∈ sent, ∀ m : Said, (d.msg = .s2s m.s2s → m.Source st env input) ∧
    (d.msg = m.toUser → (∃ uid, Said.Source { m with uid := uid } st env input) ∧
      ∃ c, st.chan m.channel = some c ∧ ∃ u ∈ c.userList, u.addr = d.dst)

variable {T : Topology} {g : Net} {es : List Event} {e : Event} {adj : List Server}
  {st st' : State} {env : Env} {input : Input} {sent : List Datagram} {d : Datagram}
  {n cur : Addressable} {r : Reaction} {m : Said} {name : Cname} {u user : User}

theorem Said.Authored.mono (h : m.Authored es) (later : List Event) :
    m.Authored (es ++ later) := by
  obtain ⟨n, cur, past, r, future, rfl, hrest⟩ := h
  exact ⟨n, cur, past, r, future ++ later, by simp, hrest⟩

theorem User.Joined.mono (h : u.Joined es n name) (later : List Event) :
    u.Joined (es ++ later) n name := by
  obtain ⟨past, r, future, rfl, hrest⟩ := h
  exact ⟨past, r, future ++ later, by simp, hrest⟩

/-! ## User sets lose users, or gain one -/

namespace UserSet

variable {s : UserSet}

theorem removeUser_subset (s : UserSet) (user : User) :
    (s.removeUser user).userList ⊆ s.userList := by
  apply List.eraseP_subset

theorem removeUserByName_subset (s : UserSet) (uname : Uname) :
    (s.removeUserByName uname).userList ⊆ s.userList := by
  unfold removeUserByName
  split
  · exact List.Subset.refl _
  · exact s.removeUser_subset _

theorem removeUserByIp_subset (s : UserSet) (a : Addressable) :
    (s.removeUserByIp a).userList ⊆ s.userList := by
  unfold removeUserByIp
  split
  · exact List.Subset.refl _
  · exact s.removeUser_subset _

theorem mem_of_mem_addUser (hu : u ∈ (s.addUser user).userList) : u ∈ s.userList ∨ u = user := by
  rcases List.mem_append.mp hu with hu | hu
  · exact Or.inl (s.removeUserByName_subset _ (removeUserByIp_subset _ _ hu))
  · exact Or.inr (List.mem_singleton.mp hu)

theorem foldl_removeUser_subset (us : List User) (s : UserSet) :
    (us.foldl removeUser s).userList ⊆ s.userList := by
  induction us generalizing s with
  | nil => exact List.Subset.refl _
  | cons v us ih => exact List.Subset.trans (ih (s.removeUser v)) (s.removeUser_subset v)

end UserSet

theorem Channel.mem_of_mem_addUser {c : Channel} (hu : u ∈ (c.addUser user).userList) :
    u ∈ c.userList ∨ u = user := by
  rcases UserSet.mem_of_mem_addUser hu with hu | hu
  · exact Or.inl (c.uset.removeUserByName_subset _ (UserSet.removeUserByIp_subset _ _ hu))
  · exact Or.inr hu

/-! ## One pass -/

namespace State

/-- Everybody who is logged in after a pass was so before or has just logged in. -/
theorem Inv.user_after (h : st.Inv adj) (heff : st.Effect env input st' sent)
    (hu : u ∈ st'.uset.userList) :
    u ∈ st.uset.userList ∨ input = .recv u.addr (.client (.login u.name)) := by
  cases heff with
  | login cur username =>
      rcases (h.cliLogin_users env.now username cur u).mp hu with ⟨hold, -⟩ | rfl
      · exact Or.inl hold
      · exact Or.inr rfl
  | @logout cur st₁ _ hs₁ hpruned hsset huset hchan =>
      rw [hpruned.same.uset, huset] at hu
      exact Or.inl (st.uset.removeUserByIp_subset cur hu)
  | join huser hs' hsset huset hchan => exact Or.inl (huset ▸ hu)
  | leave huser hs₁ hpruned hsset huset hchan =>
      rw [hpruned.same.uset, huset] at hu
      exact Or.inl hu
  | s2sJoin hadj hs' hsame hchan => exact Or.inl (hsame.uset ▸ hu)
  | s2sLeave hadj hs' hsame hchan => exact Or.inl (hsame.uset ▸ hu)
  | s2sSay hc hpruned => exact Or.inl (hpruned.same.uset ▸ hu)
  | serverTimeout hs' hsame hchan => exact Or.inl (hsame.uset ▸ hu)
  | userTimeout hpass =>
      obtain ⟨st₁, hok, -, -, -, huset, -⟩ := h.sound.removeIdleUsers env.now st.uset.userList
      rw [Distributed.userTimeoutPass, hok] at hpass
      cases hpass
      rw [huset] at hu
      exact Or.inl (UserSet.foldl_removeUser_subset _ _ hu)
  | _ => exact Or.inl hu

/-- Everybody on a channel after a pass was on it before or has just joined it. -/
theorem Inv.member_after (h : st.Inv adj) (heff : st.Effect env input st' sent) {c' : Channel}
    (hc' : st'.chan name = some c') (hu : u ∈ c'.userList) :
    (∃ c, st.chan name = some c ∧ u ∈ c.userList) ∨
      input = .recv u.addr (.client (.join name)) ∧ u ∈ st.uset.userList := by
  cases heff with
  | @logout cur st₁ _ hs₁ hpruned hsset huset hchan =>
      obtain ⟨hc₁, -⟩ := hpruned.chan_eq_some.mp hc'
      rw [hchan] at hc₁
      obtain ⟨c, hc, rfl⟩ := Option.map_eq_some_iff.mp hc₁
      refine Or.inl ⟨c, hc, ?_⟩
      cases huser : st.uset.getUserByIp cur with
      | none =>
          rw [huser] at hu
          exact hu
      | some user =>
          rw [huser] at hu
          exact c.uset.removeUser_subset user hu
  | @join cur other user _ huser hs' hsset huset hchan =>
      rw [hchan] at hc'
      refine chan_update_cases hc' (fun hname hfound => ?_) fun hc => Or.inl ⟨c', hc, hu⟩
      cases hname
      cases hfound
      rcases Channel.mem_of_mem_addUser hu with hold | rfl
      · cases hc : st.chan name with
        | none =>
            rw [hc] at hold
            cases hold
        | some c =>
            rw [hc] at hold
            exact Or.inl ⟨c, rfl, hold⟩
      · obtain ⟨hin, rfl⟩ := h.users.getUserByIp_eq_some.mp huser
        exact Or.inr ⟨rfl, hin⟩
  | @leave cur other user st₁ _ huser hs₁ hpruned hsset huset hchan =>
      obtain ⟨hc₁, -⟩ := hpruned.chan_eq_some.mp hc'
      rw [hchan] at hc₁
      refine chan_update_cases hc₁ (fun hname hfound => ?_) fun hc => Or.inl ⟨c', hc, hu⟩
      cases hname
      obtain ⟨c, hc, rfl⟩ := Option.map_eq_some_iff.mp hfound
      exact Or.inl ⟨c, hc, c.uset.removeUser_subset user hu⟩
  | @s2sJoin cur other _ hadj hs' hsame hchan =>
      rw [hchan] at hc'
      refine chan_update_cases hc' (fun hname hfound => ?_) fun hc => Or.inl ⟨c', hc, hu⟩
      cases hname
      cases hfound
      cases hc : st.chan name with
      | none =>
          rw [hc] at hu
          cases hu
      | some c =>
          rw [hc, Option.elim_some, Channel.userList, Channel.heardFrom_uset] at hu
          exact Or.inl ⟨c, rfl, hu⟩
  | @s2sLeave cur other _ hadj hs' hsame hchan =>
      rw [hchan] at hc'
      refine chan_update_cases hc' (fun hname hfound => ?_) fun hc => Or.inl ⟨c', hc, hu⟩
      cases hname
      obtain ⟨c, hc, rfl⟩ := Option.map_eq_some_iff.mp hfound
      exact Or.inl ⟨c, hc, hu⟩
  | s2sSay hc hpruned => exact Or.inl ⟨c', (hpruned.chan_eq_some.mp hc').1, hu⟩
  | serverTimeout hs' hsame hchan =>
      obtain ⟨dead, hdead⟩ := hchan name
      rw [hdead] at hc'
      obtain ⟨c, hc, rfl⟩ := Option.map_eq_some_iff.mp hc'
      rw [Channel.userList, Channel.foldl_removeServer_uset] at hu
      exact Or.inl ⟨c, hc, hu⟩
  | userTimeout hpass =>
      rw [h.sound.userTimeoutPass_chan hpass] at hc'
      obtain ⟨c, hc, rfl⟩ := Option.map_eq_some_iff.mp hc'
      rw [Channel.userList, Channel.foldl_removeUser_uset] at hu
      exact Or.inl ⟨c, hc, UserSet.foldl_removeUser_subset _ _ hu⟩
  | _ => exact Or.inl ⟨c', hc', hu⟩

end State

/-! ## Says that a pass sends -/

namespace State

theorem relays_nil (st : State) (env : Env) (input : Input) : st.Relays env input [] := by
  intro d hd
  cases hd

theorem relays_of_s2s (hnone : ∀ d ∈ sent, ∃ msg : S2sMsg, d.msg = .s2s msg ∧ ¬ msg.isSay) :
    st.Relays env input sent := by
  intro d hd m
  obtain ⟨msg, hmsg, hsay⟩ := hnone d hd
  rw [hmsg]
  refine ⟨fun heq => ?_, fun heq => ?_⟩
  · rw [Msg.s2s.inj heq] at hsay
    exact absurd rfl hsay
  · cases heq

theorem relays_sendMessage {targets : List Addressable} {msg : S2sMsg} (hsay : ¬ msg.isSay) :
    st.Relays env input (sendMessage targets (.s2s msg)) :=
  relays_of_s2s fun _ hd => ⟨msg, (mem_sendMessage.mp hd).2, hsay⟩

theorem relays_pruneLeaves {st₁ : State} (hs : st₁.Sound) :
    st.Relays env input (pruneLeaves st₁) := by
  apply relays_of_s2s
  intro d hd
  obtain ⟨name, -, -, -, -, hmsg⟩ := (mem_pruneLeaves hs).mp hd
  exact ⟨.leave name, hmsg, Bool.false_ne_true⟩

theorem Relays.append {sent' : List Datagram} (h : st.Relays env input sent)
    (h' : st.Relays env input sent') : st.Relays env input (sent ++ sent') := by
  intro d hd
  rcases List.mem_append.mp hd with hd | hd
  · exact h d hd
  · exact h' d hd

theorem relays_copies (hsource : m.Source st env input) (targets : List Addressable) :
    st.Relays env input (broadcastS2sSay targets m.uid m.username m.channel m.text) := by
  intro d hd m'
  obtain ⟨-, hmsg⟩ := mem_sendMessage.mp hd
  rw [hmsg]
  refine ⟨fun heq => ?_, fun heq => ?_⟩
  · cases m
    cases m'
    cases heq
    exact hsource
  · cases heq

theorem relays_texts (hsource : m.Source st env input) {c : Channel}
    (hc : st.chan m.channel = some c) :
    st.Relays env input
      (broadcastSay (c.userList.map User.addr) m.channel m.username m.text) := by
  intro d hd m'
  obtain ⟨hdst, hmsg⟩ := mem_sendMessage.mp hd
  obtain ⟨u, hu, haddr⟩ := List.mem_map.mp hdst
  rw [hmsg]
  refine ⟨fun heq => ?_, fun heq => ?_⟩
  · cases heq
  · cases m
    cases m'
    cases heq
    exact ⟨⟨_, hsource⟩, c, hc, u, hu, haddr⟩

theorem relays_listing {targets : List Addressable} {text : Text}
    (hlist : ∀ channel username message, text ≠ .say channel username message) :
    st.Relays env input (sendMessage targets (.text text)) := by
  intro d hd m
  rw [(mem_sendMessage.mp hd).2]
  refine ⟨fun heq => ?_, fun heq => ?_⟩
  · cases heq
  · exact absurd (Msg.text.inj heq) (hlist _ _ _)

/-- A pass sends no say but the one its input has brought. -/
theorem Inv.relays (h : st.Inv adj) (heff : st.Effect env input st' sent) :
    st.Relays env input sent := by
  cases heff with
  | logout hs₁ hpruned hsset huset hchan => exact relays_pruneLeaves hs₁
  | strangerJoin name hnone => exact relays_sendMessage Bool.false_ne_true
  | join huser hs' hsset huset hchan => exact relays_sendMessage Bool.false_ne_true
  | leave huser hs₁ hpruned hsset huset hchan => exact relays_pruneLeaves hs₁
  | @say cur name user c text huser hc =>
      have hsource : Said.Source ⟨env.uid, user.name, name, text⟩ st env
          (.recv cur (.client (.say name text))) :=
        .client rfl huser rfl rfl (by simp [hc])
      exact (relays_texts hsource hc).append (relays_copies hsource c.serverList)
  | list names huser => exact relays_listing fun _ _ _ => Text.noConfusion
  | who name names huser => exact relays_listing fun _ _ _ => Text.noConfusion
  | s2sJoin hadj hs' hsame hchan =>
      split
      · exact relays_nil st env _
      · exact relays_sendMessage Bool.false_ne_true
  | @s2sSay cur uid username name text c _ hc hpruned =>
      have hsource : Said.Source ⟨uid, username, name, text⟩ st env
          (.recv cur (.s2s (.say uid username name text))) := .server rfl
      exact ((relays_copies hsource _).append (relays_texts hsource hc)).append
        (relays_pruneLeaves h.sound)
  | joinSend =>
      apply relays_of_s2s
      intro d hd
      obtain ⟨name, -, -, -, hmsg⟩ := (mem_joinSends h.sound).mp hd
      exact ⟨.join name, hmsg, Bool.false_ne_true⟩
  | _ => exact relays_nil st env _

end State

/-! ## Runs -/

/-- A message that a server has from somewhere has an author. -/
theorem Said.Source.authored
    (hr : Reacting T State.Attributed Packet.Attributed es e n st r)
    (h : m.Source st r.env r.input) : m.Authored (es ++ [e]) := by
  cases h with
  | @client cur user hinput huser hname huid hchan =>
      obtain ⟨hu, haddr⟩ := hr.inv.users.getUserByIp_eq_some.mp huser
      have hlogin := hr.server.users user hu
      rw [haddr, ← hname] at hlogin
      have haccepts : r.before.Accepts r m := by
        rw [hr.reacts.1]
        exact ⟨cur, user, hinput, huser, hname, huid, hchan⟩
      refine ⟨n, cur, es, r, [], ?_, hinput, haccepts, hlogin⟩
      rw [hr.handles.eq_pass hinput]
  | @server cur hinput =>
      have hpacket : e.packet? = some ⟨cur, n, m.s2s⟩ := by
        rw [hr.handles.eq_delivery hinput]
        rfl
      exact (hr.packet _ hpacket m rfl).mono [e]

theorem Topology.keeps_attributed (T : Topology) :
    T.Keeps State.Attributed Packet.Attributed where
  initial n hn := by
    refine ⟨fun u hu => ?_, fun name c hc => ?_⟩
    · cases hu
    · cases hc
  server_mono e h :=
    ⟨fun u hu => (h.users u hu).mono e, fun name c hc u hu => (h.members name c hc u hu).mono [e]⟩
  packet_mono e h := fun m hmsg => (h m hmsg).mono [e]
  server {es e n st r st'} hr heff := by
    refine ⟨fun u hu => ?_, fun name c hc u hu => ?_⟩
    · rcases hr.inv.user_after heff hu with hold | hinput
      · exact (hr.server.users u hold).mono e
      · exact hr.handles.requested hinput es
    · rcases hr.inv.member_after heff hc hu with ⟨c, hc, hu⟩ | ⟨hinput, hin⟩
      · exact (hr.server.members name c hc u hu).mono [e]
      · refine ⟨es, r, [], ?_, hinput, ?_, hr.server.users u hin⟩
        · rw [hr.handles.eq_pass hinput]
        · rw [hr.reacts.1]
          exact hin
  packets {es e n st r st' p} hr heff hp := by
    intro m hmsg
    obtain ⟨-, hd⟩ := mem_packets.mp hp
    have hsource := (hr.inv.relays heff _ hd m).1 (congrArg Msg.s2s hmsg)
    exact hsource.authored hr

/-- A say that is shown to a client has an author, and the client has joined its channel. -/
theorem Reacting.text_has_author
    (hr : Reacting T State.Attributed Packet.Attributed es e n st r)
    (heff : st.Effect r.env r.input st' r.sent) (hd : d ∈ r.sent) (hmsg : d.msg = m.toUser) :
    (∃ uid, Said.Authored { m with uid := uid } (es ++ [e])) ∧
      ∃ u : User, u.addr = d.dst ∧ u.Joined es n m.channel := by
  obtain ⟨⟨uid, hsource⟩, c, hc, u, hu, haddr⟩ := (hr.inv.relays heff d hd m).2 hmsg
  exact ⟨⟨uid, hsource.authored hr⟩, u, haddr, hr.server.members m.channel c hc u hu⟩

/-- In every run, a say that a server passes on to another was accepted, at some server, from
a client that had logged in there under the name it bears. A say that is shown to a client
was too, and the client's user had logged in at the server that shows it and had joined the
channel there. -/
theorem says_have_authors (hrun : Run Net.Step T.initial (es ++ [e]) g) (hd : d ∈ e.sent)
    (m : Said) :
    (d.msg = .s2s m.s2s → m.Authored (es ++ [e])) ∧
      (d.msg = m.toUser → (∃ uid, Said.Authored { m with uid := uid } (es ++ [e])) ∧
        ∃ u : User, u.addr = d.dst ∧ u.Joined es e.node m.channel) := by
  obtain ⟨st, r, st', hr, heff, hd⟩ := T.keeps_attributed.sender hrun hd
  refine ⟨fun hmsg => ?_, hr.text_has_author heff hd⟩
  exact ((hr.inv.relays heff d hd m).1 hmsg).authored hr

/-- Two clients meet on a channel across two servers. -/
def gathering : List Choice :=
  [.pass (node 1) ⟨0, 0⟩ (.recv (desk 1) (.client (.login alice))),
    .pass (node 1) ⟨0, 0⟩ (.recv (desk 1) (.client (.join chat))),
    .deliver (node 1) (node 2) ⟨0, 0⟩,
    .deliver (node 2) (node 1) ⟨0, 0⟩,
    .pass (node 2) ⟨0, 0⟩ (.recv (desk 2) (.client (.login bob))),
    .pass (node 2) ⟨0, 0⟩ (.recv (desk 2) (.client (.join chat))),
    .pass (node 1) ⟨0, 7⟩ (.recv (desk 1) (.client (.say chat hello))),
    .deliver (node 1) (node 2) ⟨0, 0⟩]

/-- What the second client is shown in the end has an author, and the client has joined. -/
theorem says_have_authors_gathering :
    ∃ es e g, Run Net.Step twoServers.initial (es ++ [e]) g ∧
      ⟨desk 2, greeting.toUser⟩ ∈ e.sent ∧
      (∃ uid, Said.Authored { greeting with uid := uid } (es ++ [e])) ∧
        ∃ u : User, u.addr = desk 2 ∧ u.Joined es e.node chat := by
  have hfacts : (twoServers.initial.replay gathering).map (fun p =>
      p.1.getLast?.any fun e => e.sent.contains ⟨desk 2, greeting.toUser⟩) = some true := by decide
  obtain ⟨⟨es, g⟩, hreplay, hlast⟩ := Option.map_eq_some_iff.mp hfacts
  obtain ⟨e, he, hsent⟩ := (Option.any_eq_true _ _).mp hlast
  obtain ⟨es, rfl⟩ := List.getLast?_eq_some_iff.mp he
  have hrun := Net.run_of_replay hreplay
  have hin : ⟨desk 2, greeting.toUser⟩ ∈ e.sent := List.contains_iff_mem.mp hsent
  exact ⟨es, e, g, hrun, hin, (says_have_authors hrun hin greeting).2 rfl⟩

end CliMessaging.Distributed
