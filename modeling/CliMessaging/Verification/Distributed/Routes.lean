import CliMessaging.Verification.Distributed.NetInvariant
import CliMessaging.Verification.Distributed.Replay
import CliMessaging.Verification.Distributed.Topologies

/-! # Two-way routes

With datagrams in order on every link, a server whose users are on a channel is routed
to by each neighbour that has the channel, unless a neighbour created the channel
without an announcement from that server on the way. -/

namespace CliMessaging.Distributed

open State Transition

def S2sMsg.isNewsOf (name : Cname) : S2sMsg → Bool
  | .join other | .leave other => decide (other = name)
  | .say _ _ _ _ => false

/-- The joins and leaves of a channel among packets from `s` to `t`, in order. -/
def newsOf (l : List Packet) (s t : Addressable) (name : Cname) : List S2sMsg :=
  ((l.filter fun p => decide (p.src = s ∧ p.dst = t)).map Packet.msg).filter (·.isNewsOf name)

def Net.news (g : Net) (s t : Addressable) (name : Cname) : List S2sMsg :=
  newsOf g.flight s t name

def State.HasUser (st : State) (name : Cname) : Prop :=
  ∃ c, st.chan name = some c ∧ c.userList ≠ []

/-- A client of the server at `n` is on the channel. -/
def Net.HasUser (g : Net) (n : Addressable) (name : Cname) : Prop :=
  ∃ c, g.chan n name = some c ∧ c.userList ≠ []

variable {T : Topology} {g g' : Net} {e : Event} {adj : List Server} {st st' st₁ : State}
  {env : Env} {input : Input} {sent : List Datagram} {name : Cname} {n m s t : Addressable}
  {r : Reaction} {p : Packet} {l l' : List Packet} {msg : S2sMsg}

/-! ## Queues of joins and leaves -/

theorem newsOf_append : newsOf (l ++ l') s t name = newsOf l s t name ++ newsOf l' s t name := by
  simp [newsOf]

theorem mem_newsOf : msg ∈ newsOf l s t name ↔ ⟨s, t, msg⟩ ∈ l ∧ msg.isNewsOf name := by
  simp only [newsOf, List.mem_filter, List.mem_map, decide_eq_true_eq]
  constructor
  · rintro ⟨⟨⟨src, dst, msg⟩, ⟨hp, rfl, rfl⟩, rfl⟩, hnews⟩
    exact ⟨hp, hnews⟩
  · rintro ⟨hp, hnews⟩
    exact ⟨⟨⟨s, t, msg⟩, ⟨hp, rfl, rfl⟩, rfl⟩, hnews⟩

theorem mem_newsOf_packets :
    msg ∈ newsOf (packets n sent) s t name ↔
      s = n ∧ ⟨t, .s2s msg⟩ ∈ sent ∧ msg.isNewsOf name := by
  rw [mem_newsOf, mem_packets, and_assoc]

/-- Taking the oldest datagram of a link takes it from the head of its queue. -/
theorem newsOf_erase_of_inOrder (h : g.InOrder p) :
    newsOf g.flight p.src p.dst name =
      (if p.msg.isNewsOf name then [p.msg] else []) ++
        newsOf (g.flight.erase p) p.src p.dst name := by
  obtain ⟨rest, hrest⟩ : ∃ rest,
      g.flight.filter (fun q => decide (q.src = p.src ∧ q.dst = p.dst)) = p :: rest := by
    apply List.head?_eq_some_iff.mp
    rw [List.head?_filter]
    exact h
  have herase : (g.flight.erase p).filter (fun q => decide (q.src = p.src ∧ q.dst = p.dst)) =
      rest := by
    rw [← List.erase_filter, hrest, List.erase_cons_head]
  simp only [newsOf, hrest, herase, List.map_cons, List.filter_cons]
  split <;> simp

theorem newsOf_erase_of_ne (h : ¬ (p.src = s ∧ p.dst = t)) :
    newsOf (l.erase p) s t name = newsOf l s t name := by
  unfold newsOf
  rw [← List.erase_filter, List.erase_of_not_mem]
  intro hp
  exact h (by simpa using List.of_mem_filter hp)

/-! ## One server -/

/-- Every input but the passes of the timers. -/
def Input.isRequest : Input → Bool
  | .recv _ _ => true
  | _ => false

/-- The inputs on which a server without the channel creates it. -/
def State.Creates (st : State) (name : Cname) (input : Input) : Prop :=
  st.chan name = none ∧
    ((∃ cur, input = .recv cur (.client (.join name)) ∧ st.LoggedIn cur) ∨
      ∃ src, input = .recv src (.s2s (.join name)))

/-- What a request does to a channel, as far as its neighbours are concerned. -/
structure State.Informs (st : State) (name : Cname) (input : Input) (st' : State)
    (sent : List Datagram) : Prop where
  quiet : st'.HasUser name → ∀ t, ⟨t, .s2s (.leave name)⟩ ∉ sent
  announces : st'.HasUser name → ¬ st.HasUser name →
    ∀ t ∈ st.sset.serverList, ⟨t, .s2s (.join name)⟩ ∈ sent
  keeps : (st'.chan name).isSome → ¬ st.Creates name input → (st.chan name).isSome ∧
    ∀ t ∈ st.routes name, t ∈ st'.routes name ∨ input = .recv t (.s2s (.leave name))
  learns : ∀ src, input = .recv src (.s2s (.join name)) → src ∈ st'.routes name

theorem State.hasUser_congr (h : st'.chan name = st.chan name) :
    st'.HasUser name ↔ st.HasUser name := by
  rw [State.HasUser, h, State.HasUser]

/-- A pass that leaves the channel alone and sends no leave of it. -/
theorem State.informs_of_same (hchan : st'.chan name = st.chan name)
    (hquiet : ∀ t, ⟨t, .s2s (.leave name)⟩ ∉ sent)
    (hlearns : ∀ src, input ≠ .recv src (.s2s (.join name))) :
    st.Informs name input st' sent where
  quiet _ := hquiet
  announces h hnot := absurd ((State.hasUser_congr hchan).mp h) hnot
  keeps h _ := by
    rw [hchan] at h
    exact ⟨h, fun t ht => Or.inl (by rwa [State.routes, hchan])⟩
  learns src h := absurd h (hlearns src)

theorem Channel.userList_of_removeUser {c : Channel} {user : User}
    (h : (c.removeUser user).userList ≠ []) : c.userList ≠ [] := by
  intro hnil
  apply h
  have huset : c.uset.userList = [] := hnil
  simp [Channel.removeUser, UserSet.removeUser, Channel.userList, huset]

/-- A pass that at most shrinks the users of the channel and then prunes. -/
theorem State.informs_of_prune {f : Channel → Channel} {said : List Datagram} (hs : st₁.Sound)
    (hchan : st₁.chan name = (st.chan name).map f) (hpruned : st₁.Pruned st')
    (hroutes : ∀ c, (f c).serverList = c.serverList)
    (husers : ∀ c, (f c).userList ≠ [] → c.userList ≠ [])
    (hsaid : ∀ t, ⟨t, .s2s (.leave name)⟩ ∉ said)
    (hlearns : ∀ src, input ≠ .recv src (.s2s (.join name))) :
    st.Informs name input st' (said ++ pruneLeaves st₁) := by
  have hold : ∀ c', st'.chan name = some c' → ∃ c, st.chan name = some c ∧ c' = f c ∧
      c'.shouldPrune = false := by
    intro c' hc'
    obtain ⟨hc₁, hkeep⟩ := hpruned.chan_eq_some.mp hc'
    rw [hchan] at hc₁
    obtain ⟨c, hc, rfl⟩ := Option.map_eq_some_iff.mp hc₁
    exact ⟨c, hc, rfl, hkeep⟩
  refine ⟨?_, ?_, ?_, fun src h => absurd h (hlearns src)⟩
  · rintro ⟨c', hc', -⟩ t hsent
    rcases List.mem_append.mp hsent with hsent | hsent
    · exact hsaid t hsent
    · obtain ⟨other, c, hc, hprune, -, hmsg⟩ := (mem_pruneLeaves hs).mp hsent
      cases hmsg
      obtain ⟨hc₁, hkeep⟩ := hpruned.chan_eq_some.mp hc'
      rw [hc] at hc₁
      cases hc₁
      rw [hprune] at hkeep
      cases hkeep
  · rintro ⟨c', hc', huser⟩ hnot
    obtain ⟨c, hc, rfl, -⟩ := hold c' hc'
    exact absurd ⟨c, hc, husers c huser⟩ hnot
  · intro hsome _
    obtain ⟨c', hc'⟩ := Option.isSome_iff_exists.mp hsome
    obtain ⟨c, hc, rfl, -⟩ := hold c' hc'
    refine ⟨by simp [hc], fun t ht => Or.inl ?_⟩
    rw [State.routes_of_chan hc', hroutes]
    rwa [State.routes_of_chan hc] at ht

theorem sendMessage_no_leave {targets : List Addressable} {msg : Msg}
    (hmsg : msg ≠ .s2s (.leave name)) (t : Addressable) :
    ⟨t, .s2s (.leave name)⟩ ∉ sendMessage targets msg :=
  fun h => hmsg (mem_sendMessage.mp h).2.symm

/-- A client's join goes to every neighbour and changes no route. -/
theorem State.informs_of_join {cur : Addressable} {user : User}
    (huser : st.uset.getUserByIp cur = some user)
    (hchan : st'.chan = Function.update st.chan name
      (some (((st.chan name).getD (Channel.new name)).addUser user))) :
    st.Informs name (.recv cur (.client (.join name))) st'
      (broadcastS2sJoin st.sset.serverList name) := by
  refine ⟨fun _ => sendMessage_no_leave (by simp), ?_, ?_, by simp⟩
  · intro _ _ t ht
    exact mem_sendMessage.mpr ⟨ht, rfl⟩
  · intro _ hcreate
    cases hc : st.chan name with
    | none => exact absurd ⟨hc, Or.inl ⟨cur, rfl, user, huser⟩⟩ hcreate
    | some c =>
        refine ⟨rfl, fun t ht => Or.inl ?_⟩
        rwa [State.routes_of_join hchan]

theorem State.reply_no_leave (st : State) (other : Cname) (t : Addressable) :
    ⟨t, .s2s (.leave name)⟩ ∉
      (if (st.chan other).isSome then [] else broadcastS2sJoin st.sset.serverList other) := by
  split
  · exact List.not_mem_nil
  · exact sendMessage_no_leave (by simp) t

/-- A server that joins is routed to and brings no users with it. -/
theorem State.Inv.informs_of_s2sJoin {cur : Addressable} (h : st.Inv adj)
    (hchan : st'.chan = Function.update st.chan name
      (some ((st.chan name).elim ((Channel.new name).addServer env.now cur)
        fun c => c.heardFrom env.now cur))) :
    st.Informs name (.recv cur (.s2s (.join name))) st'
      (if (st.chan name).isSome then [] else broadcastS2sJoin st.sset.serverList name) := by
  obtain ⟨c', hself, hcur, hroutes, huset⟩ := h.hears hchan
  refine ⟨fun _ => st.reply_no_leave name, ?_, ?_, ?_⟩
  · rintro ⟨d, hd, huser⟩ hnot
    rw [hself] at hd
    cases hd
    rw [Channel.userList, huset] at huser
    cases hc : st.chan name with
    | none => exact absurd (by simp [hc, UserSet.empty]) huser
    | some c =>
        have hold : c.uset.userList ≠ [] := by simpa [hc] using huser
        exact absurd ⟨c, hc, hold⟩ hnot
  · intro _ hcreate
    cases hc : st.chan name with
    | none => exact absurd ⟨hc, Or.inr ⟨cur, rfl⟩⟩ hcreate
    | some c =>
        refine ⟨rfl, fun t ht => Or.inl ?_⟩
        rw [State.routes_of_chan hself]
        exact hroutes t ht
  · rintro src ⟨⟩
    rwa [State.routes_of_chan hself]

/-- A server that leaves takes only its own route with it. -/
theorem State.Inv.informs_of_s2sLeave {cur : Addressable} (h : st.Inv adj)
    (hchan : st'.chan = Function.update st.chan name ((st.chan name).map (·.removeServer cur))) :
    st.Informs name (.recv cur (.s2s (.leave name))) st' [] := by
  cases hc : st.chan name with
  | none =>
      refine State.informs_of_same ?_ (by simp) (by simp)
      rw [hchan, Function.update_self, hc]
      rfl
  | some c =>
      have hself : st'.chan name = some (c.removeServer cur) := by
        rw [hchan, Function.update_self, hc]
        rfl
      have hlist := (Channel.removeServer_sset (h.routed name c hc).coherent cur).2
      refine ⟨by simp, ?_, ?_, by simp⟩
      · rintro ⟨c', hc', huser⟩ hnot
        rw [hself] at hc'
        cases hc'
        exact absurd ⟨c, hc, huser⟩ hnot
      · intro _ _
        refine ⟨by simp [hc], fun t ht => ?_⟩
        rw [State.routes_of_chan hc] at ht
        rw [State.routes_of_chan hself, hlist]
        by_cases htcur : t = cur
        · exact Or.inr (by rw [htcur])
        · exact Or.inl ((List.mem_erase_of_ne htcur).mpr ht)

theorem State.Inv.informs (h : st.Inv adj) (heff : st.Effect env input st' sent)
    (hkind : input.isRequest) (name : Cname) : st.Informs name input st' sent := by
  cases heff with
  | login cur username => exact State.informs_of_same rfl (by simp) (by simp)
  | @logout cur st₁ _ hs₁ hpruned hsset huset hchan =>
      rw [← List.nil_append (pruneLeaves st₁)]
      refine State.informs_of_prune hs₁ (hchan name) hpruned ?_ ?_ (by simp) (by simp)
      · intro c
        cases st.uset.getUserByIp cur <;> rfl
      · intro c
        cases st.uset.getUserByIp cur with
        | none => exact id
        | some user => exact Channel.userList_of_removeUser
  | strangerJoin other hnone =>
      exact State.informs_of_same rfl (sendMessage_no_leave (by simp)) (by simp)
  | @join cur other user _ huser hs' hsset huset hchan =>
      by_cases hother : name = other
      · subst hother
        exact State.informs_of_join huser hchan
      · refine State.informs_of_same ?_ (sendMessage_no_leave (by simp)) (by simp)
        rw [hchan, Function.update_of_ne hother]
  | @leave cur other user st₁ _ huser hs₁ hpruned hsset huset hchan =>
      rw [← List.nil_append (pruneLeaves st₁)]
      by_cases hother : name = other
      · subst hother
        refine State.informs_of_prune (f := (·.removeUser user)) hs₁ ?_ hpruned (fun _ => rfl)
          (fun _ => Channel.userList_of_removeUser) (by simp) (by simp)
        rw [hchan, Function.update_self]
      · refine State.informs_of_prune (f := id) hs₁ ?_ hpruned (fun _ => rfl) (fun _ => id)
          (by simp) (by simp)
        rw [hchan, Function.update_of_ne hother, Option.map_id_fun, id]
  | say text huser hc =>
      refine State.informs_of_same rfl (fun t hsent => ?_) (by simp)
      rcases List.mem_append.mp hsent with hsent | hsent
      · exact sendMessage_no_leave (by simp) t hsent
      · exact sendMessage_no_leave (by simp) t hsent
  | list names huser =>
      exact State.informs_of_same rfl (sendMessage_no_leave (by simp)) (by simp)
  | who other names huser =>
      exact State.informs_of_same rfl (sendMessage_no_leave (by simp)) (by simp)
  | strangerKeepAlive hnone => exact State.informs_of_same rfl (by simp) (by simp)
  | keepAlive huser => exact State.informs_of_same rfl (by simp) (by simp)
  | @s2sJoin cur other _ hadj hs' hsame hchan =>
      by_cases hother : name = other
      · subst hother
        exact h.informs_of_s2sJoin hchan
      · refine State.informs_of_same ?_ (st.reply_no_leave other) (by simp [Ne.symm hother])
        rw [hchan, Function.update_of_ne hother]
  | @s2sLeave cur other _ hadj hs' hsame hchan =>
      by_cases hother : name = other
      · subst hother
        exact h.informs_of_s2sLeave hchan
      · refine State.informs_of_same ?_ (by simp) (by simp)
        rw [hchan, Function.update_of_ne hother]
  | @s2sSay cur uid username other text c _ hc hpruned =>
      refine State.informs_of_prune (f := id) h.sound (by simp) hpruned (fun _ => rfl)
        (fun _ => id) (fun t hsent => ?_) (by simp)
      rcases List.mem_append.mp hsent with hsent | hsent
      · exact sendMessage_no_leave (by simp) t hsent
      · exact sendMessage_no_leave (by simp) t hsent
  | _ => cases hkind

/-! ## The network -/

/-- A join from `s` to `n` is on its way, with no leave behind it. -/
def Net.JoinPending (g : Net) (s n : Addressable) (name : Cname) : Prop :=
  (g.news s n name).getLast? = some (.join name)

/-- If the event makes a server create the channel, then the joins of all its neighbours
that have users on the channel are on their way. -/
def Net.Announces (T : Topology) (name : Cname) (g : Net) (e : Event) : Prop :=
  ∀ st r, g.server e.node = some st → e.reaction? = some r → st.Creates name r.input →
    ∀ s ∈ T.adj e.node, g.HasUser s name → g.JoinPending s e.node name

/-- The event is not the pass of a timer. -/
def Event.isRequest (e : Event) : Bool := e.reaction?.all fun r => r.input.isRequest

/-- A step without timers that keeps the order of every link. -/
def Net.RequestStep (g : Net) (e : Event) (g' : Net) : Prop :=
  g.FifoStep e g' ∧ e.isRequest

/-- A server with users on the channel has not left it in the eyes of its neighbours, and
a neighbour with the channel to which nothing is on its way routes to it. -/
structure TwoWay (T : Topology) (name : Cname) (g : Net) : Prop where
  inv : g.Inv T
  news : ∀ s n, n ∈ T.adj s → g.HasUser s name →
    (g.news s n name).getLast? ≠ some (.leave name)
  routed : ∀ s n, n ∈ T.adj s → g.HasUser s name → (g.chan n name).isSome →
    g.news s n name = [] → s ∈ g.routes n name

theorem twoWay_initial (T : Topology) (name : Cname) : TwoWay T name T.initial := by
  have hnobody : ∀ s, ¬ T.initial.HasUser s name := by
    rintro s ⟨c, hc, -⟩
    simp only [Net.chan, Topology.initial] at hc
    split at hc <;> cases hc
  exact ⟨T.inv_initial, fun s _ _ h => absurd h (hnobody s), fun s _ _ h => absurd h (hnobody s)⟩

namespace Net

theorem hasUser_update_self (hafter : r.after = some st') :
    (g.update n r).HasUser n name ↔ st'.HasUser name := by
  rw [HasUser, chan_update_self hafter, State.HasUser]

theorem hasUser_update_of_ne (hne : m ≠ n) :
    (g.update n r).HasUser m name ↔ g.HasUser m name := by
  rw [HasUser, chan_update_of_ne hne, HasUser]

theorem hasUser_of_server (hst : g.server n = some st) :
    g.HasUser n name ↔ st.HasUser name := by
  rw [HasUser, chan_of_server hst, State.HasUser]

theorem news_update (g : Net) (n : Addressable) (r : Reaction) (s t : Addressable)
    (name : Cname) :
    (g.update n r).news s t name =
      g.news s t name ++ newsOf (Distributed.packets n r.sent) s t name :=
  newsOf_append

end Net

/-- A server with users on the channel has only joins to send; the first user's join has
just been sent to every neighbour. -/
theorem State.Informs.newsOf_sent (h : st.Informs name input st' sent)
    (hadj : ∀ t ∈ T.adj n, t ∈ st.sset.serverList) (huser : st'.HasUser name)
    (ht : t ∈ T.adj n) :
    (newsOf (packets n sent) n t name).getLast? ≠ some (.leave name) ∧
      (newsOf (packets n sent) n t name = [] → st.HasUser name) := by
  constructor
  · intro hlast
    obtain ⟨-, hsent, -⟩ := mem_newsOf_packets.mp (List.mem_of_getLast? hlast)
    exact h.quiet huser t hsent
  · intro hnil
    by_contra hnot
    have hjoin : S2sMsg.join name ∈ newsOf (packets n sent) n t name :=
      mem_newsOf_packets.mpr ⟨rfl, h.announces huser hnot t (hadj t ht), by
        simp [S2sMsg.isNewsOf]⟩
    rw [hnil] at hjoin
    cases hjoin

/-- What a server with users on the channel has just sent, and whether it had users
before. -/
theorem newsOf_sent_of_hasUser (hinv : g.Inv T) (hst : g.server n = some st) (hr : st.Reacts r)
    (hkind : r.input.isRequest) (hm : m ∈ T.adj s) (hs : (g.update n r).HasUser s name) :
    (newsOf (packets n r.sent) s m name).getLast? ≠ some (.leave name) ∧
      (newsOf (packets n r.sent) s m name = [] → g.HasUser s name) := by
  by_cases hsn : s = n
  · subst hsn
    cases hafter : r.after with
    | none =>
        obtain ⟨c, hc, -⟩ := hs
        rw [Net.chan_of_down hafter] at hc
        cases hc
    | some st' =>
        have hserver := hinv.servers s st hst
        have hinf := hserver.informs (hserver.effect_of_step ⟨hr, hafter⟩) hkind name
        rw [Net.hasUser_update_self hafter] at hs
        rw [Net.hasUser_of_server hst]
        exact hinf.newsOf_sent (fun t ht => hserver.servers ▸ ht) hs hm
  · have hnil : newsOf (packets n r.sent) s m name = [] := by
      apply List.eq_nil_iff_forall_not_mem.mpr
      intro msg hmsg
      exact hsn (mem_newsOf_packets.mp hmsg).1
    rw [hnil]
    exact ⟨by simp, fun _ => (Net.hasUser_update_of_ne hsn).mp hs⟩

/-- The reaction of a server, after the datagram it handles has been taken out of flight. -/
theorem TwoWay.update (hinv : g.Inv T) (hst : g.server n = some st) (hr : st.Reacts r)
    (hkind : r.input.isRequest)
    (hnews : ∀ s m, m ∈ T.adj s → g.HasUser s name →
      (g.news s m name).getLast? ≠ some (.leave name))
    (hrouted : ∀ s m, m ∈ T.adj s → g.HasUser s name → (g.chan m name).isSome →
      g.news s m name = [] → s ∈ g.routes m name ∨
        m = n ∧ r.input = .recv s (.s2s (.join name)))
    (hleave : ∀ s, n ∈ T.adj s → g.HasUser s name →
      r.input = .recv s (.s2s (.leave name)) → g.news s n name ≠ [])
    (hcreate : st.Creates name r.input → ∀ s, n ∈ T.adj s → g.HasUser s name →
      g.news s n name = [] → r.input = .recv s (.s2s (.join name))) :
    TwoWay T name (g.update n r) := by
  refine ⟨hinv.update hst hr, fun s m hm hs => ?_, fun s m hm hs hsome hboth => ?_⟩
  · obtain ⟨hlast, hold⟩ := newsOf_sent_of_hasUser hinv hst hr hkind hm hs
    rw [Net.news_update]
    by_cases hnil : newsOf (packets n r.sent) s m name = []
    · rw [hnil, List.append_nil]
      exact hnews s m hm (hold hnil)
    · rwa [List.getLast?_append_of_ne_nil _ hnil]
  · rw [Net.news_update] at hboth
    obtain ⟨hnil, hsent⟩ := List.append_eq_nil_iff.mp hboth
    have huser : g.HasUser s name := (newsOf_sent_of_hasUser hinv hst hr hkind hm hs).2 hsent
    by_cases hmn : m = n
    · subst hmn
      obtain ⟨st', hafter⟩ := Option.isSome_iff_exists.mp (Net.isSome_chan_of_server hsome)
      rw [Net.update_server_self] at hafter
      have hserver := hinv.servers m st hst
      have hinf := hserver.informs (hserver.effect_of_step ⟨hr, hafter⟩) hkind name
      rw [Net.chan_update_self hafter] at hsome
      rw [Net.routes_update_self hafter]
      by_cases hcreates : st.Creates name r.input
      · exact hinf.learns s (hcreate hcreates s hm huser hnil)
      · obtain ⟨hold, hkeep⟩ := hinf.keeps hsome hcreates
        rw [← Net.chan_of_server hst] at hold
        rcases hrouted s m hm huser hold hnil with hroute | ⟨-, hinput⟩
        · rw [Net.routes_of_server hst] at hroute
          rcases hkeep s hroute with hroute | hinput
          · exact hroute
          · exact absurd hnil (hleave s hm huser hinput)
        · exact hinf.learns s hinput
    · rw [Net.chan_update_of_ne hmn] at hsome
      rw [Net.routes_update_of_ne hmn]
      rcases hrouted s m hm huser hsome hnil with hroute | ⟨heq, -⟩
      · exact hroute
      · exact absurd heq hmn

/-- The queue of a link after its oldest datagram has been taken. -/
theorem Net.news_take (horder : g.InOrder p) (name : Cname) :
    g.news p.src p.dst name = (if p.msg.isNewsOf name then [p.msg] else []) ++
      (g.take p).news p.src p.dst name :=
  newsOf_erase_of_inOrder horder

theorem Net.news_take_of_ne (h : ¬ (p.src = s ∧ p.dst = t)) :
    (g.take p).news s t name = g.news s t name :=
  newsOf_erase_of_ne h

/-- The last news of a link stays the last when the oldest is taken. -/
theorem TwoWay.news_take (h : TwoWay T name g) (horder : g.InOrder p) :
    ∀ s m, m ∈ T.adj s → (g.take p).HasUser s name →
      ((g.take p).news s m name).getLast? ≠ some (.leave name) := by
  intro s m hm hs
  have hlast := h.news s m hm hs
  by_cases hlink : p.src = s ∧ p.dst = m
  · obtain ⟨rfl, rfl⟩ := hlink
    rw [Net.news_take horder] at hlast
    by_cases hnil : (g.take p).news p.src p.dst name = []
    · simp [hnil]
    · rwa [List.getLast?_append_of_ne_nil _ hnil] at hlast
  · rwa [Net.news_take_of_ne hlink]

/-- The only news of a link is a datagram that is the last from a server with users. -/
theorem TwoWay.join_of_take (h : TwoWay T name g) (horder : g.InOrder p)
    (hadj : p.dst ∈ T.adj p.src) (huser : g.HasUser p.src name)
    (hnil : (g.take p).news p.src p.dst name = []) :
    g.news p.src p.dst name = [] ∨ p.msg = .join name := by
  have hlast := h.news p.src p.dst hadj huser
  have hqueue := Net.news_take horder name
  rw [hnil, List.append_nil] at hqueue
  rw [hqueue] at hlast ⊢
  cases hmsg : p.msg with
  | join other =>
      by_cases heq : other = name
      · exact Or.inr (by rw [heq])
      · simp [S2sMsg.isNewsOf, heq]
  | leave other =>
      by_cases heq : other = name
      · simp [hmsg, heq, S2sMsg.isNewsOf] at hlast
      · simp [S2sMsg.isNewsOf, heq]
  | say uid username other text => simp [S2sMsg.isNewsOf]

theorem TwoWay.delivery (h : TwoWay T name g) (hst : g.server p.dst = some st)
    (hr : st.Reacts r) (hinput : r.input = .recv p.src (.s2s p.msg)) (horder : g.InOrder p)
    (hannounces : g.Announces T name (.delivery p r)) :
    TwoWay T name ((g.take p).update p.dst r) := by
  have hst₀ : (g.take p).server p.dst = some st := hst
  refine TwoWay.update (h.inv.take p) hst₀ hr (by simp [hinput, Input.isRequest])
    (h.news_take horder) ?_ ?_ ?_
  · intro s m hm hs hsome hnil
    by_cases hlink : p.src = s ∧ p.dst = m
    · obtain ⟨rfl, rfl⟩ := hlink
      rcases h.join_of_take horder hm hs hnil with hnil | hmsg
      · exact Or.inl (h.routed _ _ hm hs hsome hnil)
      · exact Or.inr ⟨rfl, by rw [hinput, hmsg]⟩
    · rw [Net.news_take_of_ne hlink] at hnil
      exact Or.inl (h.routed s m hm hs hsome hnil)
  · intro s hs huser hleave hnil
    rw [hinput] at hleave
    simp only [Input.recv.injEq, Request.s2s.injEq] at hleave
    obtain ⟨rfl, hmsg⟩ := hleave
    rcases h.join_of_take horder hs huser hnil with hnone | hjoin
    · rw [Net.news_take horder, hnil, hmsg] at hnone
      simp [S2sMsg.isNewsOf] at hnone
    · rw [hmsg] at hjoin
      cases hjoin
  · intro hcreates s hs huser hnil
    have hpending : g.JoinPending s p.dst name :=
      hannounces st r hst rfl hcreates s (T.adj_symm s p.dst hs) huser
    by_cases hlink : p.src = s ∧ p.dst = p.dst
    · obtain ⟨rfl, -⟩ := hlink
      rcases h.join_of_take horder hs huser hnil with hnone | hmsg
      · rw [Net.JoinPending, hnone] at hpending
        cases hpending
      · rw [hinput, hmsg]
    · rw [Net.news_take_of_ne hlink] at hnil
      rw [Net.JoinPending, hnil] at hpending
      cases hpending

theorem TwoWay.step (h : TwoWay T name g) (hannounces : g.Announces T name e)
    (hstep : g.RequestStep e g') : TwoWay T name g' := by
  obtain ⟨⟨hstep, horder⟩, hrequest⟩ := hstep
  cases hstep with
  | @pass n st r hst hr hkind =>
      refine TwoWay.update h.inv hst hr hrequest h.news
        (fun s m hm hs hsome hnil => Or.inl (h.routed s m hm hs hsome hnil))
        (fun s _ _ hinput => absurd hinput (hkind s _)) ?_
      intro hcreates s hs huser hnil
      have hpending : g.JoinPending s n name :=
        hannounces st r hst rfl hcreates s (T.adj_symm s n hs) huser
      rw [Net.JoinPending, hnil] at hpending
      cases hpending
  | delivery hp hst hr hinput =>
      exact h.delivery hst hr hinput (horder _ rfl) hannounces
  | @lost p hp hst =>
      refine ⟨h.inv.take p, h.news_take (horder p rfl), fun s m hm hs hsome hnil => ?_⟩
      have hlink : ¬ (p.src = s ∧ p.dst = m) := by
        rintro ⟨-, rfl⟩
        simp [Net.chan, Net.take, hst] at hsome
      rw [Net.news_take_of_ne hlink] at hnil
      exact h.routed s m hm hs hsome hnil

/-- In every run in which no server creates the channel behind the back of a neighbour
with users, the routes between neighbours with users are two-way once nothing is in
flight. -/
theorem routes_twoWay {es : List Event}
    (hrun : Run (fun g e g' => g.RequestStep e g' ∧ g.Announces T name e) T.initial es g)
    (hquiet : g.flight = []) (hadj : n ∈ T.adj s) (hs : g.HasUser s name)
    (hn : g.HasUser n name) : n ∈ g.routes s name ∧ s ∈ g.routes n name := by
  have h : TwoWay T name g := hrun.invariant (P := fun _ => True)
    (fun _ _ _ h _ hstep => h.step hstep.2 hstep.1) (fun _ _ => trivial)
    (twoWay_initial T name)
  have hnil : ∀ a b, g.news a b name = [] := by
    intro a b
    rw [Net.news, hquiet]
    rfl
  have hhas : ∀ {a}, g.HasUser a name → (g.chan a name).isSome := by
    rintro a ⟨c, hc, -⟩
    simp [hc]
  exact ⟨h.routed n s (T.adj_symm s n hadj) hn (hhas hs) (hnil n s),
    h.routed s n hadj hs (hhas hn) (hnil s n)⟩

/-! ## Deciding the condition -/

instance (g : Net) (n : Addressable) (name : Cname) : Decidable (g.HasUser n name) :=
  decidable_of_iff ((g.chan n name).any fun c => !c.userList.isEmpty) <| by
    simp [Net.HasUser, Option.any_eq_true]

instance (g : Net) (s n : Addressable) (name : Cname) : Decidable (g.JoinPending s n name) :=
  inferInstanceAs (Decidable (_ = _))

/-- `Creates` by cases on the input. -/
def State.creates (st : State) (name : Cname) : Input → Bool
  | .recv cur (.client (.join other)) =>
      (st.chan name).isNone && decide (other = name) && (st.uset.getUserByIp cur).isSome
  | .recv _ (.s2s (.join other)) => (st.chan name).isNone && decide (other = name)
  | _ => false

theorem State.creates_iff : st.creates name input ↔ st.Creates name input := by
  unfold State.creates State.Creates State.LoggedIn
  split
  · simp [Option.isSome_iff_exists, and_assoc]
  · simp
  · rename_i hclient hs2s
    simp only [Bool.false_eq_true, false_iff, not_and, not_or, not_exists]
    exact fun _ => ⟨fun cur hinput => absurd hinput (hclient cur name),
      fun src hinput => absurd hinput (hs2s src name)⟩

instance (st : State) (name : Cname) (input : Input) : Decidable (st.Creates name input) :=
  decidable_of_iff _ State.creates_iff

instance (T : Topology) (name : Cname) (g : Net) (e : Event) :
    Decidable (g.Announces T name e) :=
  match hst : g.server e.node, hr : e.reaction? with
  | some st, some r =>
      decidable_of_iff (st.Creates name r.input →
        ∀ s ∈ T.adj e.node, g.HasUser s name → g.JoinPending s e.node name) <| by
        simp [Net.Announces, hst, hr]
  | none, _ => isTrue fun st r hst' => by simp [hst] at hst'
  | some _, none => isTrue fun st r _ hr' => by simp [hr] at hr'

/-! ## A client of each server joins -/

/-- Clients of two servers join one channel, the second after it has spread. -/
def meeting : List Choice :=
  [.pass (node 1) ⟨0, 0⟩ (.recv (desk 1) (.client (.login alice))),
    .pass (node 1) ⟨0, 0⟩ (.recv (desk 1) (.client (.join chat))),
    .deliver (node 1) (node 2) ⟨0, 0⟩,
    .deliver (node 2) (node 1) ⟨0, 0⟩,
    .pass (node 2) ⟨0, 0⟩ (.recv (desk 2) (.client (.login bob))),
    .pass (node 2) ⟨0, 0⟩ (.recv (desk 2) (.client (.join chat))),
    .deliver (node 2) (node 1) ⟨0, 0⟩]

theorem routes_twoWay_meeting :
    ∃ es g, Run Net.RequestStep twoServers.initial es g ∧
      g.HasUser (node 1) chat ∧ g.HasUser (node 2) chat ∧
      node 2 ∈ g.routes (node 1) chat ∧ node 1 ∈ g.routes (node 2) chat := by
  have hfacts : (twoServers.initial.replayWhile
      (fun g e => e.isRequest && decide (g.Announces twoServers chat e)) meeting).map
        (fun p => (p.2.flight, decide (p.2.HasUser (node 1) chat),
          decide (p.2.HasUser (node 2) chat))) = some ([], true, true) := by decide
  obtain ⟨⟨es, g⟩, hreplay, heq⟩ := Option.map_eq_some_iff.mp hfacts
  simp only [Prod.mk.injEq, decide_eq_true_eq] at heq
  obtain ⟨hquiet, hone, htwo⟩ := heq
  have hrun : Run (fun g e g' => g.RequestStep e g' ∧ g.Announces twoServers chat e)
      twoServers.initial es g := by
    refine (Net.run_of_replayWhile hreplay).mono fun g e g' hstep => ?_
    obtain ⟨hrequest, hannounces⟩ := Bool.and_eq_true_iff.mp hstep.2
    exact ⟨⟨hstep.1, hrequest⟩, of_decide_eq_true hannounces⟩
  exact ⟨es, g, hrun.mono fun _ _ _ hstep => hstep.1, hone, htwo,
    routes_twoWay hrun hquiet (by decide) hone htwo⟩

/-- The second server prunes the channel and a client of it joins again: the first server,
which still has the channel, does not answer, and nothing of it reaches the second. -/
def rejoining : List Choice :=
  [.pass (node 1) ⟨0, 0⟩ (.recv (desk 1) (.client (.login alice))),
    .pass (node 1) ⟨0, 0⟩ (.recv (desk 1) (.client (.join chat))),
    .deliver (node 1) (node 2) ⟨0, 0⟩,
    .deliver (node 2) (node 1) ⟨0, 0⟩,
    .pass (node 2) ⟨0, 0⟩ (.recv (desk 2) (.client (.login bob))),
    .pass (node 2) ⟨0, 0⟩ (.recv (desk 2) (.client (.leave chat))),
    .deliver (node 2) (node 1) ⟨0, 0⟩,
    .pass (node 2) ⟨0, 0⟩ (.recv (desk 2) (.client (.join chat))),
    .deliver (node 2) (node 1) ⟨0, 0⟩]

theorem one_way_after_rejoining :
    ¬ ∀ (T : Topology) (name : Cname) (es : List Event) (g : Net), T.IsTree →
      Run Net.RequestStep T.initial es g → g.flight = [] →
      ∀ s n, n ∈ T.adj s → g.HasUser s name → g.HasUser n name →
        n ∈ g.routes s name ∧ s ∈ g.routes n name := by
  intro hall
  have hfacts : (twoServers.initial.replayWhile (fun _ e => e.isRequest) rejoining).map
      (fun p => (p.2.flight, decide (p.2.HasUser (node 1) chat),
        decide (p.2.HasUser (node 2) chat), p.2.routes (node 2) chat)) =
          some ([], true, true, []) := by decide
  obtain ⟨⟨es, g⟩, hreplay, heq⟩ := Option.map_eq_some_iff.mp hfacts
  simp only [Prod.mk.injEq, decide_eq_true_eq] at heq
  obtain ⟨hquiet, hone, htwo, hroutes⟩ := heq
  have hboth := hall twoServers chat es g twoServers_isTree (Net.run_of_replayWhile hreplay)
    hquiet (node 1) (node 2) (by decide) hone htwo
  rw [hroutes] at hboth
  cases hboth.2

end CliMessaging.Distributed
