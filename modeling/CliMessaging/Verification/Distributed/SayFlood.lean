import CliMessaging.Library.Flood
import CliMessaging.Verification.Distributed.Deliveries
import CliMessaging.Verification.Distributed.JoinFlood

/-! # The flood of a say

A say accepted at one server is passed on along the routes of its channel. Its copies in
flight are the walks of an abstract flood. -/

namespace CliMessaging.Distributed

open State Transition Flood

/-- A message as the server that accepted it sends it on. -/
structure Said where
  uid : MsgUid
  username : Uname
  channel : Cname
  text : SayText

def Said.s2s (m : Said) : S2sMsg := .say m.uid m.username m.channel m.text

def Said.toUser (m : Said) : Msg := .text (.say m.channel m.username m.text)

/-- The copy that has come along a walk. -/
def Said.packet (m : Said) (w : List Addressable) : Packet := ⟨w.tail.headI, w.headI, m.s2s⟩

def S2sMsg.isSay : S2sMsg → Bool
  | .say _ _ _ _ => true
  | .join _ | .leave _ => false

def S2sMsg.isJoin : S2sMsg → Bool
  | .join _ => true
  | .leave _ | .say _ _ _ _ => false

namespace Event

/-- A server gets a say or a leave from another server, and nothing else happens. -/
def isFlood : Event → Bool
  | pass _ _ => false
  | delivery p _ | lost p => !p.msg.isJoin

/-- The server at `s` runs the part of `handle_s2s_say` behind its duplicate check. -/
def runsForward (m : Said) (s : Addressable) : Event → Bool
  | delivery ⟨_, dst, .say uid _ channel _⟩ r =>
      decide (dst = s ∧ uid = m.uid ∧ channel = m.channel) &&
        match r.before.channelAlreadyGotMessage channel uid with
        | .ok seen => !seen
        | .error _ => false
  | _ => false

/-- How often the server at `s` sends the message to the client at `a`. -/
def textsTo (m : Said) (s a : Addressable) (e : Event) : ℕ :=
  if e.node = s then e.sent.countP fun d => decide (d = ⟨a, m.toUser⟩) else 0

/-- How many copies a server sends to other servers. -/
def copies (m : Said) (e : Event) : ℕ :=
  e.sent.countP fun d => decide (d.msg = .s2s m.s2s)

end Event

variable {T : Topology} {g₀ g g' : Net} {e : Event} {adj : List Server} {st st' : State}
  {env : Env} {sent : List Datagram} {name : Cname} {o n s t : Addressable} {r : Reaction}
  {p : Packet} {m : Said} {W F : List (List Addressable)} {w : List Addressable} {c : Channel}

@[simp] theorem Said.packet_cons_cons (m : Said) (t s : Addressable) (w : List Addressable) :
    m.packet (t :: s :: w) = ⟨s, t, m.s2s⟩ := rfl

/-- The network during a flood. `g₀` is the network before it; the walks `W` have been
passed on, and those in `F` are the says in flight. -/
structure Flooded (T : Topology) (m : Said) (g₀ : Net) (o : Addressable) (g : Net)
    (W F : List (List Addressable)) : Prop where
  inv : g.Inv T
  flood : Flooding (fun s => g₀.routes s m.channel) o W F
  inFlight : (g.flight.filter fun p => p.msg.isSay).Perm (F.map m.packet)
  chan : ∀ s c, g.chan s m.channel = some c → (g₀.chan s m.channel).isSome ∧
    c.uset.Coherent ∧ ∀ t ∈ c.serverList, t ∈ g₀.routes s m.channel
  fresh : ∀ s, (g.server s).isSome → (g₀.chan s m.channel).isSome → (∀ w, s :: w ∉ W) →
    (g.chan s m.channel).isSome
  heads : ∀ s w, s :: w ∈ W → (g₀.chan s m.channel).isSome

/-- Every say in flight is a copy that has come along a walk. -/
theorem Flooded.exists_walk (h : Flooded T m g₀ o g W F) (hp : p ∈ g.flight)
    (hsay : p.msg.isSay) : ∃ w, p.dst :: p.src :: w ∈ F ∧ p.msg = m.s2s := by
  have hmem : p ∈ F.map m.packet :=
    h.inFlight.mem_iff.mp (List.mem_filter.mpr ⟨hp, by simpa using hsay⟩)
  obtain ⟨w, hw, rfl⟩ := List.mem_map.mp hmem
  obtain ⟨t, s, u, rfl, -, -⟩ := h.flood.exists_cons_cons hw
  exact ⟨u, hw, rfl⟩

/-- Taking a copy out of flight. -/
theorem Flooded.take_copy (h : Flooded T m g₀ o g W F) (hw : w ∈ F) :
    ((g.flight.erase (m.packet w)).filter fun p => p.msg.isSay).Perm
      ((F.erase w).map m.packet) := by
  rw [← List.erase_filter]
  have hperm : (F.map m.packet).Perm (m.packet w :: (F.erase w).map m.packet) :=
    (List.perm_cons_erase hw).map m.packet
  simpa using (h.inFlight.trans hperm).erase (m.packet w)

/-- Taking out of flight what is not a say. -/
theorem Flooded.take_other (h : Flooded T m g₀ o g W F) (hsay : p.msg.isSay = false) :
    ((g.flight.erase p).filter fun p => p.msg.isSay).Perm (F.map m.packet) := by
  rw [← List.erase_filter, List.erase_of_not_mem]
  · exact h.inFlight
  · simp [hsay]

/-! ## Datagrams of a forwarded say -/

theorem packets_sendMessage_s2s (n : Addressable) (targets : List Addressable) (msg : S2sMsg) :
    packets n (sendMessage targets (.s2s msg)) = targets.map fun t => ⟨n, t, msg⟩ := by
  simp [packets, sendMessage, List.filterMap_map]

theorem packets_sendMessage_text (n : Addressable) (targets : List Addressable) (text : Text) :
    packets n (sendMessage targets (.text text)) = [] := by
  simp [packets, sendMessage, List.filterMap_map]

/-- What `handle_s2s_say` sends for a message from `s`. -/
def Said.forwarded (m : Said) (s : Addressable) (st : State) (c : Channel) : List Datagram :=
  broadcastS2sSay (c.serverList.filter (· ≠ s)) m.uid m.username m.channel m.text ++
    broadcastSay (c.userList.map User.addr) m.channel m.username m.text ++ pruneLeaves st

theorem filter_isSay_forwarded (hs : st.Sound) (n s : Addressable) (m : Said) (c : Channel) :
    (packets n (m.forwarded s st c)).filter (fun p => p.msg.isSay) =
      (c.serverList.filter (· ≠ s)).map fun t => ⟨n, t, m.s2s⟩ := by
  have hleaves : (packets n (pruneLeaves st)).filter (fun p => p.msg.isSay) = [] := by
    apply List.filter_eq_nil_iff.mpr
    intro p hp
    obtain ⟨-, hd⟩ := mem_packets.mp hp
    obtain ⟨name, -, -, -, -, hmsg⟩ := (mem_pruneLeaves hs).mp hd
    rw [Msg.s2s.inj hmsg]
    simp [S2sMsg.isSay]
  have hsays : ((c.serverList.filter (· ≠ s)).map fun t => (⟨n, t, m.s2s⟩ : Packet)).filter
      (fun p => p.msg.isSay) = (c.serverList.filter (· ≠ s)).map fun t => ⟨n, t, m.s2s⟩ := by
    apply List.filter_eq_self.mpr
    intro p hp
    obtain ⟨t, -, rfl⟩ := List.mem_map.mp hp
    rfl
  rw [Said.forwarded, packets_append, packets_append, List.filter_append, List.filter_append,
    hleaves, List.append_nil, broadcastS2sSay, packets_sendMessage_s2s, broadcastSay,
    packets_sendMessage_text, List.filter_nil, List.append_nil]
  exact hsays

/-! ## One delivery -/

/-- A server that has the channel passes the message on and prunes. -/
theorem State.Inv.passes (h : st.Inv adj) (hr : st.Reacts r)
    (hinput : r.input = .recv s (.s2s m.s2s)) (hc : st.chan m.channel = some c) :
    ∃ st', r.after = some st' ∧ st.Pruned st' ∧ r.sent = m.forwarded s st c := by
  have hnew : m.uid ∉ c.uidSet := by simp [(h.routed m.channel c hc).uids]
  obtain ⟨st', hok, hpruned⟩ := handleS2sSay_spec h.sound hc hnew s m.username m.text
  have hres : r.result = .ok (st', m.forwarded s st c) := by
    rw [hr.2, hinput]
    exact hok
  exact ⟨st', by simp [Reaction.after, hres], hpruned, by simp [Reaction.sent, hres]⟩

/-- Nothing is ever in a server's uid set, so a copy is never taken for a duplicate. -/
theorem State.Inv.runsForward_iff (h : st.Inv adj) (hr : st.Reacts r) (hmsg : p.msg = m.s2s)
    (s : Addressable) : (Event.delivery p r).runsForward m s ↔ p.dst = s := by
  obtain ⟨src, dst, msg⟩ := p
  cases hmsg
  have huids : ((st.chan m.channel).elim false fun c => c.containsId m.uid) = false := by
    cases hc : st.chan m.channel with
    | none => rfl
    | some c => simp [Channel.containsId, (h.routed m.channel c hc).uids]
  simp [Event.runsForward, hr.1, h.sound.channelAlreadyGotMessage, huids]

/-- The network after a server has handled a datagram without adding to the channel. -/
theorem Flooded.update (h : Flooded T m g₀ o g W F) {W' F' : List (List Addressable)}
    (hst : g.server p.dst = some st) (hr : st.Reacts r)
    (hflood : Flooding (fun s => g₀.routes s m.channel) o W' F')
    (hflight : (((g.take p).update p.dst r).flight.filter fun p => p.msg.isSay).Perm
      (F'.map m.packet))
    (hsub : W ⊆ W')
    (hchan : ∀ st' c', r.after = some st' → st'.chan m.channel = some c' →
      ∃ c, st.chan m.channel = some c ∧ c'.uset = c.uset ∧ ∀ t ∈ c'.serverList, t ∈ c.serverList)
    (hfresh : ∀ st', r.after = some st' → (∀ w, p.dst :: w ∉ W') →
      (st.chan m.channel).isSome → (st'.chan m.channel).isSome)
    (hheads : ∀ s w, s :: w ∈ W' → (g₀.chan s m.channel).isSome) :
    Flooded T m g₀ o ((g.take p).update p.dst r) W' F' := by
  have hst₀ : (g.take p).server p.dst = some st := hst
  refine ⟨(h.inv.take p).update hst₀ hr, hflood, hflight, fun s c' hc' => ?_,
    fun s hup hhas hnew => ?_, hheads⟩
  · by_cases hs : s = p.dst
    · subst hs
      cases hafter : r.after with
      | none =>
          rw [Net.chan_of_down hafter] at hc'
          cases hc'
      | some st' =>
          rw [Net.chan_update_self hafter] at hc'
          obtain ⟨c, hc, huset, hlist⟩ := hchan st' c' hafter hc'
          obtain ⟨hhas, hcoh, hroutes⟩ := h.chan p.dst c (by rw [Net.chan_of_server hst, hc])
          exact ⟨hhas, huset ▸ hcoh, fun t ht => hroutes t (hlist t ht)⟩
    · rw [Net.chan_update_of_ne hs] at hc'
      exact h.chan s c' hc'
  · have hold : ∀ w, s :: w ∉ W := fun w hw => hnew w (hsub hw)
    by_cases hs : s = p.dst
    · subst hs
      obtain ⟨st', hafter⟩ := Option.isSome_iff_exists.mp hup
      rw [Net.update_server_self] at hafter
      rw [Net.chan_update_self hafter]
      have hsome := h.fresh p.dst (by simp [hst]) hhas hold
      rw [Net.chan_of_server hst] at hsome
      exact hfresh st' hafter hnew hsome
    · rw [Net.update_server_of_ne hs] at hup
      rw [Net.chan_update_of_ne hs]
      exact h.fresh s hup hhas hold

/-- A server that has the channel passes the message on. -/
theorem Flooded.pass (h : Flooded T m g₀ o g W F) (hw : p.dst :: p.src :: w ∈ F)
    (hst : g.server p.dst = some st) (hr : st.Reacts r) (hmsg : p.msg = m.s2s)
    (hinput : r.input = .recv p.src (.s2s p.msg)) (hc : st.chan m.channel = some c) :
    ∃ st', r.after = some st' ∧ st.Pruned st' ∧ r.sent = m.forwarded p.src st c ∧
      Flooded T m g₀ o ((g.take p).update p.dst r) ((p.dst :: p.src :: w) :: W)
        (F.erase (p.dst :: p.src :: w) ++
          (c.serverList.filter (· ≠ p.src)).map (· :: p.dst :: p.src :: w)) := by
  have hserver := h.inv.servers p.dst st hst
  have hrouted := hserver.routed m.channel c hc
  obtain ⟨st', hafter, hpruned, hsent⟩ := hserver.passes hr (by rw [hinput, hmsg]) hc
  have hchan : g.chan p.dst m.channel = some c := by rw [Net.chan_of_server hst, hc]
  obtain ⟨hhas, -, hroutes⟩ := h.chan p.dst c hchan
  have hpacket : m.packet (p.dst :: p.src :: w) = p := by
    rw [Said.packet_cons_cons, ← hmsg]
  refine ⟨st', hafter, hpruned, hsent, h.update hst hr ?_ ?_ (List.subset_cons_self _ _)
    (fun st₁ c' hafter₁ hc' => ?_) (fun _ _ hfresh _ => ?_) fun s u hu => ?_⟩
  · refine h.flood.hop hw (fun t ht => ?_) (hrouted.coherent.nodup.filter _)
    obtain ⟨ht, hne⟩ := List.mem_filter.mp ht
    exact List.mem_filter.mpr ⟨hroutes t ht, hne⟩
  · have hold := h.take_copy hw
    rw [hpacket] at hold
    have hadded : (packets p.dst r.sent).filter (fun p => p.msg.isSay) =
        ((c.serverList.filter (· ≠ p.src)).map (· :: p.dst :: p.src :: w)).map m.packet := by
      rw [hsent, filter_isSay_forwarded hserver.sound, List.map_map]
      rfl
    simp only [Net.update, Net.take, List.filter_append, List.map_append]
    rw [hadded]
    exact hold.append_right _
  · rw [hafter] at hafter₁
    cases hafter₁
    exact ⟨c', (hpruned.chan_eq_some.mp hc').1, rfl, fun _ ht => ht⟩
  · exact absurd List.mem_cons_self (hfresh (p.src :: w))
  · rcases List.mem_cons.mp hu with heq | hu
    · cases heq
      exact hhas
    · exact h.heads s u hu

/-- A server without the channel goes down. -/
theorem Flooded.crash (h : Flooded T m g₀ o g W F) (hw : p.dst :: p.src :: w ∈ F)
    (hst : g.server p.dst = some st) (hr : st.Reacts r) (hmsg : p.msg = m.s2s)
    (hinput : r.input = .recv p.src (.s2s p.msg)) (hc : st.chan m.channel = none) :
    r.after = none ∧ r.sent = [] ∧
      Flooded T m g₀ o ((g.take p).update p.dst r) W (F.erase (p.dst :: p.src :: w)) := by
  have hserver := h.inv.servers p.dst st hst
  have hres : r.result = .error .nullPointer := by
    rw [hr.2, hinput, hmsg]
    exact handleS2sSay_of_no_channel hserver.sound hc
  have hafter : r.after = none := by simp [Reaction.after, hres]
  have hsent : r.sent = [] := Reaction.sent_of_down hafter
  have hpacket : m.packet (p.dst :: p.src :: w) = p := by
    rw [Said.packet_cons_cons, ← hmsg]
  have hdown : ∀ st', r.after ≠ some st' := by simp [hafter]
  refine ⟨hafter, hsent, h.update hst hr (h.flood.drop _) ?_ (List.Subset.refl W)
    (fun st' _ hst' => absurd hst' (hdown st')) (fun st' hst' => absurd hst' (hdown st')) h.heads⟩
  have hold := h.take_copy hw
  rw [hpacket] at hold
  simpa [Net.update, Net.take, hsent, packets] using hold

/-- What a leave does to a channel. -/
theorem State.Inv.after_leave (h : st.Inv adj) {cur : Addressable} {other : Cname}
    (heff : st.Effect env (.recv cur (.s2s (.leave other))) st' sent) (name : Cname) :
    sent = [] ∧ (st'.chan name).isSome = (st.chan name).isSome ∧
      ∀ c', st'.chan name = some c' → ∃ c, st.chan name = some c ∧ c'.uset = c.uset ∧
        ∀ t ∈ c'.serverList, t ∈ c.serverList := by
  cases heff with
  | s2sLeave hadj hs' hsame hchan =>
      refine ⟨rfl, ?_, fun c' hc' => ?_⟩
      · rw [hchan]
        by_cases hother : name = other
        · rw [hother, Function.update_self, Option.isSome_map]
        · rw [Function.update_of_ne hother]
      · rw [hchan] at hc'
        by_cases hother : name = other
        · rw [hother, Function.update_self] at hc'
          obtain ⟨c, hc, rfl⟩ := Option.map_eq_some_iff.mp hc'
          have hlist := (Channel.removeServer_sset (h.routed other c hc).coherent cur).2
          refine ⟨c, by rw [hother, hc], rfl, fun t ht => ?_⟩
          rw [hlist] at ht
          exact List.mem_of_mem_erase ht
        · rw [Function.update_of_ne hother] at hc'
          exact ⟨c', hc', rfl, fun t ht => ht⟩

theorem Flooded.leave (h : Flooded T m g₀ o g W F) {other : Cname} (hp : p ∈ g.flight)
    (hst : g.server p.dst = some st) (hr : st.Reacts r) (hmsg : p.msg = .leave other)
    (hinput : r.input = .recv p.src (.s2s p.msg)) :
    ∃ st', r.after = some st' ∧ st.Effect r.env r.input st' r.sent ∧ r.sent = [] ∧
      Flooded T m g₀ o ((g.take p).update p.dst r) W F := by
  have hserver := h.inv.servers p.dst st hst
  have hup := hserver.isSome_after_iff (h.inv.packets p hp) hr hinput
  rw [hmsg] at hup
  obtain ⟨st', hafter⟩ := Option.isSome_iff_exists.mp hup
  have heff := hserver.effect_of_step ⟨hr, hafter⟩
  rw [hinput, hmsg] at heff
  obtain ⟨hsent, hsome, hold⟩ := hserver.after_leave heff m.channel
  refine ⟨st', hafter, by rwa [hinput, hmsg], hsent, h.update hst hr h.flood ?_
    (List.Subset.refl W) (fun st₁ c' hafter₁ hc' => ?_) (fun st₁ hafter₁ _ hhas => ?_) h.heads⟩
  · have htake := h.take_other (p := p) (by rw [hmsg]; rfl)
    simpa [Net.update, Net.take, hsent, packets] using htake
  · rw [hafter] at hafter₁
    cases hafter₁
    exact hold c' hc'
  · rw [hafter] at hafter₁
    cases hafter₁
    rwa [hsome]

/-- A datagram for a server that is down. -/
theorem Flooded.lose (h : Flooded T m g₀ o g W F) (hp : p ∈ g.flight) :
    ∃ F', Flooded T m g₀ o (g.take p) W F' := by
  cases hsay : p.msg.isSay with
  | false =>
      exact ⟨F, h.inv.take p, h.flood, h.take_other hsay, h.chan, h.fresh, h.heads⟩
  | true =>
      obtain ⟨w, hw, hmsg⟩ := h.exists_walk hp hsay
      have hpacket : m.packet (p.dst :: p.src :: w) = p := by
        rw [Said.packet_cons_cons, ← hmsg]
      have hold := h.take_copy hw
      rw [hpacket] at hold
      exact ⟨_, h.inv.take p, h.flood.drop _, hold, h.chan, h.fresh, h.heads⟩

/-! ## The start of a flood -/

/-- `handle_say` accepts the request of `r` and sends it on as `m`. -/
def State.Accepts (st : State) (r : Reaction) (m : Said) : Prop :=
  ∃ cur user, r.input = .recv cur (.client (.say m.channel m.text)) ∧
    st.uset.getUserByIp cur = some user ∧ m.username = user.name ∧ m.uid = r.env.uid ∧
      (st.chan m.channel).isSome

/-- What `handle_say` sends for a message it accepts. -/
def Said.accepted (m : Said) (c : Channel) : List Datagram :=
  broadcastSay (c.userList.map User.addr) m.channel m.username m.text ++
    broadcastS2sSay c.serverList m.uid m.username m.channel m.text

theorem State.accepts_reaction {cur : Addressable}
    (huser : (st.uset.getUserByIp cur).map User.name = some m.username)
    (hc : (st.chan m.channel).isSome) (now : ℕ) :
    st.Accepts (st.reaction ⟨now, m.uid⟩ (.recv cur (.client (.say m.channel m.text)))) m := by
  obtain ⟨user, huser, hname⟩ := Option.map_eq_some_iff.mp huser
  exact ⟨cur, user, rfl, huser, hname.symm, rfl, hc⟩

theorem State.Inv.accepts_spec (h : st.Inv adj) (hr : st.Reacts r) (hsay : st.Accepts r m) :
    ∃ c st', st.chan m.channel = some c ∧ r.after = some st' ∧ st'.chan = st.chan ∧
      r.sent = m.accepted c := by
  obtain ⟨cur, user, hinput, huser, hname, huid, hsome⟩ := hsay
  obtain ⟨c, hc⟩ := Option.isSome_iff_exists.mp hsome
  have hspec : handleSay st r.env cur m.channel m.text = _ := handleSay_spec h.sound huser hc
  have hres : r.result = _ := (hr.2.trans (by rw [hinput]; rfl)).trans hspec
  refine ⟨c, st.updateLastSeen r.env.now user, hc, by simp [Reaction.after, hres], rfl, ?_⟩
  simp [Reaction.sent, hres, hname, huid, Said.accepted]

/-- A say is accepted while no other say is in flight. -/
theorem Flooded.start (hinv : g₀.Inv T) (hflight : ∀ p ∈ g₀.flight, p.msg.isSay = false)
    (hcoh : ∀ s c, g₀.chan s m.channel = some c → c.uset.Coherent)
    (hst : g₀.server o = some st) (hr : st.Reacts r) (hsay : st.Accepts r m) :
    Flooded T m g₀ o (g₀.update o r) [[o]]
      ((g₀.routes o m.channel).map (· :: [o])) := by
  have hserver := hinv.servers o st hst
  obtain ⟨c, st', hc, hafter, hchan, hsent⟩ := hserver.accepts_spec hr hsay
  have hsame : ∀ s, (g₀.update o r).chan s m.channel = g₀.chan s m.channel := by
    intro s
    by_cases hs : s = o
    · rw [hs, Net.chan_update_self hafter, hchan, Net.chan_of_server hst]
    · exact Net.chan_update_of_ne hs r m.channel
  have hroutes : ∀ {s c}, g₀.chan s m.channel = some c → g₀.routes s m.channel = c.serverList := by
    intro s c hc
    rw [Net.routes, hc]
    rfl
  have hroot : g₀.routes o m.channel = c.serverList :=
    hroutes (by rw [Net.chan_of_server hst, hc])
  refine ⟨hinv.update hst hr, .start (fun _ => id) ?_, ?_, ?_, ?_, ?_⟩
  · rw [hroot]
    exact (hserver.routed m.channel c hc).coherent.nodup
  · have hnone : g₀.flight.filter (fun p => p.msg.isSay) = [] :=
      List.filter_eq_nil_iff.mpr fun p hp => by simp [hflight p hp]
    have hall : (c.serverList.map fun t => (⟨o, t, m.s2s⟩ : Packet)).filter
        (fun p => p.msg.isSay) = c.serverList.map fun t => ⟨o, t, m.s2s⟩ := by
      apply List.filter_eq_self.mpr
      intro p hp
      obtain ⟨t, -, rfl⟩ := List.mem_map.mp hp
      rfl
    have hpackets : packets o r.sent = c.serverList.map fun t => ⟨o, t, m.s2s⟩ := by
      rw [hsent, Said.accepted, packets_append, broadcastSay, packets_sendMessage_text,
        broadcastS2sSay, packets_sendMessage_s2s]
      rfl
    simp only [Net.update, List.filter_append, hnone, List.nil_append, hpackets, hall, hroot,
      List.map_map]
    exact List.Perm.refl _
  · intro s c' hc'
    rw [hsame] at hc'
    refine ⟨by simp [hc'], hcoh s c' hc', fun t ht => ?_⟩
    rwa [hroutes hc']
  · intro s _ hhas _
    rwa [hsame]
  · intro s w hw
    cases List.mem_singleton.mp hw
    rw [Net.chan_of_server hst, hc]
    rfl

/-! ## Counting -/

theorem sum_map_cons_snoc {α : Type} (f : α → ℕ) (x y : α) (l : List α) :
    ((x :: (l ++ [y])).map f).sum = ((x :: l).map f).sum + f y := by
  simp [add_assoc]

theorem Event.textsTo_of_silent {a : Addressable} (h : e.sent = []) : e.textsTo m s a = 0 := by
  simp [Event.textsTo, h]

theorem Event.copies_of_silent (h : e.sent = []) : e.copies m = 0 := by
  simp [Event.copies, h]

theorem countP_texts (targets : List Addressable) (m : Said) (a : Addressable) :
    (broadcastSay targets m.channel m.username m.text).countP
      (fun d => decide (d = ⟨a, m.toUser⟩)) = targets.count a := by
  rw [broadcastSay, sendMessage, List.countP_map, List.count]
  congr 1
  funext t
  by_cases ht : t = a <;> simp [Said.toUser, ht]

theorem countP_texts_s2s (targets : List Addressable) (m : Said) (msg : S2sMsg)
    (a : Addressable) :
    (sendMessage targets (.s2s msg)).countP (fun d => decide (d = ⟨a, m.toUser⟩)) = 0 := by
  apply List.countP_eq_zero.mpr
  intro d hd
  obtain ⟨-, hmsg⟩ := mem_sendMessage.mp hd
  simp only [decide_eq_true_eq]
  rintro rfl
  cases hmsg

theorem countP_copies (targets : List Addressable) (m : Said) :
    (broadcastS2sSay targets m.uid m.username m.channel m.text).countP
      (fun d => decide (d.msg = .s2s m.s2s)) = targets.length := by
  rw [List.countP_eq_length.mpr, broadcastS2sSay, sendMessage, List.length_map]
  intro d hd
  simp [(mem_sendMessage.mp hd).2, Said.s2s]

theorem countP_copies_text (targets : List Addressable) (m : Said) :
    (broadcastSay targets m.channel m.username m.text).countP
      (fun d => decide (d.msg = .s2s m.s2s)) = 0 := by
  apply List.countP_eq_zero.mpr
  intro d hd
  simp [(mem_sendMessage.mp hd).2]

theorem countP_leaves (hs : st.Sound) (m : Said) (a : Addressable) :
    (pruneLeaves st).countP (fun d => decide (d = ⟨a, m.toUser⟩)) = 0 ∧
      (pruneLeaves st).countP (fun d => decide (d.msg = .s2s m.s2s)) = 0 := by
  have hleave : ∀ d ∈ pruneLeaves st, ∃ name, d.msg = .s2s (.leave name) := by
    intro d hd
    obtain ⟨name, -, -, -, -, hmsg⟩ := (mem_pruneLeaves hs).mp hd
    exact ⟨name, hmsg⟩
  constructor
  · apply List.countP_eq_zero.mpr
    intro d hd
    obtain ⟨name, hmsg⟩ := hleave d hd
    simp only [decide_eq_true_eq]
    rintro rfl
    cases hmsg
  · apply List.countP_eq_zero.mpr
    intro d hd
    obtain ⟨name, hmsg⟩ := hleave d hd
    simp [hmsg, Said.s2s]

namespace Event

theorem textsTo_accepted (hsent : r.sent = m.accepted c) (s a : Addressable) :
    (Event.pass n r).textsTo m s a =
      if n = s then (c.userList.map User.addr).count a else 0 := by
  have hsent' : (Event.pass n r).sent = m.accepted c := hsent
  simp only [textsTo, hsent', Said.accepted, List.countP_append, countP_texts, broadcastS2sSay,
    countP_texts_s2s, add_zero]
  rfl

theorem copies_accepted (hsent : r.sent = m.accepted c) :
    (Event.pass n r).copies m = c.serverList.length := by
  have hsent' : (Event.pass n r).sent = m.accepted c := hsent
  rw [copies, hsent', Said.accepted, List.countP_append, countP_copies, countP_copies_text,
    zero_add]

/-- A server that passes the message on tells each of its clients on the channel. -/
theorem textsTo_forwarded (hs : st.Sound) (hsent : r.sent = m.forwarded p.src st c)
    (s a : Addressable) : (Event.delivery p r).textsTo m s a =
      if p.dst = s then (c.userList.map User.addr).count a else 0 := by
  have hsent' : (Event.delivery p r).sent = m.forwarded p.src st c := hsent
  simp only [textsTo, hsent', Said.forwarded, List.countP_append, countP_texts, broadcastS2sSay,
    countP_texts_s2s, (countP_leaves hs m a).1, zero_add, add_zero]
  rfl

theorem copies_forwarded (hs : st.Sound) (hsent : r.sent = m.forwarded p.src st c) :
    (Event.delivery p r).copies m = (c.serverList.filter (· ≠ p.src)).length := by
  have hsent' : (Event.delivery p r).sent = m.forwarded p.src st c := hsent
  rw [copies, hsent', Said.forwarded, List.countP_append, List.countP_append, countP_copies,
    countP_copies_text, (countP_leaves hs m p.src).2, add_zero, add_zero]

end Event

/-! ## Join traffic -/

/-- Only joins are in flight, and the users of a channel are coherent. -/
structure OnlyJoins (T : Topology) (name : Cname) (g : Net) : Prop where
  inv : g.Inv T
  flight : ∀ p ∈ g.flight, p.msg.isJoin
  coherent : ∀ s c, g.chan s name = some c → c.uset.Coherent

theorem State.Inv.sends_joins {input : Input} (h : st.Inv adj) (heff : st.Effect env input st' sent)
    (hkind : input.isJoinTraffic) : ∀ d ∈ sent, ∃ name, d.msg = .s2s (.join name) := by
  intro d hd
  cases heff with
  | login cur username => cases hd
  | strangerJoin name hnone => exact ⟨name, (mem_sendMessage.mp hd).2⟩
  | @join cur name user _ huser hs' hsset huset hchan => exact ⟨name, (mem_sendMessage.mp hd).2⟩
  | @s2sJoin cur name _ hadj hs' hsame hchan =>
      split at hd
      · cases hd
      · exact ⟨name, (mem_sendMessage.mp hd).2⟩
  | joinSend =>
      obtain ⟨name, -, -, -, hmsg⟩ := (mem_joinSends h.sound).mp hd
      exact ⟨name, hmsg⟩
  | _ => cases hkind

theorem State.Effect.coherent_users {env : Env} {input : Input} {sent : List Datagram}
    {name : Cname} (heff : st.Effect env input st' sent) (hkind : input.isJoinTraffic)
    (hcoh : ∀ c, st.chan name = some c → c.uset.Coherent) :
    ∀ c, st'.chan name = some c → c.uset.Coherent := by
  cases heff with
  | login cur username => exact hcoh
  | strangerJoin other hnone => exact hcoh
  | @join cur other user _ huser hs' hsset huset hchan =>
      refine chan_of_update hcoh hchan ?_
      rintro rfl c ⟨⟩
      have hold : ((st.chan name).getD (Channel.new name)).uset.Coherent := by
        cases hc : st.chan name with
        | none => exact UserSet.coherent_empty
        | some c => exact hcoh c hc
      exact (hold.channelAddUser user).1
  | @s2sJoin cur other _ hadj hs' hsame hchan =>
      refine chan_of_update hcoh hchan ?_
      rintro rfl c ⟨⟩
      cases hc : st.chan name with
      | none => exact UserSet.coherent_empty
      | some c => exact (Channel.heardFrom_uset c env.now cur).symm ▸ hcoh c hc
  | joinSend => exact hcoh
  | _ => cases hkind

theorem OnlyJoins.step {name : Cname} (h : OnlyJoins T name g) (htraffic : e.isJoinTraffic)
    (hstep : Net.Step g e g') : OnlyJoins T name g' := by
  have hreact : ∀ {g₁ : Net} {n : Addressable} {st : State} {r : Reaction},
      OnlyJoins T name g₁ → g₁.server n = some st → st.Reacts r → r.input.isJoinTraffic →
      (∀ src msg, r.input = .recv src (.s2s msg) → src ∈ T.adj n) →
      OnlyJoins T name (g₁.update n r) := by
    intro g₁ n st r h hst hr hkind hsrc
    have hserver := h.inv.servers n st hst
    obtain ⟨st', hafter⟩ := hserver.joinTraffic_completes hr hkind hsrc
    have heff := hserver.effect_of_step ⟨hr, hafter⟩
    refine ⟨h.inv.update hst hr, fun p hp => ?_, fun s c hc => ?_⟩
    · rcases List.mem_append.mp hp with hp | hp
      · exact h.flight p hp
      · obtain ⟨other, hmsg⟩ := hserver.sends_joins heff hkind _ (mem_packets.mp hp).2
        rw [Msg.s2s.inj hmsg]
        rfl
    · by_cases hs : s = n
      · rw [hs, Net.chan_update_self hafter] at hc
        refine heff.coherent_users hkind (fun c hc => ?_) c hc
        exact h.coherent n c (by rw [Net.chan_of_server hst, hc])
      · rw [Net.chan_update_of_ne hs] at hc
        exact h.coherent s c hc
  cases hstep with
  | @pass n st r hst hr hkind =>
      exact hreact h hst hr htraffic fun src msg hinput => absurd hinput (hkind src msg)
  | @delivery p st r hp hst hr hinput =>
      have htake : OnlyJoins T name (g.take p) :=
        ⟨h.inv.take p, fun q hq => h.flight q (List.mem_of_mem_erase hq), h.coherent⟩
      refine hreact htake hst hr htraffic fun src msg heq => ?_
      rw [hinput] at heq
      cases heq
      exact h.inv.packets p hp
  | lost hp hst => cases htraffic

theorem onlyJoins_initial (T : Topology) (name : Cname) : OnlyJoins T name T.initial := by
  refine ⟨T.inv_initial, fun p hp => ?_, fun s c hc => ?_⟩
  · cases hp
  · simp only [Net.chan, Topology.initial] at hc
    split at hc <;> cases hc

theorem Topology.Reaches.onlyJoins (hg : T.Reaches (fun e => e.isJoinTraffic) g) (name : Cname) :
    OnlyJoins T name g := by
  obtain ⟨es, hrun, htraffic⟩ := hg
  exact hrun.invariant (fun _ _ _ h he hstep => OnlyJoins.step h he hstep) htraffic
    (onlyJoins_initial T name)

/-! ## Names for concrete runs -/

def greeting : Said := ⟨7, alice, chat, hello⟩

/-- The client that the message is from sends it. -/
def Said.request (m : Said) (cur : Addressable) : Input :=
  .recv cur (.client (.say m.channel m.text))

end CliMessaging.Distributed
