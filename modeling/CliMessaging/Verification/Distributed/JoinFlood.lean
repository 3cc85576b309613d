import CliMessaging.Verification.Distributed.NetInvariant
import CliMessaging.Verification.Distributed.Replay
import CliMessaging.Verification.Distributed.Topologies
import Mathlib.Algebra.BigOperators.Group.Finset.Basic
import Mathlib.Algebra.Order.BigOperators.Group.Finset

/-! # The flood of joins

While clients only log in and join, a server that has a channel has announced it to
every neighbour: its join is in flight or has been turned into a route. -/

namespace CliMessaging.Distributed

open State Transition

/-- Logins, joins, the periodic joins and the joins of other servers. -/
def Input.isJoinTraffic : Input → Bool
  | .recv _ (.client (.login _)) | .recv _ (.client (.join _)) | .recv _ (.s2s (.join _))
  | .joinSend => true
  | _ => false

namespace Event

def isJoinTraffic : Event → Bool
  | pass _ r | delivery _ r => r.input.isJoinTraffic
  | lost _ => false

/-- A server processes a client's join: it broadcasts it, or creates the channel for a
client that is logged in. -/
def startsJoin (name : Cname) : Event → Bool
  | pass _ r =>
      match r.input with
      | .recv cur (.client (.join other)) =>
          decide (other = name) &&
            (!r.sent.isEmpty || (r.before.uset.getUserByIp cur).isSome)
      | _ => false
  | delivery _ _ | lost _ => false

/-- The server at `n` forwards a received join. -/
def forwardsJoin (name : Cname) (n : Addressable) : Event → Bool
  | delivery p r => decide (p.dst = n ∧ p.msg = .join name ∧ r.sent ≠ [])
  | pass _ _ | lost _ => false

/-- How many joins of the channel a server sends on receiving one. -/
def forwardedJoins (name : Cname) : Event → ℕ
  | delivery _ r => r.sent.countP fun d => decide (d.msg = .s2s (.join name))
  | pass _ _ | lost _ => 0

end Event

variable {T : Topology} {g g' : Net} {e : Event} {past : List Event} {adj : List Server}
  {st st' : State} {env : Env} {input : Input} {sent : List Datagram} {name : Cname}
  {n m : Addressable} {r : Reaction}

theorem Event.startsJoin_pass (h : (Event.pass n r).startsJoin name) :
    ∃ cur, r.input = .recv cur (.client (.join name)) ∧
      (r.sent ≠ [] ∨ r.before.LoggedIn cur) := by
  unfold Event.startsJoin at h
  cases hinput : r.input with
  | recv cur req =>
      cases req with
      | client req =>
          cases req with
          | join other =>
              simp only [hinput, Bool.and_eq_true, decide_eq_true_eq] at h
              obtain ⟨rfl, hclient⟩ := h
              refine ⟨cur, rfl, ?_⟩
              simpa [State.LoggedIn, Option.isSome_iff_exists] using hclient
          | _ => simp [hinput] at h
      | s2s msg => simp [hinput] at h
  | _ => simp [hinput] at h

/-! ## One server -/

/-- What join traffic does to one channel of a server. -/
structure State.Grows (st : State) (name : Cname) (input : Input) (st' : State)
    (sent : List Datagram) : Prop where
  keeps : (st.chan name).isSome → (st'.chan name).isSome
  routes : ∀ t ∈ st.routes name, t ∈ st'.routes name
  announces : st.chan name = none → (st'.chan name).isSome →
    ∀ t ∈ st.sset.serverList, ⟨t, .s2s (.join name)⟩ ∈ sent
  learns : ∀ src, input = .recv src (.s2s (.join name)) → src ∈ st'.routes name
  starts : ∀ cur, input = .recv cur (.client (.join name)) → sent ≠ [] ∨ st.LoggedIn cur →
    (st'.chan name).isSome ∨ ∃ d ∈ sent, d.msg = .s2s (.join name)

/-- A pass that leaves the channel alone and is neither a join of it nor a delivery. -/
theorem State.grows_of_same (hchan : st'.chan name = st.chan name)
    (hlearns : ∀ src, input ≠ .recv src (.s2s (.join name)))
    (hstarts : ∀ cur, input ≠ .recv cur (.client (.join name))) :
    st.Grows name input st' sent where
  keeps h := by rwa [hchan]
  routes t ht := by rwa [State.routes_congr hchan]
  announces hnone hsome := by simp [hchan, hnone] at hsome
  learns src h := absurd h (hlearns src)
  starts cur h := absurd h (hstarts cur)

theorem mem_broadcastS2sJoin {targets : List Addressable} {t : Addressable}
    (ht : t ∈ targets) (name : Cname) :
    ⟨t, .s2s (.join name)⟩ ∈ broadcastS2sJoin targets name :=
  mem_sendMessage.mpr ⟨ht, rfl⟩

theorem State.Inv.grows (h : st.Inv adj) (heff : st.Effect env input st' sent)
    (hkind : input.isJoinTraffic) (name : Cname) : st.Grows name input st' sent := by
  cases heff with
  | login cur username => exact State.grows_of_same rfl (by simp) (by simp)
  | strangerJoin other hnone =>
      refine ⟨id, fun _ => id, ?_, by simp, ?_⟩
      · intro hc hsome
        simp [hc] at hsome
      · rintro cur heq (hsent | hin)
        · cases heq
          obtain ⟨d, hd⟩ := List.exists_mem_of_ne_nil _ hsent
          exact Or.inr ⟨d, hd, (mem_sendMessage.mp hd).2⟩
        · cases heq
          exact absurd hin (not_loggedIn.mpr hnone)
  | @join cur other user _ huser hs' hsset huset hchan =>
      by_cases hother : name = other
      · subst hother
        have hself : st'.chan name =
            some (((st.chan name).getD (Channel.new name)).addUser user) := by
          rw [hchan, Function.update_self]
        refine ⟨by simp [hself], ?_, ?_, by simp, fun _ _ _ => Or.inl (by simp [hself])⟩
        · intro t ht
          rwa [State.routes_of_join hchan]
        · intro _ _ t ht
          exact mem_broadcastS2sJoin ht name
      · refine State.grows_of_same ?_ (by simp) (by simp [Ne.symm hother])
        rw [hchan, Function.update_of_ne hother]
  | @s2sJoin cur other _ hadj hs' hsame hchan =>
      by_cases hother : name = other
      · subst hother
        obtain ⟨c', hself, hcur, hroutes, -⟩ := h.hears hchan
        refine ⟨by simp [hself], fun t ht => ?_, fun hnone _ t ht => ?_, ?_, by simp⟩
        · rw [State.routes_of_chan hself]
          exact hroutes t ht
        · simpa [hnone] using mem_broadcastS2sJoin ht name
        · rintro src ⟨⟩
          rwa [State.routes_of_chan hself]
      · refine State.grows_of_same ?_ (by simp [Ne.symm hother]) (by simp)
        rw [hchan, Function.update_of_ne hother]
  | joinSend => exact State.grows_of_same rfl (by simp) (by simp)
  | _ => cases hkind

/-- Join traffic from adjacent servers never brings a server down. -/
theorem State.Inv.joinTraffic_completes (h : st.Inv adj) (hr : st.Reacts r)
    (hkind : r.input.isJoinTraffic)
    (hsrc : ∀ src msg, r.input = .recv src (.s2s msg) → src ∈ adj) :
    ∃ st', r.after = some st' := by
  apply Option.isSome_iff_exists.mp
  have hres := hr.2
  cases hinput : r.input with
  | recv src req =>
      rw [hinput] at hres hkind
      cases req with
      | client req =>
          cases req with
          | login username => simp [Reaction.after, hres, react, handler, handleLogin]
          | join other =>
              cases huser : st.uset.getUserByIp src with
              | none =>
                  simp [Reaction.after, hres, react, handler, handleJoin_of_stranger huser]
              | some user =>
                  obtain ⟨st', heq, -⟩ := handleJoin_spec h.sound huser r.env other
                  simp [Reaction.after, hres, react, handler, heq]
          | _ => cases hkind
      | s2s msg =>
          cases msg with
          | join other =>
              have hadj : src ∈ st.sset.serverList := h.servers ▸ hsrc src _ hinput
              obtain ⟨st', heq, -⟩ := handleS2sJoin_spec h.sound hadj r.env other
              simp [Reaction.after, hres, react, handler, heq]
          | _ => cases hkind
  | joinSend =>
      have hread : st.chans.readAll st.cset.channelList = _ := Heap.readAll_of_live h.sound.live
      simp [Reaction.after, hres, hinput, react, joinSendPass, hread]
  | _ =>
      rw [hinput] at hkind
      cases hkind

/-! ## The edges of the network -/

/-- Every server that has the channel has told each neighbour, or its join is in flight. -/
def Announced (T : Topology) (name : Cname) (g : Net) : Prop :=
  ∀ a b, b ∈ T.adj a → (g.chan a name).isSome →
    ⟨a, b, .join name⟩ ∈ g.flight ∨ a ∈ g.routes b name

theorem Net.chan_update_mono (hst : g.server n = some st) (hafter : r.after = some st')
    (hgrows : st.Grows name r.input st' r.sent) (hm : (g.chan m name).isSome) :
    ((g.update n r).chan m name).isSome := by
  by_cases hmn : m = n
  · subst hmn
    rw [Net.chan_update_self hafter]
    exact hgrows.keeps (by rwa [Net.chan_of_server hst] at hm)
  · rwa [Net.chan_update_of_ne hmn]

theorem Net.routes_update_mono (hst : g.server n = some st) (hafter : r.after = some st')
    (hgrows : st.Grows name r.input st' r.sent) {t : Addressable} (ht : t ∈ g.routes m name) :
    t ∈ (g.update n r).routes m name := by
  by_cases hmn : m = n
  · subst hmn
    rw [Net.routes_update_self hafter]
    exact hgrows.routes t (by rwa [Net.routes_of_server hst] at ht)
  · rwa [Net.routes_update_of_ne hmn]

/-- The join of one edge may just have been taken out of flight by the server at its end. -/
theorem announced_update (hinv : g.Inv T) (hst : g.server n = some st)
    (hafter : r.after = some st') (hgrows : st.Grows name r.input st' r.sent)
    (h : ∀ a b, b ∈ T.adj a → (g.chan a name).isSome →
      ⟨a, b, .join name⟩ ∈ g.flight ∨ a ∈ g.routes b name ∨
        b = n ∧ r.input = .recv a (.s2s (.join name))) :
    Announced T name (g.update n r) := by
  intro a b hb hhas
  have hold : (g.chan a name).isSome → ⟨a, b, .join name⟩ ∈ (g.update n r).flight ∨
      a ∈ (g.update n r).routes b name := by
    intro hhas
    rcases h a b hb hhas with hflight | hroute | ⟨rfl, hinput⟩
    · exact Or.inl (List.mem_append_left _ hflight)
    · exact Or.inr (Net.routes_update_mono hst hafter hgrows hroute)
    · rw [Net.routes_update_self hafter]
      exact Or.inr (hgrows.learns a hinput)
  by_cases han : a = n
  · subst han
    cases hc : g.chan a name with
    | some c => exact hold (by simp [hc])
    | none =>
        rw [Net.chan_of_server hst] at hc
        rw [Net.chan_update_self hafter] at hhas
        have hsent := hgrows.announces hc hhas b ((hinv.servers a st hst).servers ▸ hb)
        exact Or.inl (List.mem_append_right _ (mem_packets.mpr ⟨rfl, hsent⟩))
  · rw [Net.chan_update_of_ne han] at hhas
    exact hold hhas

/-! ## Runs -/

/-- The channel or its join is somewhere in the network. -/
def Net.Knows (g : Net) (name : Cname) : Prop :=
  (∃ n, (g.chan n name).isSome) ∨ ∃ p ∈ g.flight, p.msg = .join name

/-- The servers that have the channel have at most forwarded one join each. -/
def Net.forwardBudget (T : Topology) (g : Net) (name : Cname) : ℕ :=
  ∑ n ∈ T.nodes, if (g.chan n name).isSome then (T.adj n).length else 0

/-- The invariant of join traffic, with the events of the past. -/
structure JoinFlood (T : Topology) (name : Cname) (past : List Event) (g : Net) : Prop where
  inv : g.Inv T
  up : ∀ n ∈ T.nodes, ∃ st, g.server n = some st
  announced : Announced T name g
  started : (∃ e ∈ past, e.startsJoin name) → g.Knows name
  forwards : ∀ n, past.countP (Event.forwardsJoin name n) ≤
    if (g.chan n name).isSome then 1 else 0
  joins : (past.map (Event.forwardedJoins name)).sum ≤ g.forwardBudget T name

theorem joinFlood_initial (T : Topology) (name : Cname) : JoinFlood T name [] T.initial where
  inv := T.inv_initial
  up n hn := ⟨State.initial (T.adj n), if_pos hn⟩
  announced a b _ hhas := by
    simp only [Net.chan, Topology.initial] at hhas
    split at hhas <;> cases hhas
  started := by simp
  forwards n := Nat.zero_le _
  joins := Nat.zero_le _

theorem up_update (h : ∀ n ∈ T.nodes, ∃ st, g.server n = some st)
    (hafter : r.after = some st') : ∀ m ∈ T.nodes, ∃ st, (g.update n r).server m = some st := by
  intro m hm
  by_cases hmn : m = n
  · exact ⟨st', by rw [hmn, Net.update_server_self, hafter]⟩
  · rw [Net.update_server_of_ne hmn]
    exact h m hm

theorem Net.Knows.update (hst : g.server n = some st) (hafter : r.after = some st')
    (hgrows : st.Grows name r.input st' r.sent) (h : g.Knows name) :
    (g.update n r).Knows name := by
  rcases h with ⟨m, hm⟩ | ⟨p, hp, hmsg⟩
  · exact Or.inl ⟨m, Net.chan_update_mono hst hafter hgrows hm⟩
  · exact Or.inr ⟨p, List.mem_append_left _ hp, hmsg⟩

theorem Net.forwardBudget_mono (h : ∀ m, (g.chan m name).isSome → (g'.chan m name).isSome) :
    g.forwardBudget T name ≤ g'.forwardBudget T name := by
  apply Finset.sum_le_sum
  intro m _
  by_cases hm : (g.chan m name).isSome
  · simp [hm, h m hm]
  · simp [hm]

/-- A server that gets the channel adds its neighbours to the budget. -/
theorem Net.forwardBudget_grow (h : ∀ m, (g.chan m name).isSome → (g'.chan m name).isSome)
    (hn : n ∈ T.nodes) (hold : g.chan n name = none) (hnew : (g'.chan n name).isSome) :
    g.forwardBudget T name + (T.adj n).length ≤ g'.forwardBudget T name := by
  unfold Net.forwardBudget
  rw [← Finset.add_sum_erase _ _ hn, ← Finset.add_sum_erase _ _ hn]
  have hrest : ∑ m ∈ T.nodes.erase n, (if (g.chan m name).isSome then (T.adj m).length else 0) ≤
      ∑ m ∈ T.nodes.erase n, (if (g'.chan m name).isSome then (T.adj m).length else 0) := by
    apply Finset.sum_le_sum
    intro m _
    by_cases hm : (g.chan m name).isSome
    · simp [hm, h m hm]
    · simp [hm]
  simp only [hold, hnew, Option.isSome_none, if_true]
  simp only [Bool.false_eq_true, if_false]
  omega

theorem countP_broadcastS2sJoin (targets : List Addressable) (name other : Cname) :
    (broadcastS2sJoin targets other).countP (fun d => decide (d.msg = .s2s (.join name))) =
      if other = name then targets.length else 0 := by
  split
  · rename_i heq
    rw [heq, List.countP_eq_length.mpr]
    · simp [broadcastS2sJoin, sendMessage]
    · intro d hd
      simp [(mem_sendMessage.mp hd).2]
  · rename_i hne
    apply List.countP_eq_zero.mpr
    intro d hd
    simp [(mem_sendMessage.mp hd).2, hne]

/-- What a server sends on receiving a join. -/
theorem State.Effect.sent_s2sJoin {src : Addressable} {other : Cname}
    (heff : st.Effect env (.recv src (.s2s (.join other))) st' sent) :
    sent = if (st.chan other).isSome then [] else broadcastS2sJoin st.sset.serverList other := by
  cases heff
  rfl

theorem le_of_chan_mono {k : ℕ} (h : k ≤ if (g.chan m name).isSome then 1 else 0)
    (hmono : (g.chan m name).isSome → (g'.chan m name).isSome) :
    k ≤ if (g'.chan m name).isSome then 1 else 0 := by
  by_cases hm : (g.chan m name).isSome
  · simpa [hm, hmono hm] using h
  · simp only [hm] at h
    exact h.trans (Nat.zero_le _)

theorem JoinFlood.pass (h : JoinFlood T name past g) (hst : g.server n = some st)
    (hr : st.Reacts r) (hkind : ∀ src msg, r.input ≠ .recv src (.s2s msg))
    (htraffic : r.input.isJoinTraffic) :
    JoinFlood T name (past ++ [.pass n r]) (g.update n r) := by
  have hserver := h.inv.servers n st hst
  obtain ⟨st', hafter⟩ := hserver.joinTraffic_completes hr htraffic
    fun src msg heq => absurd heq (hkind src msg)
  have hgrows := hserver.grows (hserver.effect_of_step ⟨hr, hafter⟩) htraffic name
  have hmono : ∀ m, (g.chan m name).isSome → ((g.update n r).chan m name).isSome :=
    fun m => Net.chan_update_mono hst hafter hgrows
  refine ⟨h.inv.update hst hr, up_update h.up hafter, ?_, ?_, fun m => ?_, ?_⟩
  · exact announced_update h.inv hst hafter hgrows fun a b hb hhas =>
      (h.announced a b hb hhas).imp_right Or.inl
  · rintro ⟨e, he, hstart⟩
    rcases List.mem_append.mp he with he | he
    · exact (h.started ⟨e, he, hstart⟩).update hst hafter hgrows
    · rw [List.mem_singleton.mp he] at hstart
      obtain ⟨cur, hinput, hclient⟩ := Event.startsJoin_pass hstart
      rw [hr.1] at hclient
      rcases hgrows.starts cur hinput hclient with hhas | ⟨d, hd, hmsg⟩
      · exact Or.inl ⟨n, by rwa [Net.chan_update_self hafter]⟩
      · have hp : (⟨n, d.dst, .join name⟩ : Packet) ∈ packets n r.sent :=
          mem_packets.mpr ⟨rfl, by rw [← hmsg]; exact hd⟩
        exact Or.inr ⟨_, List.mem_append_right _ hp, rfl⟩
  · rw [List.countP_append, List.countP_singleton]
    simp only [Event.forwardsJoin, Bool.false_eq_true, if_false, add_zero]
    exact le_of_chan_mono (h.forwards m) (hmono m)
  · simpa [Event.forwardedJoins] using h.joins.trans (Net.forwardBudget_mono hmono)

/-- A join that arrives is handled, and forwarded if the channel is new to the server. -/
theorem JoinFlood.arrives {p : Packet} (h : JoinFlood T name past g) (hp : p ∈ g.flight)
    (hst : g.server p.dst = some st) (hr : st.Reacts r)
    (hinput : r.input = .recv p.src (.s2s p.msg)) (htraffic : r.input.isJoinTraffic) :
    ∃ other st', p.msg = .join other ∧ r.after = some st' ∧ st.Grows name r.input st' r.sent ∧
      (r.sent = if (st.chan other).isSome then [] else broadcastS2sJoin (T.adj p.dst) other) ∧
        (other = name → (st'.chan name).isSome) := by
  have hserver := h.inv.servers p.dst st hst
  obtain ⟨other, hother⟩ : ∃ other, p.msg = .join other := by
    rw [hinput] at htraffic
    cases hmsg : p.msg with
    | join other => exact ⟨other, rfl⟩
    | _ => simp [hmsg, Input.isJoinTraffic] at htraffic
  obtain ⟨st', hafter⟩ := hserver.joinTraffic_completes hr htraffic fun src msg heq => by
    rw [hinput] at heq
    cases heq
    exact h.inv.packets p hp
  have heff := hserver.effect_of_step ⟨hr, hafter⟩
  have hgrows := hserver.grows heff htraffic name
  rw [hinput, hother] at heff
  refine ⟨other, st', hother, hafter, hgrows, ?_, ?_⟩
  · rw [heff.sent_s2sJoin, hserver.servers]
  · rintro rfl
    have hroute := hgrows.learns p.src (by rw [hinput, hother])
    rw [← Net.routes_update_self (g := g) (n := p.dst) hafter] at hroute
    rw [← Net.chan_update_self (g := g) (n := p.dst) hafter]
    exact Net.has_of_mem_routes hroute

section Arrival

variable {p : Packet} {other : Cname}

/-- A server that forwards a join has not forwarded one before. -/
theorem JoinFlood.forwards_delivery (h : JoinFlood T name past g)
    (hst : g.server p.dst = some st) (hother : p.msg = .join other)
    (hsent : r.sent = if (st.chan other).isSome then []
      else broadcastS2sJoin (T.adj p.dst) other)
    (hlearnt : other = name → (g'.chan p.dst name).isSome)
    (hmono : ∀ m, (g.chan m name).isSome → (g'.chan m name).isSome) (m : Addressable) :
    (past ++ [Event.delivery p r]).countP (Event.forwardsJoin name m) ≤
      if (g'.chan m name).isSome then 1 else 0 := by
  have hpast := h.forwards m
  rw [List.countP_append, List.countP_singleton]
  by_cases hforward : Event.forwardsJoin name m (.delivery p r)
  · obtain ⟨rfl, hname, hne⟩ : p.dst = m ∧ p.msg = .join name ∧ r.sent ≠ [] := by
      simpa [Event.forwardsJoin] using hforward
    rw [hother] at hname
    cases hname
    have hnone : st.chan name = none := by
      by_contra hsome
      exact hne (by rw [hsent, if_pos (Option.isSome_iff_ne_none.mpr hsome)])
    rw [Net.chan_of_server hst, hnone] at hpast
    rw [if_pos (hlearnt rfl)]
    simp only [Option.isSome_none, Bool.false_eq_true, if_false] at hpast
    simp [hforward, hpast]
  · rw [if_neg hforward, add_zero]
    exact le_of_chan_mono hpast (hmono m)

/-- The joins that a server forwards are paid for by its getting the channel. -/
theorem JoinFlood.joins_delivery (h : JoinFlood T name past g)
    (hst : g.server p.dst = some st)
    (hsent : r.sent = if (st.chan other).isSome then []
      else broadcastS2sJoin (T.adj p.dst) other)
    (hlearnt : other = name → (g'.chan p.dst name).isSome)
    (hmono : ∀ m, (g.chan m name).isSome → (g'.chan m name).isSome) :
    ((past ++ [Event.delivery p r]).map (Event.forwardedJoins name)).sum ≤
      g'.forwardBudget T name := by
  have hbudget := h.joins.trans (Net.forwardBudget_mono (T := T) hmono)
  rw [List.map_append, List.sum_append]
  simp only [List.map_cons, List.map_nil, List.sum_cons, List.sum_nil, add_zero,
    Event.forwardedJoins, hsent]
  split
  · simpa using hbudget
  · rename_i hhas
    have hnone : st.chan other = none := by simpa using hhas
    rw [countP_broadcastS2sJoin]
    split
    · rename_i heq
      subst heq
      have hgrow := Net.forwardBudget_grow hmono (h.inv.nodes p.dst st hst)
        (by rw [Net.chan_of_server hst, hnone]) (hlearnt rfl)
      exact (Nat.add_le_add_right h.joins _).trans hgrow
    · exact hbudget

end Arrival

theorem JoinFlood.delivery {p : Packet} (h : JoinFlood T name past g) (hp : p ∈ g.flight)
    (hst : g.server p.dst = some st) (hr : st.Reacts r)
    (hinput : r.input = .recv p.src (.s2s p.msg)) (htraffic : r.input.isJoinTraffic) :
    JoinFlood T name (past ++ [.delivery p r]) ((g.take p).update p.dst r) := by
  have hst₀ : (g.take p).server p.dst = some st := hst
  obtain ⟨other, st', hother, hafter, hgrows, hsent, hlearnt⟩ :=
    h.arrives hp hst hr hinput htraffic
  have hmono : ∀ m, (g.chan m name).isSome →
      (((g.take p).update p.dst r).chan m name).isSome :=
    fun m => Net.chan_update_mono hst₀ hafter hgrows
  rw [← Net.chan_update_self (g := g.take p) (n := p.dst) hafter] at hlearnt
  refine ⟨(h.inv.take p).update hst₀ hr, up_update (g := g.take p) h.up hafter, ?_, ?_,
    h.forwards_delivery hst hother hsent hlearnt hmono, h.joins_delivery hst hsent hlearnt hmono⟩
  · refine announced_update (h.inv.take p) hst₀ hafter hgrows fun a b hb hhas => ?_
    rcases h.announced a b hb hhas with hflight | hroute
    · by_cases heq : (⟨a, b, .join name⟩ : Packet) = p
      · rw [← heq] at hinput ⊢
        exact Or.inr (Or.inr ⟨rfl, hinput⟩)
      · exact Or.inl ((List.mem_erase_of_ne heq).mpr hflight)
    · exact Or.inr (Or.inl hroute)
  · rintro ⟨e, he, hstart⟩
    rcases List.mem_append.mp he with he | he
    · rcases h.started ⟨e, he, hstart⟩ with ⟨m, hm⟩ | ⟨q, hq, hmsg⟩
      · exact Or.inl ⟨m, hmono m hm⟩
      · by_cases heq : q = p
        · rw [heq, hother] at hmsg
          cases hmsg
          exact Or.inl ⟨p.dst, hlearnt rfl⟩
        · exact Or.inr ⟨q, List.mem_append_left _ ((List.mem_erase_of_ne heq).mpr hq), hmsg⟩
    · rw [List.mem_singleton.mp he] at hstart
      cases hstart

theorem JoinFlood.step (h : JoinFlood T name past g) (htraffic : e.isJoinTraffic)
    (hstep : Net.Step g e g') : JoinFlood T name (past ++ [e]) g' := by
  cases hstep with
  | pass hst hr hkind => exact h.pass hst hr hkind htraffic
  | delivery hp hst hr hinput => exact h.delivery hp hst hr hinput htraffic
  | lost hp hst => cases htraffic

/-- In a quiet network, a server that knows the channel is routed to by its neighbours. -/
theorem JoinFlood.routed (h : JoinFlood T name past g) (hquiet : g.flight = [])
    (hm : m ∈ T.adj n) (hn : (g.chan n name).isSome) : n ∈ g.routes m name := by
  rcases h.announced n m hm hn with hflight | hroute
  · rw [hquiet] at hflight
    cases hflight
  · exact hroute

/-- In a quiet network that knows the channel, every server has it. -/
theorem JoinFlood.everywhere (h : JoinFlood T name past g) (hconn : T.Connected)
    (hquiet : g.flight = []) (hknows : g.Knows name) :
    ∀ m ∈ T.nodes, (g.chan m name).isSome := by
  obtain ⟨n, hn⟩ : ∃ n, (g.chan n name).isSome := by
    rcases hknows with hhas | ⟨p, hp, -⟩
    · exact hhas
    · rw [hquiet] at hp
      cases hp
  intro m hm
  obtain ⟨c, hc⟩ := Option.isSome_iff_exists.mp hn
  obtain ⟨st, hst, -⟩ := Option.bind_eq_some_iff.mp hc
  have hpath := hconn n (h.inv.nodes n st hst) m hm
  clear hm
  induction hpath with
  | refl => exact hn
  | tail _ hedge ih => exact Net.has_of_mem_routes (h.routed hquiet hedge ih)

/-- Whatever the order of delivery, once every join has arrived each server routes the
channel to exactly its neighbours; and in the whole run each server forwards at most one
join of the channel, so that the number of forwarded joins is bounded. -/
theorem joinFlood_converges {es : List Event} (hconn : T.Connected)
    (hrun : Run Net.Step T.initial es g) (htraffic : ∀ e ∈ es, e.isJoinTraffic)
    (name : Cname) :
    (g.flight = [] → (∃ e ∈ es, e.startsJoin name) → ∀ n ∈ T.nodes, ∃ st c,
      g.server n = some st ∧ st.chan name = some c ∧ c.serverList.Nodup ∧
        c.serverList.Perm (T.adj n)) ∧
    (∀ n, es.countP (Event.forwardsJoin name n) ≤ 1) ∧
    (es.map (Event.forwardedJoins name)).sum ≤ ∑ n ∈ T.nodes, (T.adj n).length := by
  have h : JoinFlood T name es g := hrun.history (P := fun e => e.isJoinTraffic)
    (fun _ _ _ _ hs he hstep => hs.step he hstep) htraffic [] (joinFlood_initial T name)
  refine ⟨fun hquiet hstart n hn => ?_, fun n => ?_, ?_⟩
  · have hall := h.everywhere hconn hquiet (h.started hstart)
    obtain ⟨st, hst⟩ := h.up n hn
    obtain ⟨c, hc⟩ := Option.isSome_iff_exists.mp (hall n hn)
    rw [Net.chan_of_server hst] at hc
    have hrouted := (h.inv.servers n st hst).routed name c hc
    refine ⟨st, c, hst, hc, hrouted.coherent.nodup, ?_⟩
    apply (List.perm_ext_iff_of_nodup hrouted.coherent.nodup (T.adj_nodup n)).mpr
    intro m
    refine ⟨hrouted.adjacent m, fun hm => ?_⟩
    have hback : n ∈ T.adj m := T.adj_symm n m hm
    have hroute := h.routed hquiet hback (hall m (T.adj_nodes n m hm).2)
    rwa [Net.routes_of_server hst, State.routes, hc] at hroute
  · have hforwards := h.forwards n
    split at hforwards <;> omega
  · apply h.joins.trans
    apply Finset.sum_le_sum
    intro n _
    split <;> omega

/-- A client joins at the first of two servers. -/
def spreading : List Choice :=
  [.pass (node 1) ⟨0, 0⟩ (.recv (desk 1) (.client (.login alice))),
    .pass (node 1) ⟨0, 0⟩ (.recv (desk 1) (.client (.join chat))),
    .deliver (node 1) (node 2) ⟨0, 0⟩,
    .deliver (node 2) (node 1) ⟨0, 0⟩]

theorem joinFlood_converges_spreading :
    ∃ es g, twoServers.initial.replay spreading = some (es, g) ∧
      (∀ n ∈ twoServers.nodes, ∃ st c, g.server n = some st ∧ st.chan chat = some c ∧
        c.serverList.Nodup ∧ c.serverList.Perm (twoServers.adj n)) ∧
      (∀ n, es.countP (Event.forwardsJoin chat n) ≤ 1) := by
  have hfacts : (twoServers.initial.replay spreading).map (fun p =>
      (p.1.all Event.isJoinTraffic, p.1.any (Event.startsJoin chat), p.2.flight)) =
        some (true, true, []) := by decide
  obtain ⟨⟨es, g⟩, hreplay, hall⟩ := Option.map_eq_some_iff.mp hfacts
  simp only [Prod.mk.injEq, List.all_eq_true, List.any_eq_true] at hall
  obtain ⟨htraffic, hstart, hquiet⟩ := hall
  have hrun := Net.run_of_replay hreplay
  obtain ⟨hrouted, hforwards, -⟩ := joinFlood_converges
    (Topology.connected_complete _) hrun htraffic chat
  exact ⟨es, g, hreplay, hrouted hquiet hstart, hforwards⟩

end CliMessaging.Distributed
