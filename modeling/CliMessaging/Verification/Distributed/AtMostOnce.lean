import CliMessaging.Verification.Distributed.SayFlood

/-! # Says that are handled at most once

Nothing ever enters a server's uid set, so the duplicate check never fires. A say is
handled at most once by every server exactly when the routes of its channel lead to no
server in two ways. -/

namespace CliMessaging.Distributed

open State Transition Flood

/-- Each server handles the message at most once, the one that accepted it included, each
of its clients is sent the message at most once, and the copies between servers are
bounded by the topology. -/
structure AtMostOnce (T : Topology) (m : Said) (o : Addressable) (r : Reaction)
    (es : List Event) : Prop where
  forwards : ∀ s, es.countP (Event.runsForward m s) ≤ 1
  origin : es.countP (Event.runsForward m o) = 0
  clients : ∀ s a, ((Event.pass o r :: es).map (Event.textsTo m s a)).sum ≤ 1
  copies : ((Event.pass o r :: es).map (Event.copies m)).sum ≤ ∑ s ∈ T.nodes, (T.adj s).length

variable {T : Topology} {g₀ g g' : Net} {e : Event} {past : List Event} {st st' : State}
  {o n s t : Addressable} {r r₀ : Reaction} {p : Packet} {m : Said}
  {W F : List (List Addressable)} {w : List Addressable} {c : Channel}

/-! ## Unambiguous routes -/

/-- A server without the channel has run the forwarding part once when it is down. -/
def crashed (g₀ g : Net) (name : Cname) (s : Addressable) : ℕ :=
  if (g₀.chan s name).isSome ∨ (g.server s).isSome then 0 else 1

theorem crashed_congr {name : Cname} (h : (g'.server s).isSome = (g.server s).isSome) :
    crashed g₀ g' name s = crashed g₀ g name s := by
  simp only [crashed, h]

/-- The counts of a flood so far are bounded by the walks that have been passed on. -/
structure Counted (T : Topology) (m : Said) (g₀ : Net) (o : Addressable) (r₀ : Reaction)
    (past : List Event) (g : Net) (W F : List (List Addressable)) : Prop where
  flooded : Flooded T m g₀ o g W F
  forwards : ∀ s, past.countP (Event.runsForward m s) + (if s = o then 1 else 0) ≤
    visits W s + crashed g₀ g m.channel s
  clients : ∀ s a, ((Event.pass o r₀ :: past).map (Event.textsTo m s a)).sum ≤ visits W s
  copies : ((Event.pass o r₀ :: past).map (Event.copies m)).sum ≤
    ∑ s ∈ T.nodes, visits W s * (T.adj s).length

/-- An event that sends nothing and runs nothing changes no count. -/
theorem Counted.silent (h : Counted T m g₀ o r₀ past g W F) {F' : List (List Addressable)}
    (hflooded : Flooded T m g₀ o g' W F') (hsent : e.sent = [])
    (hruns : ∀ s, ¬ e.runsForward m s) (hup : ∀ s, (g'.server s).isSome = (g.server s).isSome) :
    Counted T m g₀ o r₀ (past ++ [e]) g' W F' := by
  refine ⟨hflooded, fun s => ?_, fun s a => ?_, ?_⟩
  · rw [List.countP_append, List.countP_singleton, if_neg (hruns s), crashed_congr (hup s)]
    exact h.forwards s
  · rw [sum_map_cons_snoc, Event.textsTo_of_silent hsent]
    exact h.clients s a
  · rw [sum_map_cons_snoc, Event.copies_of_silent hsent]
    exact h.copies

/-- The message reaches a server that has the channel. -/
theorem Counted.pass (h : Counted T m g₀ o r₀ past g W F) (hw : p.dst :: p.src :: w ∈ F)
    (hst : g.server p.dst = some st) (hr : st.Reacts r) (hmsg : p.msg = m.s2s)
    (hinput : r.input = .recv p.src (.s2s p.msg)) (hc : st.chan m.channel = some c) :
    ∃ W' F', Counted T m g₀ o r₀ (past ++ [.delivery p r]) ((g.take p).update p.dst r)
      W' F' := by
  have hserver := h.flooded.inv.servers p.dst st hst
  obtain ⟨st', hafter, -, hsent, hflooded⟩ := h.flooded.pass hw hst hr hmsg hinput hc
  have hchan : g.chan p.dst m.channel = some c := by rw [Net.chan_of_server hst, hc]
  obtain ⟨-, hcoh, -⟩ := h.flooded.chan p.dst c hchan
  refine ⟨_, _, hflooded, fun s => ?_, fun s a => ?_, ?_⟩
  · have hpast := h.forwards s
    have hone := hserver.runsForward_iff hr hmsg s
    have hup : crashed g₀ ((g.take p).update p.dst r) m.channel s =
        crashed g₀ g m.channel s :=
      crashed_congr (Net.isSome_server_update (g := g.take p) hst hafter s)
    rw [List.countP_append, List.countP_singleton, visits_cons, hup]
    simp only [hone]
    omega
  · have hpast := h.clients s a
    have hone := List.nodup_iff_count_le_one.mp hcoh.nodup_addr a
    have hlist : (c.userList.map User.addr).count a ≤ 1 := hone
    rw [sum_map_cons_snoc, visits_cons, Event.textsTo_forwarded hserver.sound hsent]
    split <;> omega
  · have hpast := h.copies
    have hrouted := hserver.routed m.channel c hc
    have hle : (c.serverList.filter (· ≠ p.src)).length ≤ (T.adj p.dst).length :=
      (List.length_filter_le _ _).trans
        (hrouted.coherent.nodup.length_le_of_subset fun t => hrouted.adjacent t)
    rw [sum_map_cons_snoc, sum_visits_cons (h.flooded.inv.nodes p.dst st hst),
      Event.copies_forwarded hserver.sound hsent]
    omega

/-- The message reaches a server without the channel, which goes down. -/
theorem Counted.crash (h : Counted T m g₀ o r₀ past g W F)
    (hu : Unambiguous (fun s => g₀.routes s m.channel) o
      fun s => (g₀.chan s m.channel).isSome)
    (hw : p.dst :: p.src :: w ∈ F) (hst : g.server p.dst = some st) (hr : st.Reacts r)
    (hmsg : p.msg = m.s2s) (hinput : r.input = .recv p.src (.s2s p.msg))
    (hc : st.chan m.channel = none) :
    ∃ W' F', Counted T m g₀ o r₀ (past ++ [.delivery p r]) ((g.take p).update p.dst r)
      W' F' := by
  have hserver := h.flooded.inv.servers p.dst st hst
  obtain ⟨hafter, hsent, hflooded⟩ := h.flooded.crash hw hst hr hmsg hinput hc
  have hsilent : (Event.delivery p r).sent = [] := hsent
  have hnot : ¬ (g₀.chan p.dst m.channel).isSome := by
    intro hhas
    have hfirst := h.flooded.flood.first_visit hu hhas hw
    have hsome := h.flooded.fresh p.dst (by simp [hst]) hhas hfirst
    simp [Net.chan_of_server hst, hc] at hsome
  refine ⟨_, _, hflooded, fun s => ?_, fun s a => ?_, ?_⟩
  · have hpast := h.forwards s
    have hone := hserver.runsForward_iff hr hmsg s
    rw [List.countP_append, List.countP_singleton]
    simp only [hone]
    by_cases hs : p.dst = s
    · subst hs
      have hbefore : crashed g₀ g m.channel p.dst = 0 := by simp [crashed, hst]
      have hdown : crashed g₀ ((g.take p).update p.dst r) m.channel p.dst = 1 := by
        simp [crashed, hnot, hafter]
      rw [if_pos rfl]
      omega
    · have hup : crashed g₀ ((g.take p).update p.dst r) m.channel s =
          crashed g₀ g m.channel s :=
        crashed_congr (by rw [Net.update_server_of_ne (Ne.symm hs)]; rfl)
      rw [if_neg hs]
      omega
  · rw [sum_map_cons_snoc, Event.textsTo_of_silent hsilent]
    exact h.clients s a
  · rw [sum_map_cons_snoc, Event.copies_of_silent hsilent]
    exact h.copies

theorem Counted.say (h : Counted T m g₀ o r₀ past g W F)
    (hu : Unambiguous (fun s => g₀.routes s m.channel) o
      fun s => (g₀.chan s m.channel).isSome)
    (hw : p.dst :: p.src :: w ∈ F) (hst : g.server p.dst = some st) (hr : st.Reacts r)
    (hmsg : p.msg = m.s2s) (hinput : r.input = .recv p.src (.s2s p.msg)) :
    ∃ W' F', Counted T m g₀ o r₀ (past ++ [.delivery p r]) ((g.take p).update p.dst r)
      W' F' := by
  cases hc : st.chan m.channel with
  | some c => exact h.pass hw hst hr hmsg hinput hc
  | none => exact h.crash hu hw hst hr hmsg hinput hc

theorem Event.not_runsForward_lost (s : Addressable) : ¬ (Event.lost p).runsForward m s := by
  simp [Event.runsForward]

theorem Counted.step (h : Counted T m g₀ o r₀ past g W F)
    (hu : Unambiguous (fun s => g₀.routes s m.channel) o
      fun s => (g₀.chan s m.channel).isSome)
    (he : e.isFlood) (hstep : Net.Step g e g') :
    ∃ W' F', Counted T m g₀ o r₀ (past ++ [e]) g' W' F' := by
  cases hstep with
  | pass hst hr hkind => cases he
  | @lost p hp hst =>
      obtain ⟨F', hflooded⟩ := h.flooded.lose hp
      exact ⟨W, F', h.silent hflooded rfl Event.not_runsForward_lost fun s => rfl⟩
  | @delivery p st r hp hst hr hinput =>
      cases hmsg : p.msg with
      | say uid username channel text =>
          obtain ⟨w, hw, hm⟩ := h.flooded.exists_walk hp (by rw [hmsg]; rfl)
          exact h.say hu hw hst hr hm hinput
      | leave other =>
          obtain ⟨st', hafter, -, hsent, hflooded⟩ := h.flooded.leave hp hst hr hmsg hinput
          refine ⟨W, F, h.silent hflooded hsent (fun s hruns => ?_) fun s => ?_⟩
          · obtain ⟨src, dst, msg⟩ := p
            cases hmsg
            cases hruns
          · exact Net.isSome_server_update (g := g.take p) hst hafter s
      | join other => simp [Event.isFlood, hmsg, S2sMsg.isJoin] at he

theorem Counted.start (hinv : g.Inv T) (hflight : ∀ p ∈ g.flight, p.msg.isSay = false)
    (hcoh : ∀ s c, g.chan s m.channel = some c → c.uset.Coherent)
    (hst : g.server o = some st) (hr : st.Reacts r) (hsay : st.Accepts r m) :
    ∃ F, Counted T m g o r [] (g.update o r) [[o]] F := by
  obtain ⟨c, st', hc, -, -, hsent⟩ := (hinv.servers o st hst).accepts_spec hr hsay
  have hrouted := (hinv.servers o st hst).routed m.channel c hc
  have hcohc := hcoh o c (by rw [Net.chan_of_server hst, hc])
  refine ⟨_, .start hinv hflight hcoh hst hr hsay, fun s => ?_, fun s a => ?_, ?_⟩
  · simp only [visits_cons, List.countP_nil, eq_comm (a := s)]
    omega
  · have hone := List.nodup_iff_count_le_one.mp hcohc.nodup_addr a
    have hlist : (c.userList.map User.addr).count a ≤ 1 := hone
    simp only [List.map_cons, List.map_nil, List.sum_cons, List.sum_nil, visits_cons,
      Event.textsTo_accepted hsent]
    split <;> omega
  · have hle := hrouted.coherent.nodup.length_le_of_subset fun t => hrouted.adjacent t
    have hlist : c.serverList.length ≤ (T.adj o).length := hle
    rw [sum_visits_cons (hinv.nodes o st hst)]
    simp only [List.map_cons, List.map_nil, List.sum_cons, List.sum_nil,
      Event.copies_accepted hsent]
    omega

/-- Where the routes of the channel are unambiguous, the message is handled at most once. -/
theorem Counted.atMostOnce (h : Counted T m g₀ o r₀ past g W F)
    (hu : Unambiguous (fun s => g₀.routes s m.channel) o
      fun s => (g₀.chan s m.channel).isSome) : AtMostOnce T m o r₀ past := by
  have hvisits : ∀ s, visits W s ≤ 1 ∧
      (¬ (g₀.chan s m.channel).isSome → visits W s = 0) := by
    intro s
    refine ⟨?_, fun hnot => ?_⟩
    · by_cases hs : (g₀.chan s m.channel).isSome
      · have hle := h.flooded.flood.visits_le_one hu hs
        rw [visits_append] at hle
        omega
      · by_contra hlt
        obtain ⟨w, hw⟩ := exists_of_visits_pos (W := W) (s := s) (by omega)
        exact hs (h.flooded.heads s w hw)
    · by_contra hne
      obtain ⟨w, hw⟩ := exists_of_visits_pos (W := W) (s := s) (by omega)
      exact hnot (h.flooded.heads s w hw)
  have hbound : ∀ s, past.countP (Event.runsForward m s) + (if s = o then 1 else 0) ≤ 1 := by
    intro s
    have hforwards := h.forwards s
    obtain ⟨hle, hzero⟩ := hvisits s
    by_cases hs : (g₀.chan s m.channel).isSome
    · have hup : crashed g₀ g m.channel s = 0 := by simp [crashed, hs]
      omega
    · have hdown : crashed g₀ g m.channel s ≤ 1 := by
        unfold crashed
        split <;> omega
      have hnone := hzero hs
      omega
  refine ⟨fun s => ?_, ?_, fun s a => (h.clients s a).trans (hvisits s).1, ?_⟩
  · exact (Nat.le_add_right _ _).trans (hbound s)
  · have horigin := hbound o
    rw [if_pos rfl] at horigin
    omega
  · apply h.copies.trans
    apply Finset.sum_le_sum
    intro s _
    simpa using Nat.mul_le_mul_right (T.adj s).length (hvisits s).1

/-! ## Ambiguous routes -/

/-- The network after each copy of a schedule has been delivered. -/
structure Scheduled (T : Topology) (m : Said) (g₀ : Net) (o : Addressable) (past : List Event)
    (g : Net) (M : List (List Addressable)) : Prop where
  inv : g.Inv T
  pending : ∀ w ∈ M, ∀ t ∈ hops (fun s => g₀.routes s m.channel) w, t :: w ∉ M →
    m.packet (t :: w) ∈ g.flight
  fresh : ∀ s, (∀ w, s :: w ∉ M) → g.server s = g₀.server s
  visited : ∀ s w, s :: w ∈ M → (g.server s).isSome ∧
    1 ≤ past.countP (Event.runsForward m s) + if s = o then 1 else 0

/-- The delivery of a copy to a server that is up. -/
theorem Scheduled.deliver {M : List (List Addressable)} (h : Scheduled T m g₀ o past g M)
    (hp : p ∈ g.flight) (hmsg : p.msg = m.s2s) (hup : (g.server p.dst).isSome) :
    ∃ st r, g.server p.dst = some st ∧ st.Reacts r ∧ r.input = .recv p.src (.s2s p.msg) ∧
      Net.Step g (.delivery p r) ((g.take p).update p.dst r) ∧
      (Event.delivery p r).runsForward m p.dst := by
  obtain ⟨st, hst⟩ := Option.isSome_iff_exists.mp hup
  have hr := st.reacts_reaction ⟨0, 0⟩ (.recv p.src (.s2s p.msg))
  refine ⟨st, _, hst, hr, rfl, .delivery hp hst hr rfl, ?_⟩
  exact ((h.inv.servers p.dst st hst).runsForward_iff hr hmsg p.dst).mpr rfl

theorem mem_packets_forwarded {c : Channel} (hs : s ∈ c.serverList) (hne : s ≠ t) (n : Addressable)
    (m : Said) (st : State) : ⟨n, s, m.s2s⟩ ∈ packets n (m.forwarded t st c) := by
  apply mem_packets.mpr
  refine ⟨rfl, List.mem_append_left _ (List.mem_append_left _ ?_)⟩
  exact mem_sendMessage.mpr ⟨List.mem_filter.mpr ⟨hs, by simpa using hne⟩, rfl⟩

theorem Scheduled.visit {M : List (List Addressable)}
    (hM : Schedule (fun s => g₀.routes s m.channel) o
      (fun s => (g₀.chan s m.channel).isSome) M)
    (h : Scheduled T m g₀ o past g M) (hw : w ∈ M)
    (ht : t ∈ hops (fun s => g₀.routes s m.channel) w) (hhas : (g₀.chan t m.channel).isSome)
    (hfresh : ∀ w', t :: w' ∉ M) :
    ∃ e g', Net.Step g e g' ∧ e.isFlood ∧ Scheduled T m g₀ o (past ++ [e]) g' ((t :: w) :: M) := by
  obtain ⟨s, u, rfl, -⟩ := exists_of_mem_hops ht
  have hp := h.pending _ hw t ht (hfresh _)
  rw [Said.packet_cons_cons] at hp
  have hup : (g.server t).isSome := by
    rw [h.fresh t hfresh]
    exact Net.isSome_chan_of_server hhas
  obtain ⟨st, r, hst, hr, hinput, hstep, hforward⟩ := h.deliver hp rfl hup
  obtain ⟨c, hc⟩ := Option.isSome_iff_exists.mp hhas
  have hc' : st.chan m.channel = some c := by
    rw [← Net.chan_of_server (h.fresh t hfresh ▸ hst), hc]
  obtain ⟨st', hafter, -, hsent⟩ := (h.inv.servers t st hst).passes hr hinput hc'
  have hst₀ : (g.take ⟨s, t, m.s2s⟩).server t = some st := hst
  have hother : ∀ v w', v :: w' ∈ M → v ≠ t := by
    rintro v w' hv rfl
    exact hfresh w' hv
  refine ⟨_, _, hstep, by rfl, (h.inv.take _).update hst₀ hr, ?_, fun v hv => ?_, ?_⟩
  · intro v hv t' ht' hnot
    simp only [Net.update, List.mem_append]
    rcases List.mem_cons.mp hv with rfl | hold
    · -- the copies that the server has just sent
      obtain ⟨hroute, hne⟩ := List.mem_filter.mp ht'
      simp only [Net.routes, hc, Option.elim_some] at hroute
      rw [hsent]
      exact Or.inr (mem_packets_forwarded hroute (by simpa using hne) t m st)
    · -- the other copies come from other servers or go to other servers
      have hpending := h.pending v hold t' ht' fun hin => hnot (List.mem_cons_of_mem _ hin)
      obtain ⟨s', u', rfl, -⟩ := exists_of_mem_hops ht'
      refine Or.inl ((List.mem_erase_of_ne ?_).mpr hpending)
      rw [Said.packet_cons_cons]
      intro heq
      obtain ⟨rfl, rfl⟩ : s' = s ∧ t' = t := by simpa using heq
      rw [hM.eq_of_head hold hw] at hnot
      exact hnot List.mem_cons_self
  · have hv' : v ≠ t := by
      rintro rfl
      exact hv (s :: u) List.mem_cons_self
    rw [Net.update_server_of_ne hv']
    exact h.fresh v fun w' hin => hv w' (List.mem_cons_of_mem _ hin)
  · intro v w' hv
    rw [List.countP_append, List.countP_singleton]
    rcases List.mem_cons.mp hv with heq | hv
    · cases heq
      rw [Net.update_server_self, hafter, if_pos hforward]
      exact ⟨rfl, by omega⟩
    · obtain ⟨hup', hcount⟩ := h.visited v w' hv
      rw [Net.update_server_of_ne (hother v w' hv)]
      exact ⟨hup', by omega⟩

theorem Scheduled.start (hinv : g.Inv T) (hst : g.server o = some st) (hr : st.Reacts r)
    (hsay : st.Accepts r m) : Scheduled T m g o [] (g.update o r) [[o]] := by
  obtain ⟨c, st', hc, hafter, -, hsent⟩ := (hinv.servers o st hst).accepts_spec hr hsay
  refine ⟨hinv.update hst hr, fun w hw t ht _ => ?_, fun s hs => ?_, fun s w hw => ?_⟩
  · cases List.mem_singleton.mp hw
    have hroute : t ∈ c.serverList := by
      simpa [hops, Net.routes, Net.chan_of_server hst, hc] using ht
    apply List.mem_append_right
    rw [Said.packet_cons_cons, hsent, Said.accepted, packets_append]
    apply List.mem_append_right
    exact mem_packets.mpr ⟨rfl, mem_sendMessage.mpr ⟨hroute, rfl⟩⟩
  · apply Net.update_server_of_ne
    rintro rfl
    exact hs [] (List.mem_singleton.mpr rfl)
  · cases List.mem_singleton.mp hw
    rw [Net.update_server_self, hafter]
    exact ⟨rfl, by simp⟩

theorem Schedule.exists_run {M : List (List Addressable)}
    (hM : Schedule (fun s => g.routes s m.channel) o (fun s => (g.chan s m.channel).isSome) M)
    (hstart : Scheduled T m g o [] (g.update o r) [[o]]) :
    ∃ es g', Run Net.Step (g.update o r) es g' ∧ (∀ e ∈ es, e.isFlood) ∧
      Scheduled T m g o es g' M := by
  induction hM with
  | start => exact ⟨[], _, .nil _, by simp, hstart⟩
  | visit hM hw ht hhas hfresh ih =>
      obtain ⟨es, g₁, hrun, hflood, h⟩ := ih
      obtain ⟨e, g₂, hstep, he, h'⟩ := h.visit hM hw ht hhas hfresh
      refine ⟨es ++ [e], g₂, hrun.snoc hstep, ?_, h'⟩
      exact List.forall_mem_append.mpr ⟨hflood, List.forall_mem_singleton.mpr he⟩

/-- A copy that arrives at a server for the second time runs the forwarding part again. -/
theorem Scheduled.collide {M : List (List Addressable)} (h : Scheduled T m g₀ o past g M)
    (hcol : Collides (fun s => g₀.routes s m.channel)
      (fun s => (g₀.chan s m.channel).isSome) M) :
    ∃ e g', Net.Step g e g' ∧ e.isFlood ∧ ¬ AtMostOnce T m o r (past ++ [e]) := by
  obtain ⟨t, w, w', hw, ht, hnot, -, hw'⟩ := hcol
  obtain ⟨s, u, rfl, -⟩ := exists_of_mem_hops ht
  have hp := h.pending _ hw t ht hnot
  rw [Said.packet_cons_cons] at hp
  obtain ⟨hup, hcount⟩ := h.visited t w' hw'
  obtain ⟨st, r', -, -, -, hstep, hforward⟩ := h.deliver hp rfl hup
  refine ⟨_, _, hstep, by rfl, fun hmost => ?_⟩
  have hforwards := hmost.forwards t
  have horigin := hmost.origin
  rw [List.countP_append, List.countP_singleton] at hforwards horigin
  rw [if_pos hforward] at hforwards
  by_cases hto : t = o
  · subst hto
    rw [if_pos hforward] at horigin
    omega
  · rw [if_neg hto] at hcount
    omega

/-! ## Every topology -/

/-- After any join traffic, a say is handled at most once by every server, whatever the
order of delivery, exactly when the routes of its channel lead from the server that
accepted it to no server in two ways. -/
theorem atMostOnce_iff_unambiguous (hg : T.Reaches (fun e => e.isJoinTraffic) g)
    (hst : g.server o = some st) (hr : st.Reacts r) (hsay : st.Accepts r m) :
    (∀ es g', Run Net.Step (g.update o r) es g' → (∀ e ∈ es, e.isFlood) →
      AtMostOnce T m o r es) ↔
    Unambiguous (fun s => g.routes s m.channel) o fun s => (g.chan s m.channel).isSome := by
  have h := hg.onlyJoins m.channel
  constructor
  · intro hall
    by_contra hnot
    obtain ⟨M, hM, hcol⟩ := exists_collision (fun s t => Net.has_of_mem_routes) hnot
    obtain ⟨es, g₁, hrun, hflood, hsched⟩ :=
      Schedule.exists_run hM (.start h.inv hst hr hsay)
    obtain ⟨e, g₂, hstep, he, hmost⟩ := hsched.collide (r := r) hcol
    refine hmost (hall (es ++ [e]) g₂ (hrun.snoc hstep) ?_)
    exact List.forall_mem_append.mpr ⟨hflood, List.forall_mem_singleton.mpr he⟩
  · intro hu es g' hrun hflood
    have hflight : ∀ p ∈ g.flight, p.msg.isSay = false := by
      intro p hp
      have hjoin := h.flight p hp
      cases hmsg : p.msg <;> simp_all [S2sMsg.isJoin, S2sMsg.isSay]
    obtain ⟨F, hstart⟩ := Counted.start h.inv hflight h.coherent hst hr hsay
    obtain ⟨W', F', hend⟩ : ∃ W' F', Counted T m g o r ([] ++ es) g' W' F' :=
      hrun.history (I := fun past g' => ∃ W F, Counted T m g o r past g' W F)
        (P := fun e => e.isFlood)
        (fun _ _ _ _ h he hstep => by
          obtain ⟨W, F, h⟩ := h
          exact h.step hu he hstep)
        hflood [] ⟨_, F, hstart⟩
    exact hend.atMostOnce hu

/-- From the first of two servers that have the channel, the message goes to the second
and no further. -/
theorem atMostOnce_spreading :
    ∃ es g st, twoServers.initial.replay spreading = some (es, g) ∧
      g.server (node 1) = some st ∧
      ∀ es' g', Run Net.Step (g.update (node 1) (st.reaction ⟨0, 7⟩ (greeting.request (desk 1))))
        es' g' → (∀ e ∈ es', e.isFlood) →
        AtMostOnce twoServers greeting (node 1)
          (st.reaction ⟨0, 7⟩ (greeting.request (desk 1))) es' := by
  have hfacts : (twoServers.initial.replay spreading).map (fun p =>
      (p.1.all Event.isJoinTraffic, (p.2.server (node 1)).map fun st =>
        ((st.uset.getUserByIp (desk 1)).map User.name, (st.chan chat).isSome),
        p.2.routes (node 1) chat, p.2.routes (node 2) chat)) =
          some (true, some (some alice, true), [node 2], [node 1]) := by decide
  obtain ⟨⟨es, g⟩, hreplay, heq⟩ := Option.map_eq_some_iff.mp hfacts
  simp only [Prod.mk.injEq, List.all_eq_true] at heq
  obtain ⟨htraffic, hserver, hone, htwo⟩ := heq
  obtain ⟨st, hst, hclient⟩ := Option.map_eq_some_iff.mp hserver
  simp only [Prod.mk.injEq] at hclient
  have hrun := Net.run_of_replay hreplay
  have hwalks : ∀ w, Walk (fun s => g.routes s chat) (node 1) w →
      w = [node 1] ∨ w = [node 2, node 1] := by
    intro w hw
    induction hw with
    | origin => exact Or.inl rfl
    | hop hw ht ih =>
        rcases ih with rfl | rfl
        · simp only [hops, hone, List.mem_singleton] at ht
          exact Or.inr (by rw [ht])
        · simp [hops, htwo] at ht
  refine ⟨es, g, st, hreplay, hst, ?_⟩
  refine (atMostOnce_iff_unambiguous ⟨es, hrun, htraffic⟩ hst (st.reacts_reaction _ _)
    (State.accepts_reaction hclient.1 hclient.2 0)).mpr fun t w w' hw hw' _ => ?_
  rcases hwalks _ hw with heq | heq <;> rcases hwalks _ hw' with heq' | heq' <;>
    cases heq <;> cases heq' <;> rfl

def triangle : Topology := .complete [node 1, node 2, node 3] (by decide)

/-- A client joins at one of three servers that are adjacent to one another. -/
def spreadingRound : List Choice :=
  [.pass (node 1) ⟨0, 0⟩ (.recv (desk 1) (.client (.login alice))),
    .pass (node 1) ⟨0, 0⟩ (.recv (desk 1) (.client (.join chat))),
    .deliver (node 1) (node 2) ⟨0, 0⟩,
    .deliver (node 1) (node 3) ⟨0, 0⟩,
    .deliver (node 2) (node 1) ⟨0, 0⟩,
    .deliver (node 2) (node 3) ⟨0, 0⟩,
    .deliver (node 3) (node 1) ⟨0, 0⟩,
    .deliver (node 3) (node 2) ⟨0, 0⟩]

/-- The message goes round and comes back to the server that accepted it. -/
def goingRound : List Choice :=
  [.deliver (node 1) (node 2) ⟨0, 0⟩,
    .deliver (node 2) (node 3) ⟨0, 0⟩,
    .deliver (node 3) (node 1) ⟨0, 0⟩]

theorem goingRound_not_atMostOnce :
    ¬ ∀ (T : Topology) (g : Net) (o : Addressable) (st : State) (r : Reaction) (m : Said),
      T.Reaches (fun e => e.isJoinTraffic) g → g.server o = some st → st.Reacts r →
      st.Accepts r m → ∀ es g', Run Net.Step (g.update o r) es g' →
        (∀ e ∈ es, e.isFlood) → AtMostOnce T m o r es := by
  intro hall
  have hfacts : (triangle.initial.replay spreadingRound).any fun p =>
      p.1.all Event.isJoinTraffic && (p.2.server (node 1)).any fun st =>
        decide ((st.uset.getUserByIp (desk 1)).map User.name = some alice) &&
          (st.chan chat).isSome &&
          ((p.2.update (node 1) (st.reaction ⟨0, 7⟩ (greeting.request (desk 1)))).replay
            goingRound).any fun q => q.1.all Event.isFlood &&
              decide (q.1.countP (Event.runsForward greeting (node 1)) = 1) := by decide
  obtain ⟨⟨es, g⟩, hreplay, heq⟩ := (Option.any_eq_true _ _).mp hfacts
  simp only [Bool.and_eq_true, List.all_eq_true] at heq
  obtain ⟨htraffic, hserver⟩ := heq
  obtain ⟨st, hst, hclient⟩ := (Option.any_eq_true _ _).mp hserver
  simp only [Bool.and_eq_true, decide_eq_true_eq] at hclient
  obtain ⟨⟨hname, hhas⟩, hround⟩ := hclient
  obtain ⟨⟨es', g'⟩, hreplay', heq'⟩ := (Option.any_eq_true _ _).mp hround
  simp only [Bool.and_eq_true, List.all_eq_true, decide_eq_true_eq] at heq'
  have hrun := Net.run_of_replay hreplay
  have hrun' := Net.run_of_replay hreplay'
  have horigin := (hall triangle g (node 1) st _ greeting ⟨es, hrun, htraffic⟩ hst
    (st.reacts_reaction _ _) (State.accepts_reaction hname hhas 0) es' g' hrun' heq'.1).origin
  rw [heq'.2] at horigin
  cases horigin

end CliMessaging.Distributed
