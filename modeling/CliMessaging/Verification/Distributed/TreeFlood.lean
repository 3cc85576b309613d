import CliMessaging.Verification.Distributed.SayFlood

/-! # Says on a tree

On a tree there is exactly one way from the server that accepts a say to any other, and
a server that prunes the channel has passed the say on before. -/

namespace CliMessaging.Distributed

open State Transition Flood

/-- Every server has the channel and sends its says to all its neighbours. -/
def Net.Covers (T : Topology) (name : Cname) (g : Net) : Prop :=
  ∀ s ∈ T.nodes, ∃ c, g.chan s name = some c ∧ c.serverList.Perm (T.adj s) ∧ c.uset.Coherent

/-- A datagram reaches a server that has the channel it is about and stays up. -/
def Event.handled : Event → Bool
  | .delivery p r => p.msg.findsChannel r.before && r.after.isSome
  | .pass _ _ => true
  | .lost _ => false

/-- The message has been sent along every link once, has been handled by every other
server once, and has been sent to every client on the channel once. -/
structure ExactlyOnce (T : Topology) (m : Said) (g : Net) (o : Addressable) (r : Reaction)
    (es : List Event) : Prop where
  copies : ((Event.pass o r :: es).map (Event.copies m)).sum + 1 = T.nodes.card
  origin : es.countP (Event.runsForward m o) = 0
  forwards : ∀ s ∈ T.nodes, s ≠ o → es.countP (Event.runsForward m s) = 1
  clients : ∀ s c, g.chan s m.channel = some c → ∀ u ∈ c.userList,
    ((Event.pass o r :: es).map (Event.textsTo m s u.addr)).sum = 1

variable {T : Topology} {g₀ g g' : Net} {e : Event} {past : List Event} {st st' : State}
  {o n s t : Addressable} {r r₀ : Reaction} {p : Packet} {m : Said} {name : Cname}
  {W F : List (List Addressable)} {w : List Addressable} {c : Channel}

theorem Net.Covers.mem_routes (h : g.Covers T name) (hinv : g.Inv T) :
    t ∈ g.routes s name ↔ t ∈ T.adj s := by
  constructor
  · intro ht
    obtain ⟨c, hc, hperm, -⟩ := h s (hinv.mem_nodes (Net.has_of_mem_routes ht))
    rw [Net.routes, hc] at ht
    exact hperm.mem_iff.mp ht
  · intro ht
    obtain ⟨c, hc, hperm, -⟩ := h s (T.adj_nodes s t ht).1
    rw [Net.routes, hc]
    exact hperm.mem_iff.mpr ht

theorem Net.Covers.coherent (h : g.Covers T name) (hinv : g.Inv T)
    (hc : g.chan s name = some c) : c.uset.Coherent := by
  obtain ⟨c', hc', -, hcoh⟩ := h s (hinv.mem_nodes (by rw [hc]; rfl))
  rw [hc] at hc'
  cases hc'
  exact hcoh

/-- The copies of the message that a client at `a` gets from a server. -/
def Net.readers (g : Net) (name : Cname) (s a : Addressable) : ℕ :=
  (g.chan s name).elim 0 fun c => (c.userList.map User.addr).count a

/-- The flood of a say on a tree, with exact counts. -/
structure TreeFlood (T : Topology) (m : Said) (g₀ : Net) (o : Addressable) (r₀ : Reaction)
    (past : List Event) (g : Net) (W F : List (List Addressable)) : Prop where
  flooded : Flooded T m g₀ o g W F
  complete : Complete (fun s => g₀.routes s m.channel) W F
  up : ∀ s ∈ T.nodes, (g.server s).isSome
  same : ∀ s, (∀ w, s :: w ∉ W) → g.chan s m.channel = g₀.chan s m.channel
  leaves : ∀ p ∈ g.flight, p.msg = .leave m.channel → ∃ w, p.dst :: w ∈ W
  noJoins : ∀ p ∈ g.flight, p.msg.isJoin = false
  handled : ∀ e ∈ past, e.handled
  forwards : ∀ s, past.countP (Event.runsForward m s) + (if s = o then 1 else 0) = visits W s
  clients : ∀ s a, ((Event.pass o r₀ :: past).map (Event.textsTo m s a)).sum =
    visits W s * g₀.readers m.channel s a
  copies : ((Event.pass o r₀ :: past).map (Event.copies m)).sum + 1 = W.length + F.length

/-- The leaves of a pruned channel go to its only server. -/
theorem dst_of_mem_pruneLeaves (hs : st.Sound) (hc : st.chan name = some c)
    (ht : t ∈ c.serverList) {d : Datagram} (hd : d ∈ pruneLeaves st)
    (hmsg : d.msg = .s2s (.leave name)) : d.dst = t := by
  obtain ⟨other, c', hc', hprune, hdst, hmsg'⟩ := (mem_pruneLeaves hs).mp hd
  rw [hmsg] at hmsg'
  cases hmsg'
  rw [hc] at hc'
  cases hc'
  have hsize : c.serverList.length ≤ 1 := (of_decide_eq_true hprune).2
  obtain ⟨u, hu⟩ : ∃ u, c.serverList = [u] := by
    apply List.length_eq_one_iff.mp
    have hpos := List.length_pos_of_mem ht
    omega
  rw [hu, List.mem_singleton] at ht hdst
  rw [hdst, ht]

theorem not_isJoin_forwarded (hs : st.Sound) {msg : S2sMsg} {d : Datagram}
    (hd : d ∈ m.forwarded s st c) (hmsg : d.msg = .s2s msg) : msg.isJoin = false := by
  rcases List.mem_append.mp hd with hd | hd
  · rcases List.mem_append.mp hd with hd | hd
    · rw [(mem_sendMessage.mp hd).2] at hmsg
      cases hmsg
      rfl
    · rw [(mem_sendMessage.mp hd).2] at hmsg
      cases hmsg
  · obtain ⟨name, -, -, -, -, hleave⟩ := (mem_pruneLeaves hs).mp hd
    rw [hleave] at hmsg
    cases hmsg
    rfl

theorem mem_forwarded_leave {other : Cname} {d : Datagram} (hd : d ∈ m.forwarded s st c)
    (hmsg : d.msg = .s2s (.leave other)) : d ∈ pruneLeaves st := by
  rcases List.mem_append.mp hd with hd | hd
  · rcases List.mem_append.mp hd with hd | hd
    · rw [(mem_sendMessage.mp hd).2] at hmsg
      cases hmsg
    · rw [(mem_sendMessage.mp hd).2] at hmsg
      cases hmsg
  · exact hd

/-- What the invariant needs to know about the way the channel is spread. -/
structure Spread (T : Topology) (name : Cname) (g₀ : Net) (o : Addressable) : Prop where
  unambiguous : Unambiguous (fun s => g₀.routes s name) o fun s => (g₀.chan s name).isSome
  mem_routes : ∀ s t, t ∈ g₀.routes s name ↔ t ∈ T.adj s
  covers : g₀.Covers T name

/-- A copy arrives at a server that has not got the message yet and still has the channel. -/
theorem TreeFlood.chan_of_mem (h : TreeFlood T m g₀ o r₀ past g W F)
    (hspread : Spread T m.channel g₀ o) (hw : t :: w ∈ F) (ht : t ∈ T.nodes) :
    (∀ w', t :: w' ∉ W) ∧ ∃ c, g.chan t m.channel = some c ∧
      g₀.chan t m.channel = some c := by
  obtain ⟨c, hc, -⟩ := hspread.covers t ht
  have hfresh := h.flooded.flood.first_visit hspread.unambiguous
    (show (g₀.chan t m.channel).isSome by rw [hc]; rfl) hw
  exact ⟨hfresh, c, by rw [h.same t hfresh, hc], hc⟩

theorem TreeFlood.say (h : TreeFlood T m g₀ o r₀ past g W F)
    (hspread : Spread T m.channel g₀ o) (hp : p ∈ g.flight) (hw : p.dst :: p.src :: w ∈ F)
    (hst : g.server p.dst = some st) (hr : st.Reacts r)
    (hmsg : p.msg = m.s2s) (hinput : r.input = .recv p.src (.s2s p.msg)) :
    ∃ F', TreeFlood T m g₀ o r₀ (past ++ [.delivery p r]) ((g.take p).update p.dst r)
      ((p.dst :: p.src :: w) :: W) F' := by
  have hserver := h.flooded.inv.servers p.dst st hst
  obtain ⟨hfresh, c, hchan, hchan₀⟩ :=
    h.chan_of_mem hspread hw (h.flooded.inv.nodes p.dst st hst)
  have hc : st.chan m.channel = some c := by rw [← Net.chan_of_server hst, hchan]
  obtain ⟨st', hafter, hpruned, hsent, hflooded⟩ :=
    h.flooded.pass hw hst hr hmsg hinput hc
  have hroutes : g₀.routes p.dst m.channel = c.serverList := by simp [Net.routes, hchan₀]
  have hhops : hops (fun s => g₀.routes s m.channel) (p.dst :: p.src :: w) =
      c.serverList.filter (· ≠ p.src) := by
    simp only [hops, hroutes]
  have hsrc : p.src ∈ c.serverList := by
    rw [← hroutes, hspread.mem_routes]
    exact h.flooded.inv.packets p hp
  have hvisited : p.src :: w ∈ W :=
    h.flooded.flood.parents p.dst _ (List.mem_append_right _ hw) (List.cons_ne_nil _ _)
  refine ⟨_, hflooded, ?_, fun s hs => ?_, fun s hs => ?_, fun q hq hleave => ?_,
    fun q hq => ?_,
    List.forall_mem_append.mpr ⟨h.handled, List.forall_mem_singleton.mpr ?_⟩, fun s => ?_,
    fun s a => ?_, ?_⟩
  · have hcomplete := h.complete.hop hw
    rwa [hhops] at hcomplete
  · rw [Net.isSome_server_update (g := g.take p) hst hafter]
    exact h.up s hs
  · have hsp : s ≠ p.dst := by
      rintro rfl
      exact hs _ List.mem_cons_self
    rw [Net.chan_update_of_ne hsp]
    exact h.same s fun v hv => hs v (List.mem_cons_of_mem _ hv)
  · rcases List.mem_append.mp hq with hq | hq
    · obtain ⟨v, hv⟩ := h.leaves q (List.mem_of_mem_erase hq) hleave
      exact ⟨v, List.mem_cons_of_mem _ hv⟩
    · -- a server that prunes the channel tells the neighbour it has the message from
      obtain ⟨-, hd⟩ := mem_packets.mp hq
      rw [hsent, hleave] at hd
      have hdst := dst_of_mem_pruneLeaves hserver.sound hc hsrc
        (mem_forwarded_leave hd rfl) rfl
      have hdst' : q.dst = p.src := hdst
      exact ⟨w, by rw [hdst']; exact List.mem_cons_of_mem _ hvisited⟩
  · rcases List.mem_append.mp hq with hq | hq
    · exact h.noJoins q (List.mem_of_mem_erase hq)
    · obtain ⟨-, hd⟩ := mem_packets.mp hq
      rw [hsent] at hd
      exact not_isJoin_forwarded hserver.sound hd rfl
  · simp [Event.handled, hmsg, Said.s2s, S2sMsg.findsChannel, hr.1, hc, hafter]
  · have hpast := h.forwards s
    have hone := hserver.runsForward_iff hr hmsg s
    rw [List.countP_append, List.countP_singleton, visits_cons]
    simp only [hone]
    omega
  · rw [sum_map_cons_snoc, h.clients, visits_cons, add_mul,
      Event.textsTo_forwarded hserver.sound hsent]
    split
    · rename_i hdst
      rw [← hdst, Net.readers, hchan₀, one_mul]
      rfl
    · rw [zero_mul]
  · have hpast := h.copies
    have hF := List.length_erase_of_mem hw
    have hpos := List.length_pos_of_mem hw
    rw [sum_map_cons_snoc, Event.copies_forwarded hserver.sound hsent, List.length_cons,
      List.length_append, List.length_map]
    omega

theorem TreeFlood.leave (h : TreeFlood T m g₀ o r₀ past g W F) {other : Cname}
    (hp : p ∈ g.flight) (hst : g.server p.dst = some st) (hr : st.Reacts r)
    (hmsg : p.msg = .leave other) (hinput : r.input = .recv p.src (.s2s p.msg)) :
    TreeFlood T m g₀ o r₀ (past ++ [.delivery p r]) ((g.take p).update p.dst r) W F := by
  obtain ⟨st', hafter, heff, hsent, hflooded⟩ := h.flooded.leave hp hst hr hmsg hinput
  have hsilent : (Event.delivery p r).sent = [] := hsent
  have hruns : ∀ s, ¬ (Event.delivery p r).runsForward m s := by
    obtain ⟨src, dst, msg⟩ := p
    cases hmsg
    intro s hs
    cases hs
  have hflight : ∀ q ∈ ((g.take p).update p.dst r).flight, q ∈ g.flight := by
    intro q hq
    simp only [Net.update, hsent, packets, List.filterMap_nil, List.append_nil] at hq
    exact List.mem_of_mem_erase hq
  refine ⟨hflooded, h.complete, fun s hs => ?_, fun s hs => ?_,
    fun q hq hleave => h.leaves q (hflight q hq) hleave, fun q hq => h.noJoins q (hflight q hq),
    List.forall_mem_append.mpr ⟨h.handled, List.forall_mem_singleton.mpr ?_⟩, fun s => ?_,
    fun s a => ?_, ?_⟩
  · rw [Net.isSome_server_update (g := g.take p) hst hafter]
    exact h.up s hs
  · by_cases hsp : s = p.dst
    · -- a leave of this channel comes to servers that have passed the message on only
      have hother : m.channel ≠ other := by
        rintro rfl
        obtain ⟨v, hv⟩ := h.leaves p hp hmsg
        exact hs v (hsp ▸ hv)
      rw [hinput, hmsg, hsent] at heff
      cases heff with
      | s2sLeave hadj hs' hsame hchan =>
          rw [hsp, Net.chan_update_self hafter, hchan, Function.update_of_ne hother,
            ← Net.chan_of_server hst, h.same p.dst (hsp ▸ hs)]
    · rw [Net.chan_update_of_ne hsp]
      exact h.same s hs
  · simp [Event.handled, hmsg, S2sMsg.findsChannel, hafter]
  · rw [List.countP_append, List.countP_singleton, if_neg (hruns s)]
    exact h.forwards s
  · rw [sum_map_cons_snoc, Event.textsTo_of_silent hsilent]
    exact h.clients s a
  · rw [sum_map_cons_snoc, Event.copies_of_silent hsilent]
    exact h.copies

/-- A step passes the message on at one more server, or takes a leave out of flight. -/
theorem TreeFlood.step (h : TreeFlood T m g₀ o r₀ past g W F)
    (hspread : Spread T m.channel g₀ o) (he : e.isFlood) (hstep : Net.Step g e g') :
    ∃ W' F', TreeFlood T m g₀ o r₀ (past ++ [e]) g' W' F' ∧
      (W'.length = W.length + 1 ∨
        W'.length = W.length ∧ g'.flight.length < g.flight.length) := by
  cases hstep with
  | pass hst hr hkind => cases he
  | @lost p hp hst =>
      have hdst := (T.adj_nodes _ _ (h.flooded.inv.packets p hp)).1
      have hup := h.up p.dst hdst
      rw [hst] at hup
      cases hup
  | @delivery p st r hp hst hr hinput =>
      cases hmsg : p.msg with
      | say uid username channel text =>
          obtain ⟨w, hw, hm⟩ := h.flooded.exists_walk hp (by rw [hmsg]; rfl)
          obtain ⟨F', h'⟩ := h.say hspread hp hw hst hr hm hinput
          exact ⟨_, F', h', Or.inl rfl⟩
      | leave other =>
          refine ⟨W, F, h.leave hp hst hr hmsg hinput, Or.inr ⟨rfl, ?_⟩⟩
          obtain ⟨-, -, -, hsent, -⟩ := h.flooded.leave hp hst hr hmsg hinput
          have hpos := List.length_pos_of_mem hp
          simp only [Net.update, Net.take, hsent, packets, List.filterMap_nil, List.append_nil,
            List.length_erase_of_mem hp]
          omega
      | join other => simp [Event.isFlood, hmsg, S2sMsg.isJoin] at he

/-- As long as something is in flight, it can be delivered. -/
theorem TreeFlood.progress (h : TreeFlood T m g₀ o r₀ past g W F) (hne : g.flight ≠ []) :
    ∃ e g', e.isFlood ∧ Net.Step g e g' := by
  obtain ⟨p, hp⟩ := List.exists_mem_of_ne_nil _ hne
  have hdst := (T.adj_nodes _ _ (h.flooded.inv.packets p hp)).1
  obtain ⟨st, hst⟩ := Option.isSome_iff_exists.mp (h.up p.dst hdst)
  refine ⟨_, _, ?_, .delivery hp hst (st.reacts_reaction ⟨0, 0⟩ (.recv p.src (.s2s p.msg))) rfl⟩
  simp [Event.isFlood, h.noJoins p hp]

theorem Topology.IsTree.spread (htree : T.IsTree) (hinv : g.Inv T) (hcovers : g.Covers T name) :
    Spread T name g o where
  unambiguous := unambiguous_of_isAcyclic htree.acyclic fun _ _ ht =>
    htree.adj_iff.mpr ((hcovers.mem_routes hinv).mp ht)
  mem_routes _ _ := hcovers.mem_routes hinv
  covers := hcovers

theorem TreeFlood.start (hinv : g.Inv T) (hquiet : g.flight = [])
    (hspread : Spread T m.channel g o) (hst : g.server o = some st) (hr : st.Reacts r)
    (hsay : st.Accepts r m) : ∃ F, TreeFlood T m g o r [] (g.update o r) [[o]] F := by
  obtain ⟨c, st', hc, hafter, -, hsent⟩ := (hinv.servers o st hst).accepts_spec hr hsay
  have hchan : g.chan o m.channel = some c := by rw [Net.chan_of_server hst, hc]
  have hcoh : ∀ s c, g.chan s m.channel = some c → c.uset.Coherent :=
    fun _ _ => hspread.covers.coherent hinv
  refine ⟨_, .start hinv (by simp [hquiet]) hcoh hst hr hsay, complete_start _ o,
    fun s hs => ?_, fun s hs => ?_, fun p hp hleave => ?_, fun p hp => ?_, by simp,
    fun s => ?_, fun s a => ?_, ?_⟩
  · obtain ⟨c, hc, -⟩ := hspread.covers s hs
    rw [Net.isSome_server_update hst hafter]
    exact Net.isSome_chan_of_server (by rw [hc]; rfl)
  · have hso : s ≠ o := by
      rintro rfl
      exact hs [] (List.mem_singleton.mpr rfl)
    exact Net.chan_update_of_ne hso r m.channel
  · simp only [Net.update, hquiet, List.nil_append] at hp
    obtain ⟨-, hd⟩ := mem_packets.mp hp
    rw [hsent, hleave] at hd
    rcases List.mem_append.mp hd with hd | hd
    · cases (mem_sendMessage.mp hd).2
    · cases (mem_sendMessage.mp hd).2
  · simp only [Net.update, hquiet, List.nil_append] at hp
    obtain ⟨-, hd⟩ := mem_packets.mp hp
    rw [hsent] at hd
    rcases List.mem_append.mp hd with hd | hd
    · cases (mem_sendMessage.mp hd).2
    · rw [Msg.s2s.inj (mem_sendMessage.mp hd).2]
      rfl
  · simp [visits, eq_comm]
  · simp only [List.map_cons, List.map_nil, List.sum_cons, List.sum_nil, add_zero,
      Event.textsTo_accepted hsent]
    split
    · rename_i hos
      subst hos
      simp [visits, Net.readers, hchan]
    · rename_i hos
      simp [visits, hos]
  · simp only [List.map_cons, List.map_nil, List.sum_cons, List.sum_nil, add_zero,
      Event.copies_accepted hsent, List.length_map, Net.routes, hchan, Option.elim_some]
    simp [add_comm]

/-- The nodes that the message comes to are servers of the tree. -/
theorem TreeFlood.head_mem (h : TreeFlood T m g₀ o r₀ past g W F)
    (hspread : Spread T m.channel g₀ o) (ho : o ∈ T.nodes) :
    ∀ w ∈ W ++ F, ∃ t u, w = t :: u ∧ t ∈ T.nodes := by
  intro w hw
  cases h.flooded.flood.walks w hw with
  | origin => exact ⟨o, [], rfl, ho⟩
  | @hop t u hu ht =>
      obtain ⟨s, v, rfl, hroute⟩ := exists_of_mem_hops ht
      exact ⟨t, _, rfl, (T.adj_nodes s t ((hspread.mem_routes s t).mp hroute)).2⟩

theorem TreeFlood.visits_le_one (h : TreeFlood T m g₀ o r₀ past g W F)
    (hspread : Spread T m.channel g₀ o) (hs : s ∈ T.nodes) : visits (W ++ F) s ≤ 1 := by
  obtain ⟨c, hc, -⟩ := hspread.covers s hs
  exact h.flooded.flood.visits_le_one hspread.unambiguous
    (show (g₀.chan s m.channel).isSome by rw [hc]; rfl)

/-- No more copies are sent than the tree has links. -/
theorem TreeFlood.length_le (h : TreeFlood T m g₀ o r₀ past g W F)
    (hspread : Spread T m.channel g₀ o) (ho : o ∈ T.nodes) :
    W.length + F.length ≤ T.nodes.card := by
  rw [← List.length_append, ← sum_visits (h.head_mem hspread ho), Finset.card_eq_sum_ones]
  exact Finset.sum_le_sum fun s hs => h.visits_le_one hspread hs

/-- In whatever order the datagrams are delivered, the flood ends. -/
theorem TreeFlood.ends (hspread : Spread T m.channel g₀ o) (ho : o ∈ T.nodes) (k : ℕ) :
    ∀ (j : ℕ) {past g W F}, TreeFlood T m g₀ o r₀ past g W F → T.nodes.card - W.length = k →
      g.flight.length = j → Acc (fun b a => ∃ e, e.isFlood ∧ Net.Step a e b) g := by
  induction k using Nat.strong_induction_on with
  | h k ihk =>
      intro j
      induction j using Nat.strong_induction_on with
      | h j ihj =>
          intro past g W F h hk hj
          refine Acc.intro _ fun b hb => ?_
          obtain ⟨e, he, hstep⟩ := hb
          obtain ⟨W', F', h', hcase⟩ := h.step hspread he hstep
          have hle := h'.length_le hspread ho
          rcases hcase with hlength | ⟨hlength, hflight⟩
          · exact ihk (T.nodes.card - W'.length) (by omega) _ h' rfl rfl
          · exact ihj b.flight.length (by omega) h' (by omega) rfl

/-- When no copy is in flight, the message has come to every server. -/
theorem TreeFlood.visits_eq_one (h : TreeFlood T m g₀ o r₀ past g W [])
    (htree : T.IsTree) (hspread : Spread T m.channel g₀ o) (ho : o ∈ T.nodes)
    (hs : s ∈ T.nodes) : visits W s = 1 := by
  have hle := h.visits_le_one hspread hs
  rw [List.append_nil] at hle
  obtain ⟨w, hw⟩ := exists_walk_of_reachable
    (fun s t hst => (hspread.mem_routes s t).mpr (htree.adj_iff.mp hst))
    (htree.reachable hs ho)
  have hpos := visits_pos_of_mem (h.complete.mem_of_walk h.flooded.flood.root hw)
  omega

theorem TreeFlood.exactlyOnce (h : TreeFlood T m g₀ o r₀ past g W []) (hinv : g₀.Inv T)
    (htree : T.IsTree) (hspread : Spread T m.channel g₀ o) (ho : o ∈ T.nodes) :
    ExactlyOnce T m g₀ o r₀ past := by
  have hone : ∀ s ∈ T.nodes, visits W s = 1 := fun s hs => h.visits_eq_one htree hspread ho hs
  have hlength : W.length = T.nodes.card := by
    rw [← sum_visits fun w hw => h.head_mem hspread ho w (List.mem_append_left _ hw),
      Finset.card_eq_sum_ones]
    exact Finset.sum_congr rfl hone
  refine ⟨?_, ?_, fun s hs hso => ?_, fun s c hc u hu => ?_⟩
  · rw [h.copies, hlength]
    rfl
  · have horigin := h.forwards o
    rw [hone o ho, if_pos rfl] at horigin
    omega
  · have hforwards := h.forwards s
    rwa [hone s hs, if_neg hso] at hforwards
  · have hcoh := hspread.covers.coherent hinv hc
    have hcount : (c.userList.map User.addr).count u.addr = 1 :=
      List.count_eq_one_of_mem hcoh.nodup_addr (List.mem_map_of_mem hu)
    rw [h.clients, hone s (hinv.mem_nodes (by rw [hc]; rfl)), one_mul, Net.readers, hc]
    exact hcount

/-- On a quiet tree whose servers all send the says of a channel to all their neighbours,
every server handles an accepted say at most once, while it still has the channel, and no
server goes down. The deliveries end whatever their order, and when no copy is in flight
any more, the message has been sent along every link, has been handled by every other
server and has been sent to every client on the channel exactly once. -/
theorem exactlyOnce_of_isTree (htree : T.IsTree) (hg : T.Reachable g) (hquiet : g.flight = [])
    (hcovers : g.Covers T m.channel) (hst : g.server o = some st) (hr : st.Reacts r)
    (hsay : st.Accepts r m) :
    Acc (fun b a => ∃ e, e.isFlood ∧ Net.Step a e b) (g.update o r) ∧
    ∀ es g', Run Net.Step (g.update o r) es g' → (∀ e ∈ es, e.isFlood) →
      (∀ e ∈ es, e.handled) ∧ (∀ s ∈ T.nodes, es.countP (Event.runsForward m s) ≤ 1) ∧
      ((Event.pass o r :: es).map (Event.copies m)).sum + 1 ≤ T.nodes.card ∧
      (g'.flight ≠ [] → ∃ e g'', e.isFlood ∧ Net.Step g' e g'') ∧
      ((∀ p ∈ g'.flight, p.msg.isSay = false) → ExactlyOnce T m g o r es) := by
  have hinv := hg.inv
  have ho := hinv.nodes o st hst
  have hspread : Spread T m.channel g o := htree.spread hinv hcovers
  obtain ⟨F, hstart⟩ := TreeFlood.start hinv hquiet hspread hst hr hsay
  refine ⟨TreeFlood.ends hspread ho _ _ hstart rfl rfl, fun es g' hrun hflood => ?_⟩
  obtain ⟨W', F', h⟩ : ∃ W' F', TreeFlood T m g o r ([] ++ es) g' W' F' :=
    hrun.history (I := fun past g' => ∃ W F, TreeFlood T m g o r past g' W F)
      (P := fun e => e.isFlood)
      (fun _ _ _ _ h he hstep => by
        obtain ⟨W, F, h⟩ := h
        obtain ⟨W', F', h', -⟩ := h.step hspread he hstep
        exact ⟨W', F', h'⟩)
      hflood [] ⟨_, F, hstart⟩
  rw [List.nil_append] at h
  refine ⟨h.handled, fun s hs => ?_, ?_, h.progress, fun hsilent => ?_⟩
  · have hforwards := h.forwards s
    have hle := h.visits_le_one hspread hs
    rw [visits_append] at hle
    omega
  · rw [h.copies]
    exact h.length_le hspread ho
  · have hnone : g'.flight.filter (fun p => p.msg.isSay) = [] :=
      List.filter_eq_nil_iff.mpr fun p hp => by simp [hsilent p hp]
    have hF : F' = [] := by
      have hperm := h.flooded.inFlight
      rw [hnone] at hperm
      exact List.map_eq_nil_iff.mp hperm.nil_eq.symm
    rw [hF] at h
    exact h.exactlyOnce hinv htree hspread ho

/-- Join traffic leaves a channel that is known in the state that the theorem needs. -/
theorem covers_of_joinTraffic {es : List Event} (hconn : T.Connected)
    (hrun : Run Net.Step T.initial es g) (htraffic : ∀ e ∈ es, e.isJoinTraffic)
    (hquiet : g.flight = []) (hstart : ∃ e ∈ es, e.startsJoin name) : g.Covers T name := by
  intro s hs
  obtain ⟨st, c, hst, hc, -, hperm⟩ :=
    (joinFlood_converges hconn hrun htraffic name).1 hquiet hstart s hs
  have hchan : g.chan s name = some c := by rw [Net.chan_of_server hst, hc]
  have honly : OnlyJoins T name g := Topology.Reaches.onlyJoins ⟨es, hrun, htraffic⟩ name
  exact ⟨c, hchan, hperm, honly.coherent s c hchan⟩

/-- The second server has no client on the channel, so it prunes the channel on the say. -/
theorem exactlyOnce_spreading :
    ∃ es g st, twoServers.initial.replay spreading = some (es, g) ∧
      g.server (node 1) = some st ∧
      ∀ es' g', Run Net.Step (g.update (node 1) (st.reaction ⟨0, 7⟩ (greeting.request (desk 1))))
        es' g' → (∀ e ∈ es', e.isFlood) → g'.flight = [] →
        ExactlyOnce twoServers greeting g (node 1)
          (st.reaction ⟨0, 7⟩ (greeting.request (desk 1))) es' := by
  have hfacts : (twoServers.initial.replay spreading).any fun p =>
      p.1.all Event.isJoinTraffic && p.1.any (Event.startsJoin chat) &&
        decide (p.2.flight = []) && (p.2.server (node 1)).any fun st =>
          decide ((st.uset.getUserByIp (desk 1)).map User.name = some alice) &&
            (st.chan chat).isSome := by decide
  obtain ⟨⟨es, g⟩, hreplay, heq⟩ := (Option.any_eq_true _ _).mp hfacts
  simp only [Bool.and_eq_true, List.all_eq_true, List.any_eq_true, decide_eq_true_eq] at heq
  obtain ⟨⟨⟨htraffic, hstart⟩, hquiet⟩, hserver⟩ := heq
  obtain ⟨st, hst, hclient⟩ := (Option.any_eq_true _ _).mp hserver
  simp only [Bool.and_eq_true, decide_eq_true_eq] at hclient
  have hrun := Net.run_of_replay hreplay
  have hcovers : g.Covers twoServers greeting.channel :=
    covers_of_joinTraffic twoServers_isTree.connected hrun htraffic hquiet hstart
  have haccepts : st.Accepts _ greeting := State.accepts_reaction hclient.1 hclient.2 0
  obtain ⟨-, hall⟩ := exactlyOnce_of_isTree twoServers_isTree ⟨es, hrun, fun _ _ => trivial⟩
    hquiet hcovers hst (st.reacts_reaction _ _) haccepts
  refine ⟨es, g, st, hreplay, hst, fun es' g' hrun' hflood hdone => ?_⟩
  exact (hall es' g' hrun' hflood).2.2.2.2 fun p hp => by simp [hdone] at hp

end CliMessaging.Distributed
