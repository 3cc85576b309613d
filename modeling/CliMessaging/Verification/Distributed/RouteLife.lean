import CliMessaging.Verification.Distributed.Deliveries
import CliMessaging.Verification.Distributed.TimedRuns

/-! # How long routes live

Two servers that tell each other of a channel at least once a minute keep each other on
their route tables. When one of them learns of the channel from the other, it answers at once,
so that both begin in time. -/

namespace CliMessaging.Distributed

open State Transition

/-- None of the datagrams is a leave for the channel between the two servers. -/
def NoLeave (name : Cname) (x y : Addressable) (ps : List Packet) : Prop :=
  ⟨x, y, .leave name⟩ ∉ ps ∧ ⟨y, x, .leave name⟩ ∉ ps

/-- The event delivers a join of the server at `y` to the one at `x`. -/
def Event.brings (e : Event) (name : Cname) (x y : Addressable) : Bool :=
  decide (e.packet? = some ⟨y, x, .join name⟩)

namespace TimedNet

/-- The server at `x` has the one at `y` on its route table, and last heard from it at `last`. -/
def Heard (w : TimedNet) (name : Cname) (x y : Addressable) (last : ℕ) : Prop :=
  ∃ st, w.server x = some st ∧ st.heard name y = some (UInt32.ofNat last)

/-- A join of the server at `y` is on its way to the one at `x`. -/
def Coming (w : TimedNet) (name : Cname) (x y : Addressable) (due : ℕ) : Prop :=
  (⟨y, x, .join name⟩, due) ∈ w.flight

/-- The server at `x`, which last heard from the one at `y` at `last`, hears from it again
before it takes it for dead: a join is under way, or the other one is `settled` and sends the
next in time, or it will be settled in time by a join that is under way to it. -/
inductive Renewed (timing : Timing) (w : TimedNet) (name : Cname) (x y : Addressable)
    (last : ℕ) : Bool → Prop where
  | coming {settled : Bool} {due : ℕ} : w.Coming name x y due → due ≤ last + 120 →
      Renewed timing w name x y last settled
  | next : w.nextSend y + timing.latency ≤ last + 120 → Renewed timing w name x y last true
  | answer {due : ℕ} : w.Coming name y x due →
      due + timing.send + timing.latency ≤ last + 120 → Renewed timing w name x y last false

/-- The server at `x` is settled if it has the one at `y` on its route table and hears from it
again in time, or it is settled before `bound`. The flags say whether it is settled, and whether
the other one is. -/
inductive Half (timing : Timing) (w : TimedNet) (name : Cname) (x y : Addressable) (bound : ℕ) :
    Bool → Bool → Prop where
  | coming {other : Bool} {due : ℕ} : w.Coming name x y due → due < bound →
      Half timing w name x y bound false other
  | heard {other : Bool} {last : ℕ} : w.Heard name x y last → last ≤ w.clock →
      w.Renewed timing name x y last other → Half timing w name x y bound true other

end TimedNet

variable {T : Topology} {timing : Timing} {w w' : TimedNet} {g : Net} {e : Event}
  {es : List (Option Event)} {x y : Addressable} {name : Cname} {last due bound bound' : ℕ}
  {ps : List Packet} {own other settled : Bool}

theorem NoLeave.symm (h : NoLeave name x y ps) : NoLeave name y x ps := ⟨h.2, h.1⟩

namespace TimedNet

theorem Heard.mem_routes (hinv : w.Inv T timing) (h : w.Heard name x y last) :
    y ∈ w.net.routes x name := by
  obtain ⟨st, hst, hheard⟩ := h
  rw [Net.routes_of_server (g := w.net) hst, ← (hinv.reached x st hst).isSome_heard, hheard]
  rfl

/-- In time, nobody is taken for dead who is renewed. -/
theorem Renewed.recent (hinv : w.Inv T timing) (h : w.Renewed timing name x y last settled)
    (hx : (w.server x).isSome) (hy : (w.server y).isSome) : w.clock ≤ last + 120 := by
  cases h with
  | coming hcoming hdue => exact (hinv.arriving _ _ hcoming hx).trans hdue
  | next hnext =>
      have hawake := (hinv.awake y hy).1
      omega
  | answer hcoming hdue =>
      have harrive := hinv.arriving _ _ hcoming hy
      omega

/-! ## One event -/

/-- What a server that is running after an event has heard from another one. -/
theorem Heard.follow (hinv : w.Inv T timing) (hstep : Net.Step w.net e g)
    (hnow : ∀ r, e.reaction? = some r → r.env.now = w.clock)
    (h : w.Heard name x y last) (hle : last ≤ w.clock) (hrecent : w.clock ≤ last + 120)
    (hx : (g.server x).isSome) (hflight : NoLeave name x y w.net.flight)
    (hsent : NoLeave name x y (packets e.node e.sent))
    (hjoin : e.packet? ≠ some ⟨y, x, .join name⟩) :
    (w.follow timing e g.server).Heard name x y last := by
  obtain ⟨st₀, hst₀, hheard⟩ := h
  obtain ⟨st', hst'⟩ := Option.isSome_iff_exists.mp hx
  refine ⟨st', hst', ?_⟩
  rcases hstep.server_cases hst' with ⟨hst, -⟩ | ⟨st, r, hst, hhandles, hserver⟩
  · have heq : st₀ = st' := Option.some.inj (hst₀.symm.trans hst)
    rw [← heq, hheard]
  · have heq : st₀ = st := Option.some.inj (hst₀.symm.trans hst)
    subst heq
    have hreach := hinv.reached x st₀ hst₀
    have htime : r.env.now = w.clock := by
      apply hnow
      cases hhandles <;> rfl
    by_cases hcheck : r.input = .serverTimeout
    · rw [hreach.heard_check hserver hcheck, hheard, htime, Option.filter_some, if_pos]
      rw [decide_eq_true_eq, lt_ofNat_sub_ofNat hle (by omega)]
      change ¬ 120 < w.clock - last
      omega
    · have hroute : y ∈ st₀.routes name := by
        rw [← hreach.isSome_heard, hheard]
        rfl
      have heff := hreach.inv.effect_of_step hserver
      refine hreach.inv.heard_stays heff hheard hroute ?_ ?_ hcheck ?_
      · intro hinput
        rw [hhandles.eq_delivery hinput] at hjoin
        exact hjoin rfl
      · intro hinput
        rw [hhandles.eq_delivery hinput] at hstep
        cases hstep with
        | delivery hp _ _ _ => exact hflight.2 hp
      · intro hleave
        apply hsent.1
        rw [mem_packets, hhandles.node_eq, hhandles.sent_eq]
        exact ⟨rfl, hleave⟩

/-- The join that is delivered to a server sets its time. -/
theorem heard_of_delivery (timing : Timing) (hinv : w.Inv T timing) (hstep : Net.Step w.net e g)
    (hnow : ∀ r, e.reaction? = some r → r.env.now = w.clock)
    (hx : (g.server x).isSome) (hjoin : e.packet? = some ⟨y, x, .join name⟩) :
    (w.follow timing e g.server).Heard name x y w.clock := by
  obtain ⟨st', hst'⟩ := Option.isSome_iff_exists.mp hx
  refine ⟨st', hst', ?_⟩
  cases hstep with
  | pass hst hr hkind => cases hjoin
  | @delivery p st r hp hst hr hinput =>
      cases hjoin
      rw [Net.update_server_self] at hst'
      have hreach := hinv.reached x st hst
      have heff := hreach.inv.effect_of_step ⟨hr, hst'⟩
      rw [hinput] at heff
      rw [hreach.inv.heard_join heff, hnow r rfl]
  | @lost p hp hst =>
      cases hjoin
      have hnone : w.net.server x = none := hst
      change w.net.server x = some st' at hst'
      rw [hnone] at hst'
      cases hst'

/-- A pass of `join_send_loop` sends joins along the routes. -/
theorem coming_of_wakes (hinv : w.Inv T timing) (hstep : Net.Step w.net e g)
    (hwake : e.wakes .joinSend y) (hy : (g.server y).isSome) (h : w.Heard name y x last) :
    (w.follow timing e g.server).Coming name x y (w.clock + timing.latency) := by
  obtain ⟨r, rfl, hinput⟩ := Event.wakes_iff.mp hwake
  obtain ⟨st', hst'⟩ := Option.isSome_iff_exists.mp hy
  have hroute := h.mem_routes hinv
  cases hstep with
  | @pass _ st _ hst hr hkind =>
      rw [Net.update_server_self] at hst'
      have hinv' := (hinv.reached y st hst).inv
      have heff := hinv'.effect_of_step ⟨hr, hst'⟩
      rw [hinput] at heff
      rw [Net.routes_of_server hst] at hroute
      apply mem_follow_sent
      rw [mem_packets]
      refine ⟨rfl, ?_⟩
      change ⟨x, .s2s (.join name)⟩ ∈ r.sent
      cases hc : st.chan name with
      | none => simp [State.routes, hc] at hroute
      | some c =>
          rw [State.routes_of_chan hc] at hroute
          generalize r.sent = sent at heff
          cases heff with
          | joinSend => exact (mem_joinSends hinv'.sound).mpr ⟨name, c, hc, hroute, rfl⟩


theorem Renewed.follow (hinv : w.Inv T timing) (hstep : Net.Step w.net e g)
    (hy : (g.server y).isSome) (h : w.Renewed timing name x y last settled)
    (hjoin : e.packet? ≠ some ⟨y, x, .join name⟩)
    (hother : settled = true → ∃ t, w.Heard name y x t) :
    (w.follow timing e g.server).Renewed timing name x y last
      (settled || e.brings name y x) := by
  have hbefore := hstep.isSome_server hy
  cases h with
  | coming hcoming hdue => exact .coming (mem_follow hcoming hjoin) hdue
  | next hnext =>
      have hawake := (hinv.awake y hbefore).1
      cases hwake : e.wakes .joinSend y with
      | true =>
          obtain ⟨t, hheard⟩ := hother rfl
          apply Renewed.coming (coming_of_wakes hinv hstep hwake hy hheard)
          omega
      | false =>
          apply Renewed.next
          rw [follow_nextSend, hwake]
          exact hnext
  | @answer due hcoming hdue =>
      cases hbrings : e.brings name y x with
      | true =>
          have harrive := hinv.arriving _ _ hcoming hbefore
          have hsoon := ((hinv.follow hstep).soon y).1
          apply Renewed.next
          rw [follow_clock] at hsoon
          omega
      | false => exact .answer (mem_follow hcoming (of_decide_eq_false hbrings)) hdue

/-- A server that has just heard from the other one hears from it again in time, as it is
settled, or will be after one more datagram. -/
theorem Half.renewed (hpace : timing.send + 2 * timing.latency ≤ 120) (hinv : w.Inv T timing)
    (hstep : Net.Step w.net e g) (h : w.Half timing name y x bound other own) :
    (w.follow timing e g.server).Renewed timing name x y w.clock
      (other || e.brings name y x) := by
  have hinv' := hinv.follow hstep
  have hsoon := (hinv'.soon y).1
  have hnext : (w.follow timing e g.server).nextSend y + timing.latency ≤ w.clock + 120 := by
    rw [follow_clock] at hsoon
    omega
  cases h with
  | heard hheard hle hrenewed => exact .next hnext
  | @coming _ due hcoming hdue =>
      cases hbrings : e.brings name y x with
      | true => exact .next hnext
      | false =>
          have hnear := hinv.near _ _ hcoming
          apply Renewed.answer (mem_follow hcoming (of_decide_eq_false hbrings))
          omega

theorem Half.follow (hpace : timing.send + 2 * timing.latency ≤ 120) (hinv : w.Inv T timing)
    (hstep : Net.Step w.net e g) (hnow : ∀ r, e.reaction? = some r → r.env.now = w.clock)
    (hx : (g.server x).isSome) (hy : (g.server y).isSome)
    (hflight : NoLeave name x y w.net.flight) (hsent : NoLeave name x y (packets e.node e.sent))
    (h : w.Half timing name x y bound own other) (h' : w.Half timing name y x bound' other own) :
    (w.follow timing e g.server).Half timing name x y bound (own || e.brings name x y)
      (other || e.brings name y x) := by
  cases hbrings : e.brings name x y with
  | true =>
      have hheard := heard_of_delivery timing hinv hstep hnow hx
        (of_decide_eq_true hbrings)
      rw [Bool.or_true]
      exact .heard hheard le_rfl (h'.renewed hpace hinv hstep)
  | false =>
      have hjoin := of_decide_eq_false hbrings
      rw [Bool.or_false]
      cases h with
      | coming hcoming hdue => exact .coming (mem_follow hcoming hjoin) hdue
      | heard hheard hle hrenewed =>
          have hrecent := hrenewed.recent hinv (hstep.isSome_server hx) (hstep.isSome_server hy)
          refine .heard (hheard.follow hinv hstep hnow hle hrecent hx hflight hsent hjoin) hle ?_
          apply hrenewed.follow hinv hstep hy hjoin
          rintro rfl
          cases h' with
          | heard hheard' _ _ => exact ⟨_, hheard'⟩

/-- A second has passed. -/
theorem Half.second (h : w.Half timing name x y bound own other) :
    Half timing { w with clock := w.clock + 1 } name x y bound own other := by
  cases h with
  | coming hcoming hdue => exact .coming hcoming hdue
  | heard hheard hle hrenewed =>
      refine .heard hheard (hle.trans (Nat.le_succ _)) ?_
      cases hrenewed with
      | coming hcoming hdue => exact .coming hcoming hdue
      | next hnext => exact .next hnext
      | answer hcoming hdue => exact .answer hcoming hdue

/-! ## Runs -/

/-- Each of the two servers is settled, or will be in time. -/
def Linked (timing : Timing) (w : TimedNet) (name : Cname) (x y : Addressable)
    (bound bound' : ℕ) : Prop :=
  ∃ own other, w.Half timing name x y bound own other ∧ w.Half timing name y x bound' other own

theorem noLeave_follow {server : Addressable → Option State}
    (hflight : NoLeave name x y w.net.flight) (hsent : NoLeave name x y (packets e.node e.sent)) :
    NoLeave name x y (w.follow timing e server).net.flight := by
  have hcases : ∀ p ∈ (w.follow timing e server).net.flight,
      p ∈ w.net.flight ∨ p ∈ packets e.node e.sent := by
    intro p hp
    obtain ⟨⟨q, due⟩, hq, rfl⟩ := List.mem_map.mp hp
    rcases mem_follow_cases hq with hq | ⟨hq, -⟩
    · exact Or.inl (List.mem_map_of_mem hq)
    · exact Or.inr hq
  constructor
  · intro hp
    exact (hcases _ hp).elim hflight.1 hsent.1
  · intro hp
    exact (hcases _ hp).elim hflight.2 hsent.2

theorem Linked.run (hpace : timing.send + 2 * timing.latency ≤ 120)
    (hrun : Run (Step timing) w es w') (hinv : w.Inv T timing)
    (hx : (w'.server x).isSome) (hy : (w'.server y).isSome)
    (hflight : NoLeave name x y w.net.flight)
    (hsent : ∀ e, some e ∈ es → NoLeave name x y (packets e.node e.sent))
    (h : w.Linked timing name x y bound bound') : w'.Linked timing name x y bound bound' := by
  induction hrun with
  | nil => exact h
  | @cons w _ _ e es hstep hrest ih =>
      obtain ⟨own, other, hown, hother⟩ := h
      have hup := isSome_server_of_run hrest hx
      have hup' := isSome_server_of_run hrest hy
      have hlater : ∀ e, some e ∈ es → NoLeave name x y (packets e.node e.sent) :=
        fun e he => hsent e (List.mem_cons_of_mem _ he)
      cases hstep with
      | second hloops hdues =>
          exact ih (hinv.second hloops hdues) hx hy hflight hlater
            ⟨own, other, hown.second, hother.second⟩
      | @event e g hstep hnow =>
          have hquiet := hsent e List.mem_cons_self
          exact ih (hinv.follow hstep) hx hy (noLeave_follow hflight hquiet) hlater
            ⟨_, _, hown.follow hpace hinv hstep hnow hup hup' hflight hquiet hother,
              hother.follow hpace hinv hstep hnow hup' hup hflight.symm hquiet.symm hown⟩

/-- A server that a join tells of a new channel has its sender on the route table, and answers. -/
theorem linked_of_answer {r : Reaction} (hpace : timing.send + 2 * timing.latency ≤ 120)
    (hinv : w.Inv T timing) (hjoin : Step timing w (some (.delivery ⟨x, y, .join name⟩ r)) w')
    (hnew : w.net.chan y name = none) (hy : (w'.server y).isSome) :
    w'.Linked timing name x y (w'.clock + timing.latency + 1) w'.clock := by
  cases hjoin with
  | @event _ g hstep hnow =>
      have hheard := heard_of_delivery timing hinv hstep hnow hy rfl
      obtain ⟨st', hst'⟩ := Option.isSome_iff_exists.mp hy
      have hcoming : (w.follow timing (.delivery ⟨x, y, .join name⟩ r) g.server).Coming name x y
          (w.clock + timing.latency) := by
        apply mem_follow_sent
        cases hstep with
        | @delivery _ st _ hp hst hr hinput =>
            change (Net.update _ _ _).server y = some st' at hst'
            rw [Net.update_server_self] at hst'
            have heff := (hinv.reached y st hst).inv.effect_of_step ⟨hr, hst'⟩
            rw [hinput] at heff
            rw [Net.chan_of_server hst] at hnew
            rw [mem_packets]
            refine ⟨rfl, ?_⟩
            change ⟨x, .s2s (.join name)⟩ ∈ r.sent
            generalize r.sent = sent at heff
            cases heff with
            | s2sJoin hadj hs' hsame hchan =>
                rw [hnew]
                exact mem_sendMessage.mpr ⟨hadj, rfl⟩
      refine ⟨false, true, .coming hcoming ?_, .heard hheard le_rfl (.answer hcoming ?_)⟩
      · exact Nat.lt_succ_self _
      · omega

end TimedNet

/-- A server that a join tells of a channel that is new to it has the sender of the join on its
route table as long as both are running and neither sends the other a leave for the channel,
if they keep to their times. Once its answer has had time to arrive, it is on the other one's
route table for as long. -/
theorem routes_take_hold {now : ℕ} {past : List (Option Event)} {w₀ w₁ : TimedNet} {r : Reaction}
    (hpace : timing.send + 2 * timing.latency ≤ 120)
    (hpast : Run (TimedNet.Step timing) (T.timed timing now) past w₀)
    (hjoin : TimedNet.Step timing w₀ (some (.delivery ⟨x, y, .join name⟩ r)) w₁)
    (hnew : w₀.net.chan y name = none) (hrun : Run (TimedNet.Step timing) w₁ es w)
    (hx : (w.server x).isSome) (hy : (w.server y).isSome)
    (hflight : NoLeave name x y w₁.net.flight)
    (hsent : ∀ e, some e ∈ es → NoLeave name x y (packets e.node e.sent)) :
    x ∈ w.net.routes y name ∧
      (w₁.clock + timing.latency < w.clock → y ∈ w.net.routes x name) := by
  have hinv₀ := T.inv_of_timed hpast
  have hinv₁ := hinv₀.step hjoin
  have hinv := T.inv_of_timed ((hpast.snoc hjoin).append hrun)
  have hstart := TimedNet.linked_of_answer hpace hinv₀ hjoin hnew
    (TimedNet.isSome_server_of_run hrun hy)
  obtain ⟨own, other, hown, hother⟩ := hstart.run hpace hrun hinv₁ hx hy hflight hsent
  have hle := TimedNet.clock_le_of_run hrun
  constructor
  · cases hother with
    | heard hheard _ _ => exact hheard.mem_routes hinv
    | coming hcoming hdue =>
        have harrive := hinv.arriving _ _ hcoming hy
        omega
  · intro hlate
    cases hown with
    | heard hheard _ _ => exact hheard.mem_routes hinv
    | coming hcoming hdue =>
        have harrive := hinv.arriving _ _ hcoming hx
        omega

/-- Six seconds after the second server has got the join of the first, each is on the route
table of the other. -/
theorem routes_take_hold_crossing : ∃ past w₀ w₁ r es w,
    Run (TimedNet.Step ⟨60, 10, 5⟩) (twoServers.timed ⟨60, 10, 5⟩ 0) past w₀ ∧
      TimedNet.Step ⟨60, 10, 5⟩ w₀ (some (.delivery ⟨node 1, node 2, .join chat⟩ r)) w₁ ∧
      Run (TimedNet.Step ⟨60, 10, 5⟩) w₁ es w ∧ w.clock = 6 ∧
      node 1 ∈ w.net.routes (node 2) chat ∧ node 2 ∈ w.net.routes (node 1) chat := by
  have hfacts : ((twoServers.initial.replay (crossing.take 2)).bind fun p =>
      (p.2.act (.deliver (node 1) (node 2) ⟨0, 0⟩)).bind fun q =>
        (q.2.act (.deliver (node 2) (node 1) ⟨0, 0⟩)).map fun s =>
          ((p.1 ++ [q.1, s.1]).all (fun e => e.reaction?.any fun r => decide (r.env.now = 0)) &&
              (p.2.chan (node 2) chat).isNone &&
              ((s.2.server (node 1)).isSome && (s.2.server (node 2)).isSome),
            q.1.packet?, q.2.flight, packets s.1.node s.1.sent, s.2.flight)) =
      some (true, some ⟨node 1, node 2, .join chat⟩, [⟨node 2, node 1, .join chat⟩], [], []) := by
    decide
  obtain ⟨⟨past, g₀⟩, hreplay, hfacts⟩ := Option.bind_eq_some_iff.mp hfacts
  obtain ⟨⟨e₁, g₁⟩, hact₁, hfacts⟩ := Option.bind_eq_some_iff.mp hfacts
  obtain ⟨⟨e₂, g₂⟩, hact₂, hfacts⟩ := Option.map_eq_some_iff.mp hfacts
  simp only [Prod.mk.injEq, List.all_append, List.all_cons, List.all_nil, Bool.and_true,
    Bool.and_eq_true, List.all_eq_true, Option.isNone_iff_eq_none] at hfacts
  obtain ⟨⟨⟨⟨hpast, hnow₁, hnow₂⟩, hnew⟩, hup₁, hup₂⟩, hjoin, hflight₁, hsent₂, hflight₂⟩ :=
    hfacts
  have htime : ∀ {e : Event}, (e.reaction?.any fun r => decide (r.env.now = 0)) = true →
      ∀ r, e.reaction? = some r → r.env.now = 0 := by
    intro e h r hr
    rw [hr] at h
    exact of_decide_eq_true h
  obtain ⟨w₀, hrun₀, hnet₀, hclock₀⟩ := TimedNet.run_of_net ⟨60, 10, 5⟩
    (twoServers.timed ⟨60, 10, 5⟩ 0) (Net.run_of_replay hreplay) rfl
    fun e he => htime (hpast e he)
  subst hnet₀
  change w₀.clock = 0 at hclock₀
  have hinv₀ := twoServers.inv_of_timed hrun₀
  have hstep₁ := (Net.fifoStep_of_act hact₁).1
  obtain ⟨r, rfl⟩ : ∃ r, e₁ = .delivery ⟨node 1, node 2, .join chat⟩ r := by
    cases e₁ with
    | pass n r => cases hjoin
    | delivery p r =>
        cases hjoin
        exact ⟨r, rfl⟩
    | lost p => cases hnow₁
  have htimed₁ : TimedNet.Step ⟨60, 10, 5⟩ w₀ _ _ :=
    .event hstep₁ fun r' hr' => (htime hnow₁ r' hr').trans hclock₀.symm
  obtain ⟨w₂, hrun₂, hnet₂, hclock₂⟩ := TimedNet.run_of_net ⟨60, 10, 5⟩ _
    (.single (Net.fifoStep_of_act hact₂).1) (TimedNet.net_follow hstep₁) fun e he => by
      rw [List.mem_singleton.mp he]
      exact fun r' hr' => (htime hnow₂ r' hr').trans hclock₀.symm
  subst hnet₂
  change w₂.clock = w₀.clock at hclock₂
  have hseconds := twoServers.run_seconds (k := 6) ((hrun₀.snoc htimed₁).append hrun₂)
    (by
      change w₂.clock + 6 ≤ 60
      omega)
    (by
      change w₂.clock + 6 ≤ 10
      omega) hflight₂
  have hrun := hrun₂.append hseconds
  obtain ⟨hfirst, hsecond⟩ := routes_take_hold (by decide) hrun₀ htimed₁ hnew hrun hup₁ hup₂
    (by
      rw [TimedNet.net_follow hstep₁, hflight₁]
      exact ⟨by decide, by decide⟩)
    fun e he => by
      have he₂ : e = e₂ := by
        simpa [List.mem_replicate] using he
      rw [he₂, hsent₂]
      exact ⟨List.not_mem_nil, List.not_mem_nil⟩
  refine ⟨_, _, _, _, _, _, hrun₀, htimed₁, hrun, ?_, hfirst, hsecond ?_⟩
  · change w₂.clock + 6 = 6
    omega
  · change w₀.clock + 5 < w₂.clock + 6
    omega

end CliMessaging.Distributed
