import CliMessaging.Verification.Distributed.Deliveries
import CliMessaging.Verification.Distributed.TimedRuns

/-! # How routes die

The time-out loop of a running server looks at its route tables in time, so that no server
stays on one for much longer than two minutes after it was last heard from. -/

namespace CliMessaging.Distributed

open State Transition

namespace TimedNet

/-- Every server on a route table has been heard from at a time of which `P` holds, and the next
pass of the time-out loop is due before that time is too long ago. -/
def Stamped (timing : Timing) (w : TimedNet)
    (P : Addressable → Cname → Addressable → ℕ → Prop) : Prop :=
  ∀ x st name y t, w.server x = some st → st.heard name y = some t →
    ∃ last, t = UInt32.ofNat last ∧ P x name y last ∧ last ≤ w.clock ∧
      w.nextCheck x ≤ last + 120 + timing.check

end TimedNet

variable {T : Topology} {timing : Timing} {w w' : TimedNet} {g : Net} {e : Event}
  {es es' : List (Option Event)} {x y : Addressable} {name : Cname} {now : ℕ}
  {P Q : Addressable → Cname → Addressable → ℕ → Prop}

namespace TimedNet

theorem nextCheck_follow_le (hinv : w.Inv T timing) (server : Addressable → Option State) :
    (w.follow timing e server).nextCheck x ≤ w.clock + timing.check := by
  have hsoon := (hinv.soon x).2
  rw [follow_nextCheck]
  split
  · exact le_rfl
  · exact hsoon

theorem Stamped.follow (hcheck : 120 + timing.check < 2 ^ 32) (hinv : w.Inv T timing)
    (hstep : Net.Step w.net e g) (hnow : ∀ r, e.reaction? = some r → r.env.now = w.clock)
    (h : w.Stamped timing P) (hold : ∀ x name y last, P x name y last → Q x name y last)
    (hnew : ∀ x name y r, e = .delivery ⟨y, x, .join name⟩ r → (w.server x).isSome →
      Q x name y w.clock) :
    (w.follow timing e g.server).Stamped timing Q := by
  intro x st' name y t hst' hheard
  rcases hstep.server_cases hst' with ⟨hst, hidle⟩ | ⟨st, r, hst, hhandles, hserver⟩
  · obtain ⟨last, ht, hP, hle, hnext⟩ := h x st' name y t hst hheard
    refine ⟨last, ht, hold _ _ _ _ hP, hle, ?_⟩
    have hwake : e.wakes .serverTimeout x = false := by
      rw [Bool.eq_false_iff]
      intro hwake
      obtain ⟨r, rfl, hinput⟩ := Event.wakes_iff.mp hwake
      exact hidle r (.pass fun src msg hrecv => by rw [hinput] at hrecv; cases hrecv)
    rw [follow_nextCheck, hwake]
    exact hnext
  · have hreach := hinv.reached x st hst
    have hup : (w.server x).isSome := Option.isSome_iff_exists.mpr ⟨st, hst⟩
    have htime : r.env.now = w.clock := by
      apply hnow
      cases hhandles <;> rfl
    have heff := hreach.inv.effect_of_step hserver
    rcases hreach.inv.heard_before heff hheard with ⟨hinput, rfl⟩ | hbefore
    · refine ⟨w.clock, by rw [htime], ?_, le_rfl, ?_⟩
      · exact hnew x name y r (hhandles.eq_delivery hinput) hup
      · exact (nextCheck_follow_le hinv g.server).trans (by omega)
    · obtain ⟨last, rfl, hP, hle, hnext⟩ := h x st name y t hst hbefore
      refine ⟨last, rfl, hold _ _ _ _ hP, hle, ?_⟩
      have hawake := (hinv.awake x hup).2
      rw [follow_nextCheck]
      split
      · -- the entry has survived a pass of the time-out loop
        rename_i hwake
        obtain ⟨r', rfl, hinput⟩ := Event.wakes_iff.mp hwake
        have hsurvived := hheard
        cases hhandles with
        | pass hkind =>
            rw [hreach.heard_check hserver hinput, hbefore, Option.filter_some, htime] at hsurvived
            split at hsurvived
            · rename_i hrecent
              rw [decide_eq_true_eq, lt_ofNat_sub_ofNat hle (by omega)] at hrecent
              change ¬ 120 < w.clock - last at hrecent
              omega
            · cases hsurvived
      · exact hnext

theorem Stamped.second (h : w.Stamped timing P)
    (hold : ∀ x name y last, P x name y last → Q x name y last) :
    Stamped timing { w with clock := w.clock + 1 } Q := by
  intro x st name y t hst hheard
  obtain ⟨last, ht, hP, hle, hnext⟩ := h x st name y t hst hheard
  exact ⟨last, ht, hold _ _ _ _ hP, hle.trans (Nat.le_succ _), hnext⟩

theorem Stamped.of_mem_routes (hinv : w.Inv T timing) (h : w.Stamped timing P)
    (hroute : y ∈ w.net.routes x name) :
    ∃ last, P x name y last ∧ w.clock ≤ last + 120 + timing.check := by
  have hhas := Net.has_of_mem_routes hroute
  obtain ⟨st, hst⟩ := Option.isSome_iff_exists.mp (Net.isSome_chan_of_server hhas)
  rw [Net.routes_of_server hst, ← (hinv.reached x st hst).isSome_heard] at hroute
  obtain ⟨t, ht⟩ := Option.isSome_iff_exists.mp hroute
  obtain ⟨last, -, hP, -, hnext⟩ := h x st name y t hst ht
  have hawake := (hinv.awake x (Option.isSome_iff_exists.mpr ⟨st, hst⟩)).2
  exact ⟨last, hP, hawake.trans hnext⟩

end TimedNet

/-! ## Routes are fresh -/

/-- In `es`, the server at `x` got a join for the channel from the one at `y` at the time given. -/
def JoinedAt (es : List (Option Event)) (x : Addressable) (name : Cname) (y : Addressable)
    (last : ℕ) : Prop :=
  ∃ r, some (.delivery ⟨y, x, .join name⟩ r) ∈ es ∧ r.env.now = last

theorem Topology.stamped_of_timed (hcheck : 120 + timing.check < 2 ^ 32)
    (hrun : Run (TimedNet.Step timing) (T.timed timing now) es w) :
    w.Inv T timing ∧ w.Stamped timing (JoinedAt es) := by
  let I : List (Option Event) → TimedNet → Prop := fun es w =>
    w.Inv T timing ∧ w.Stamped timing (JoinedAt es)
  have hstart : I [] (T.timed timing now) := by
    refine ⟨T.inv_timed timing now, fun x st name y t hst hheard => ?_⟩
    simp only [timed, initial] at hst
    split at hst
    · cases hst
      cases hheard
    · cases hst
  have hstep : ∀ past w e w', I past w → True → TimedNet.Step timing w e w' →
      I (past ++ [e]) w' := by
    rintro past w e w' ⟨hinv, h⟩ - hstep
    have hold : ∀ x name y last, JoinedAt past x name y last →
        JoinedAt (past ++ [e]) x name y last := by
      rintro x name y last ⟨r, hr, hnow⟩
      exact ⟨r, List.mem_append_left _ hr, hnow⟩
    refine ⟨hinv.step hstep, ?_⟩
    cases hstep with
    | second hloops hflight => exact h.second hold
    | event hstep hnow =>
        apply h.follow hcheck hinv hstep hnow hold
        rintro x name y r rfl -
        exact ⟨r, by simp, hnow r rfl⟩
  exact hrun.history (P := fun _ => True) hstep (fun _ _ => trivial) [] hstart

/-- In every run in which the servers keep to their times, each server on a route table has sent
a join for the channel that arrived there at most 120 seconds and one period of the time-out
loop ago. -/
theorem routes_are_fresh (hcheck : 120 + timing.check < 2 ^ 32)
    (hrun : Run (TimedNet.Step timing) (T.timed timing now) es w)
    (hroute : y ∈ w.net.routes x name) :
    ∃ r, some (.delivery ⟨y, x, .join name⟩ r) ∈ es ∧
      w.clock ≤ r.env.now + 120 + timing.check := by
  obtain ⟨hinv, h⟩ := T.stamped_of_timed hcheck hrun
  obtain ⟨last, ⟨r, hr, rfl⟩, hrecent⟩ := h.of_mem_routes hinv hroute
  exact ⟨r, hr, hrecent⟩

/-- Two servers that have told each other of a channel in the first second. -/
theorem exists_acquainted (timing : Timing) : ∃ es w,
    Run (TimedNet.Step timing) (twoServers.timed timing 0) es w ∧ w.clock = 0 ∧
      w.net.flight = [] ∧ node 2 ∈ w.net.routes (node 1) chat := by
  have hfacts : (twoServers.initial.replay (crossing.take 4)).map (fun p =>
      (p.1.all (fun e => e.reaction?.all fun r => decide (r.env.now = 0)), p.2.flight,
        p.2.routes (node 1) chat)) = some (true, [], [node 2]) := by decide
  obtain ⟨⟨es, g⟩, hreplay, hfacts⟩ := Option.map_eq_some_iff.mp hfacts
  simp only [Prod.mk.injEq, List.all_eq_true] at hfacts
  obtain ⟨hnow, hflight, hroutes⟩ := hfacts
  obtain ⟨w, hrun, rfl, hclock⟩ := TimedNet.run_of_net timing (twoServers.timed timing 0)
    (Net.run_of_replay hreplay) rfl fun e he r hr => by
      have hall := hnow e he
      rw [hr] at hall
      exact of_decide_eq_true hall
  refine ⟨_, w, hrun, hclock, hflight, ?_⟩
  rw [hroutes]
  exact List.mem_singleton_self _

theorem routes_are_fresh_acquainted : ∃ es w r,
    Run (TimedNet.Step ⟨60, 10, 5⟩) (twoServers.timed ⟨60, 10, 5⟩ 0) es w ∧ w.clock = 10 ∧
      some (.delivery ⟨node 2, node 1, .join chat⟩ r) ∈ es ∧ w.clock ≤ r.env.now + 130 := by
  obtain ⟨es, w, hrun, hclock, hflight, hroute⟩ := exists_acquainted ⟨60, 10, 5⟩
  have hseconds := twoServers.run_seconds (k := 10) hrun
    (by
      change w.clock + 10 ≤ 60
      omega)
    (by
      change w.clock + 10 ≤ 10
      omega) hflight
  obtain ⟨r, hr, hrecent⟩ := routes_are_fresh (by decide) (hrun.append hseconds) hroute
  refine ⟨_, _, r, hrun.append hseconds, ?_, hr, hrecent⟩
  change w.clock + 10 = 10
  rw [hclock]

/-! ## Servers that have gone down -/

/-- The server at `y` is down, and the last of its datagrams arrive by `bound`. -/
structure TimedNet.Silent (w : TimedNet) (y : Addressable) (bound : ℕ) : Prop where
  down : w.server y = none
  flight : ∀ p due, (p, due) ∈ w.flight → p.src = y → due ≤ bound

theorem TimedNet.Silent.follow {bound : ℕ} (h : w.Silent y bound) (hstep : Net.Step w.net e g) :
    (w.follow timing e g.server).Silent y bound where
  down := by
    cases hy : g.server y with
    | none => exact hy
    | some st =>
        have hup := hstep.isSome_server (n := y) (by rw [hy]; rfl)
        have hnone : w.net.server y = none := h.down
        rw [hnone] at hup
        cases hup
  flight p due hp hsrc := by
    rcases mem_follow_cases hp with hp | ⟨hsent, -⟩
    · exact h.flight p due hp hsrc
    · have hnode : e.node = y := (mem_packets.mp hsent).1.symm.trans hsrc
      have hdown : w.net.server e.node = none := hnode ▸ h.down
      cases hstep with
      | pass hst hr hkind => cases hst.symm.trans hdown
      | delivery hflight hst hr hinput => cases hst.symm.trans hdown
      | lost hflight hst => exact absurd hsent List.not_mem_nil

/-- What the servers that are running have heard from one that is down. -/
theorem TimedNet.Silent.stamped {bound : ℕ} (hcheck : 120 + timing.check < 2 ^ 32)
    (hrun : Run (TimedNet.Step timing) w es w') (hinv : w.Inv T timing) (hsilent : w.Silent y bound)
    (h : w.Stamped timing fun _ _ y' last => y' = y → last ≤ bound) :
    w'.Inv T timing ∧ w'.Stamped timing fun _ _ y' last => y' = y → last ≤ bound := by
  let I : TimedNet → Prop := fun w => w.Inv T timing ∧ w.Silent y bound ∧
    w.Stamped timing fun _ _ y' last => y' = y → last ≤ bound
  have hstep : ∀ w e w', I w → True → TimedNet.Step timing w e w' → I w' := by
    rintro w e w' ⟨hinv, hsilent, h⟩ - hstep
    have hinv' := hinv.step hstep
    cases hstep with
    | second hloops hflight =>
        exact ⟨hinv', ⟨hsilent.down, hsilent.flight⟩, h.second fun _ _ _ _ => id⟩
    | event hstep hnow =>
        refine ⟨hinv', hsilent.follow hstep, ?_⟩
        apply h.follow hcheck hinv hstep hnow fun _ _ _ _ => id
        rintro x name z r rfl hup rfl
        cases hstep with
        | delivery hp hst hr hinput =>
            obtain ⟨⟨p, due⟩, hmem, heq⟩ := List.mem_map.mp hp
            change p = _ at heq
            subst heq
            exact (hinv.arriving _ _ hmem hup).trans (hsilent.flight _ _ hmem rfl)
  obtain ⟨hinv', -, h'⟩ := hrun.invariant (P := fun _ => True) hstep (fun _ _ => trivial)
    (show I w from ⟨hinv, hsilent, h⟩)
  exact ⟨hinv', h'⟩

/-- In every run in which the servers keep to their times, a server that has gone down is on no
route table any more once its last datagrams have had time to arrive and 120 seconds and one
period of the time-out loop have passed. -/
theorem crashed_servers_are_forgotten (hcheck : 120 + timing.check < 2 ^ 32)
    (hrun : Run (TimedNet.Step timing) (T.timed timing now) es w) (hdown : w.server y = none)
    (hlater : Run (TimedNet.Step timing) w es' w')
    (hlate : w.clock + timing.latency + 120 + timing.check < w'.clock) (x : Addressable)
    (name : Cname) : y ∉ w'.net.routes x name := by
  obtain ⟨hinv, h⟩ := T.stamped_of_timed hcheck hrun
  have hsilent : w.Silent y (w.clock + timing.latency) :=
    ⟨hdown, fun p due hp _ => hinv.near p due hp⟩
  have hbefore : w.Stamped timing fun _ _ y' last => y' = y → last ≤ w.clock + timing.latency := by
    intro x st name y' t hst hheard
    obtain ⟨last, ht, -, hle, hnext⟩ := h x st name y' t hst hheard
    exact ⟨last, ht, fun _ => hle.trans (Nat.le_add_right _ _), hle, hnext⟩
  obtain ⟨hinv', h'⟩ := hsilent.stamped hcheck hlater hinv hbefore
  intro hroute
  obtain ⟨last, hlast, hrecent⟩ := h'.of_mem_routes hinv' hroute
  have hbound := hlast rfl
  omega

/-- A leave of a stranger brings the second server down, which the first one notices when its
time-out loop wakes up. -/
theorem crashed_servers_are_forgotten_stranger : ∃ es w es' w',
    Run (TimedNet.Step ⟨400, 130, 5⟩) (twoServers.timed ⟨400, 130, 5⟩ 0) es w ∧
      w.server (node 2) = none ∧ node 2 ∈ w.net.routes (node 1) chat ∧
      Run (TimedNet.Step ⟨400, 130, 5⟩) w es' w' ∧ (w'.server (node 1)).isSome ∧
      node 2 ∉ w'.net.routes (node 1) chat := by
  have hfacts : ((twoServers.initial.replay (crossing.take 4 ++
      [.pass (node 2) ⟨0, 0⟩ (.recv (desk 2) (.client (.leave chat)))])).bind fun p =>
      (p.2.act (.pass (node 1) ⟨130, 0⟩ .serverTimeout)).map fun q =>
        (p.1.all (fun e => e.reaction?.all fun r => decide (r.env.now = 0)) &&
            q.1.reaction?.all (fun r => decide (r.env.now = 130)) &&
            (q.1.wakes .serverTimeout (node 1) && (p.2.server (node 2)).isNone) &&
            ((q.2.server (node 1)).isSome && (q.2.server (node 2)).isNone),
          p.2.flight, p.2.routes (node 1) chat, q.2.flight)) =
      some (true, [], [node 2], []) := by decide
  obtain ⟨⟨es, g⟩, hreplay, hfacts⟩ := Option.bind_eq_some_iff.mp hfacts
  obtain ⟨⟨e, g'⟩, hact, hfacts⟩ := Option.map_eq_some_iff.mp hfacts
  simp only [Prod.mk.injEq, Bool.and_eq_true, List.all_eq_true,
    Option.isNone_iff_eq_none] at hfacts
  obtain ⟨⟨⟨⟨hpast, hnow⟩, hwake, hdown⟩, hup, hdown'⟩, hflight, hroutes, hflight'⟩ := hfacts
  have hstep := (Net.fifoStep_of_act hact).1
  have hinv := twoServers.inv_timed ⟨400, 130, 5⟩ 0
  obtain ⟨w, hrun, rfl, hclock⟩ := TimedNet.run_of_net ⟨400, 130, 5⟩
    (twoServers.timed ⟨400, 130, 5⟩ 0) (Net.run_of_replay hreplay) rfl fun e he r hr => by
      have hall := hpast e he
      rw [hr] at hall
      exact of_decide_eq_true hall
  change w.clock = 0 at hclock
  have hfirst := twoServers.run_seconds (k := 130) hrun
    (by
      change w.clock + 130 ≤ 400
      omega)
    (by
      change w.clock + 130 ≤ 130
      omega) hflight
  let w₁ : TimedNet := { w with clock := w.clock + 130 }
  let w₂ : TimedNet := w₁.follow ⟨400, 130, 5⟩ e g'.server
  have htimed : TimedNet.Step ⟨400, 130, 5⟩ w₁ (some e) w₂ := .event hstep fun r hr => by
    rw [hr] at hnow
    change r.env.now = w.clock + 130
    rw [hclock]
    exact of_decide_eq_true hnow
  have hrun' := hfirst.snoc htimed
  have honly : ∀ n, (g'.server n).isSome → n = node 1 := by
    intro n hn
    have hnodes : n ∈ twoServers.nodes := by
      obtain ⟨st, hst⟩ := Option.isSome_iff_exists.mp hn
      have hinv' := (twoServers.inv_of_run (Net.run_of_replay hreplay)).step hstep
      exact hinv'.nodes n st hst
    have hcases : n = node 1 ∨ n = node 2 := by
      simpa [twoServers, Topology.complete] using hnodes
    rcases hcases with rfl | rfl
    · rfl
    · rw [hdown'] at hn
      cases hn
  have hnext' := TimedNet.next_le_of_run (hrun.append hrun') hinv
  have hsecond := TimedNet.run_seconds ⟨400, 130, 5⟩ w₂ 126 (fun n hn => by
    obtain rfl := honly n hn
    obtain ⟨hsend, -⟩ := hnext' (node 1)
    change 0 + 400 ≤ _ at hsend
    constructor
    · change w.clock + 130 + 126 ≤ _
      omega
    · rw [TimedNet.follow_nextCheck, hwake]
      change w.clock + 130 + 126 ≤ w.clock + 130 + 130
      omega) (by
      have hnet : w₂.net = g' := TimedNet.net_follow (w := w₁) hstep
      rw [hnet, hflight'])
  refine ⟨_, w, _, _, hrun, hdown, ?_, hrun'.append hsecond, hup,
    crashed_servers_are_forgotten (by decide) hrun hdown (hrun'.append hsecond) ?_ _ _⟩
  · rw [hroutes]
    exact List.mem_singleton_self _
  · change w.clock + 5 + 120 + 130 < w.clock + 130 + 126
    omega

end CliMessaging.Distributed
