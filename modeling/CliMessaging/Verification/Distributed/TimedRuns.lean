import CliMessaging.Model.Distributed.TimedNetwork
import CliMessaging.Verification.Distributed.Hearing
import CliMessaging.Verification.Distributed.Histories

/-! # Runs in time

A timed run is a run of the network whose events happen in time. -/

namespace CliMessaging.Distributed

open State Transition

variable {T : Topology} {timing : Timing} {w w' : TimedNet} {g g' : Net} {e : Event}
  {es : List (Option Event)} {n : Addressable} {st st' : State} {p : Packet} {due : ℕ}

/-- What has become of a server that is running after a step. -/
theorem Net.Step.server_cases (h : Net.Step g e g') (hst' : g'.server n = some st') :
    (g.server n = some st' ∧ ∀ r, ¬ e.Handles n r) ∨
      ∃ st r, g.server n = some st ∧ e.Handles n r ∧ st.Step r st' := by
  have hupdate : ∀ {g₁ : Net} {m : Addressable} {st : State} {r : Reaction},
      g₁.server = g.server → g.server m = some st → st.Reacts r → e.Handles m r →
      (g₁.update m r).server n = some st' →
      (g.server n = some st' ∧ ∀ r, ¬ e.Handles n r) ∨
        ∃ st r, g.server n = some st ∧ e.Handles n r ∧ st.Step r st' := by
    intro g₁ m st r hg hst hr hhandles hafter
    by_cases hn : n = m
    · subst hn
      rw [Net.update_server_self] at hafter
      exact Or.inr ⟨st, r, hst, hhandles, hr, hafter⟩
    · rw [Net.update_server_of_ne hn, hg] at hafter
      exact Or.inl ⟨hafter, fun r' hr' => hn (hr'.node_eq.symm.trans hhandles.node_eq)⟩
  cases h with
  | pass hst hr hkind => exact hupdate rfl hst hr (.pass hkind) hst'
  | delivery hp hst hr hinput => exact hupdate rfl hst hr (.delivery hinput) hst'
  | lost hp hst => exact Or.inl ⟨hst', fun r hr => by cases hr⟩

theorem Net.Step.isSome_server (h : Net.Step g e g') (hn : (g'.server n).isSome) :
    (g.server n).isSome := by
  obtain ⟨st', hst'⟩ := Option.isSome_iff_exists.mp hn
  rcases h.server_cases hst' with ⟨hst, -⟩ | ⟨st, -, hst, -⟩
  · rw [hst]
    rfl
  · rw [hst]
    rfl

theorem Event.wakes_iff {loop : Input} :
    e.wakes loop n = true ↔ ∃ r, e = .pass n r ∧ r.input = loop := by
  cases e with
  | pass m r =>
      rw [wakes, decide_eq_true_eq]
      constructor
      · rintro ⟨rfl, hinput⟩
        exact ⟨r, rfl, hinput⟩
      · rintro ⟨_, ⟨⟩, hinput⟩
        exact ⟨rfl, hinput⟩
  | delivery p r => simp [wakes]
  | lost p => simp [wakes]

namespace TimedNet

/-! ## After an event -/

@[simp] theorem follow_clock (server : Addressable → Option State) :
    (w.follow timing e server).clock = w.clock := rfl

theorem follow_nextSend (server : Addressable → Option State) :
    (w.follow timing e server).nextSend n =
      if e.wakes .joinSend n then w.clock + timing.send else w.nextSend n := rfl

theorem follow_nextCheck (server : Addressable → Option State) :
    (w.follow timing e server).nextCheck n =
      if e.wakes .serverTimeout n then w.clock + timing.check else w.nextCheck n := rfl

theorem map_fst_eraseP (flight : List (Packet × ℕ)) (p : Packet) :
    (flight.eraseP fun q => decide (q.1 = p)).map Prod.fst = (flight.map Prod.fst).erase p := by
  rw [List.erase_eq_eraseP', List.eraseP_map]
  congr

/-- The times follow the events of the network. -/
theorem net_follow (h : Net.Step w.net e g) : (w.follow timing e g.server).net = g := by
  have hsent : ∀ ps : List Packet,
      (ps.map fun p => (p, w.clock + timing.latency)).map Prod.fst = ps := by
    intro ps
    rw [List.map_map]
    exact List.map_id ps
  cases h with
  | @pass n st r hst hr hkind => simp [net, follow, remaining, Event.packet?, Event.sent,
      Event.reaction?, Event.node, Net.update, hsent]
  | @delivery p st r hp hst hr hinput => simp [net, follow, remaining, Event.packet?, Event.sent,
      Event.reaction?, Event.node, Net.update, Net.take, hsent, map_fst_eraseP]
  | @lost p hp hst => simp [net, follow, remaining, Event.packet?, Event.sent,
      Event.reaction?, packets, Net.take, map_fst_eraseP]

theorem mem_follow_sent {server : Addressable → Option State} (hp : p ∈ packets e.node e.sent) :
    (p, w.clock + timing.latency) ∈ (w.follow timing e server).flight :=
  List.mem_append_right _ (List.mem_map_of_mem hp)

/-- A datagram that is in flight after an event was so before or is sent in it. -/
theorem mem_follow_cases {server : Addressable → Option State}
    (h : (p, due) ∈ (w.follow timing e server).flight) :
    (p, due) ∈ w.flight ∨ p ∈ packets e.node e.sent ∧ due = w.clock + timing.latency := by
  rcases List.mem_append.mp h with h | h
  · left
    rw [remaining] at h
    split at h
    · exact List.mem_of_mem_eraseP h
    · exact h
  · obtain ⟨q, hq, heq⟩ := List.mem_map.mp h
    cases heq
    exact Or.inr ⟨hq, rfl⟩

/-- A datagram stays in flight until it arrives. -/
theorem mem_follow {server : Addressable → Option State} (h : (p, due) ∈ w.flight)
    (hp : e.packet? ≠ some p) : (p, due) ∈ (w.follow timing e server).flight := by
  apply List.mem_append_left
  rw [remaining]
  split
  · rename_i q hq
    have hne : p ≠ q := fun heq => hp (heq ▸ hq)
    rwa [List.mem_eraseP_of_neg (by simpa using hne)]
  · exact h

/-! ## The invariant -/

/-- Everything happens in time, and every server is in a state that it can reach. -/
structure Inv (T : Topology) (timing : Timing) (w : TimedNet) : Prop where
  awake : ∀ n, (w.server n).isSome → w.clock ≤ w.nextSend n ∧ w.clock ≤ w.nextCheck n
  soon : ∀ n, w.nextSend n ≤ w.clock + timing.send ∧ w.nextCheck n ≤ w.clock + timing.check
  arriving : ∀ p due, (p, due) ∈ w.flight → (w.server p.dst).isSome → w.clock ≤ due
  near : ∀ p due, (p, due) ∈ w.flight → due ≤ w.clock + timing.latency
  reached : ∀ n st, w.server n = some st → State.Reachable (T.adj n) st

theorem Inv.second (h : w.Inv T timing)
    (hloops : ∀ n, (w.server n).isSome → w.clock < w.nextSend n ∧ w.clock < w.nextCheck n)
    (hflight : ∀ q ∈ w.flight, (w.server q.1.dst).isSome → w.clock < q.2) :
    Inv T timing { w with clock := w.clock + 1 } where
  awake n hn := hloops n hn
  soon n := by
    obtain ⟨hsend, hcheck⟩ := h.soon n
    constructor
    · change w.nextSend n ≤ w.clock + 1 + timing.send
      omega
    · change w.nextCheck n ≤ w.clock + 1 + timing.check
      omega
  arriving p due hp hdst := hflight (p, due) hp hdst
  near p due hp := by
    have hnear := h.near p due hp
    change due ≤ w.clock + 1 + timing.latency
    omega
  reached := h.reached

theorem Inv.follow (h : w.Inv T timing) (hstep : Net.Step w.net e g) :
    (w.follow timing e g.server).Inv T timing where
  awake n hn := by
    obtain ⟨hsend, hcheck⟩ := h.awake n (hstep.isSome_server hn)
    constructor
    · rw [follow_nextSend, follow_clock]
      split <;> omega
    · rw [follow_nextCheck, follow_clock]
      split <;> omega
  soon n := by
    obtain ⟨hsend, hcheck⟩ := h.soon n
    constructor
    · rw [follow_nextSend, follow_clock]
      split <;> omega
    · rw [follow_nextCheck, follow_clock]
      split <;> omega
  arriving p due hp hdst := by
    rcases mem_follow_cases hp with hp | ⟨-, rfl⟩
    · exact h.arriving p due hp (hstep.isSome_server hdst)
    · exact Nat.le_add_right _ _
  near p due hp := by
    rcases mem_follow_cases hp with hp | ⟨-, rfl⟩
    · exact h.near p due hp
    · exact le_rfl
  reached n st' hst' := by
    rcases hstep.server_cases hst' with ⟨hst, -⟩ | ⟨st, r, hst, -, hstep⟩
    · exact h.reached n st' hst
    · obtain ⟨rs, hrun, -⟩ := h.reached n st hst
      exact ⟨rs ++ [r], hrun.snoc hstep, fun _ _ => trivial⟩

theorem Inv.step {e : Option Event} (h : w.Inv T timing) (hstep : Step timing w e w') :
    w'.Inv T timing := by
  cases hstep with
  | second hloops hflight => exact h.second hloops hflight
  | event hstep hnow => exact h.follow hstep

end TimedNet

theorem Topology.inv_timed (T : Topology) (timing : Timing) (now : ℕ) :
    (T.timed timing now).Inv T timing where
  awake n _ := ⟨Nat.le_add_right _ _, Nat.le_add_right _ _⟩
  soon n := ⟨le_rfl, le_rfl⟩
  arriving p due hp := by cases hp
  near p due hp := by cases hp
  reached n st hst := by
    simp only [timed, initial] at hst
    split at hst
    · cases hst
      exact ⟨[], .nil _, fun _ _ => trivial⟩
    · cases hst

theorem Topology.inv_of_timed {now : ℕ}
    (hrun : Run (TimedNet.Step timing) (T.timed timing now) es w) : w.Inv T timing :=
  hrun.invariant (P := fun _ => True) (fun _ _ _ h _ hstep => h.step hstep) (fun _ _ => trivial)
    (T.inv_timed timing now)

/-- Without its times a timed run is a run of the network. -/
theorem TimedNet.run_net (hrun : Run (TimedNet.Step timing) w es w') :
    Run Net.Step w.net (es.filterMap id) w'.net := by
  have hstep : ∀ w e w' g, g = w.net → TimedNet.Step timing w e w' →
      ∃ g', Run Net.Step g (id e).toList g' ∧ g' = w'.net := by
    rintro w e w' _ rfl hstep
    cases hstep with
    | second hloops hflight => exact ⟨_, .nil _, rfl⟩
    | event hstep hnow => exact ⟨_, .single hstep, (net_follow hstep).symm⟩
  obtain ⟨g, hg, rfl⟩ := hrun.stuttering hstep rfl
  exact hg

theorem TimedNet.isSome_server_of_run (hrun : Run (TimedNet.Step timing) w es w')
    (hn : (w'.server n).isSome) : (w.server n).isSome := by
  induction hrun with
  | nil => exact hn
  | cons hstep _ ih =>
      cases hstep with
      | second hloops hflight => exact ih hn
      | event hstep hnow => exact hstep.isSome_server (ih hn)

theorem TimedNet.clock_le_of_run (hrun : Run (TimedNet.Step timing) w es w') :
    w.clock ≤ w'.clock := by
  induction hrun with
  | nil => exact le_rfl
  | cons hstep _ ih =>
      cases hstep with
      | second hloops hflight => exact (Nat.le_succ _).trans ih
      | event hstep hnow => exact ih

/-! ## Possible runs -/

namespace TimedNet

/-- No loop has to wake up earlier because something has happened. -/
theorem next_le_of_run (hrun : Run (Step timing) w es w') (hinv : w.Inv T timing)
    (n : Addressable) :
    w.nextSend n ≤ w'.nextSend n ∧ w.nextCheck n ≤ w'.nextCheck n := by
  induction hrun with
  | nil => exact ⟨le_rfl, le_rfl⟩
  | @cons w _ _ _ _ hstep _ ih =>
      have hrest := ih (hinv.step hstep)
      cases hstep with
      | second hloops hflight => exact hrest
      | @event e g hstep hnow =>
          obtain ⟨hsend, hcheck⟩ := hinv.soon n
          constructor
          · refine le_trans ?_ hrest.1
            rw [follow_nextSend]
            split
            · exact hsend
            · exact le_rfl
          · refine le_trans ?_ hrest.2
            rw [follow_nextCheck]
            split
            · exact hcheck
            · exact le_rfl

/-- Whatever happens in the network can happen within a second. -/
theorem run_of_net {fs : List Event} (timing : Timing) (w : TimedNet) (hrun : Run Net.Step g fs g')
    (hnet : w.net = g) (hnow : ∀ e ∈ fs, ∀ r, e.reaction? = some r → r.env.now = w.clock) :
    ∃ w', Run (Step timing) w (fs.map some) w' ∧ w'.net = g' ∧ w'.clock = w.clock := by
  induction hrun generalizing w with
  | nil => exact ⟨w, .nil w, hnet, rfl⟩
  | @cons _ g₁ _ e _ hstep _ ih =>
      subst hnet
      obtain ⟨w', hrest, hnet', hclock'⟩ := ih (w.follow timing e g₁.server) (net_follow hstep)
        fun f hf => hnow f (List.mem_cons_of_mem _ hf)
      exact ⟨w', .cons (.event hstep (hnow e List.mem_cons_self)) hrest, hnet', hclock'⟩

/-- Nothing has to happen while the loops sleep and no datagram is in flight. -/
theorem run_seconds (timing : Timing) (w : TimedNet) (k : ℕ)
    (hloops : ∀ n, (w.server n).isSome →
      w.clock + k ≤ w.nextSend n ∧ w.clock + k ≤ w.nextCheck n)
    (hflight : w.net.flight = []) :
    Run (Step timing) w (List.replicate k none) { w with clock := w.clock + k } := by
  have hempty : w.flight = [] := List.map_eq_nil_iff.mp hflight
  induction k with
  | zero => exact .nil w
  | succ k ih =>
      have hfirst := ih fun n hn => by
        obtain ⟨hsend, hcheck⟩ := hloops n hn
        exact ⟨by omega, by omega⟩
      rw [List.replicate_succ']
      refine hfirst.snoc (.second (fun n hn => ?_) fun q hq => ?_)
      · obtain ⟨hsend, hcheck⟩ := hloops n hn
        change w.clock + k < w.nextSend n ∧ w.clock + k < w.nextCheck n
        exact ⟨by omega, by omega⟩
      · change q ∈ w.flight at hq
        rw [hempty] at hq
        cases hq

end TimedNet

/-- Nor has anything to happen while the loops have not yet slept for once. -/
theorem Topology.run_seconds {now k : ℕ}
    (hrun : Run (TimedNet.Step timing) (T.timed timing now) es w)
    (hsend : w.clock + k ≤ now + timing.send) (hcheck : w.clock + k ≤ now + timing.check)
    (hflight : w.net.flight = []) :
    Run (TimedNet.Step timing) w (List.replicate k none) { w with clock := w.clock + k } := by
  apply TimedNet.run_seconds timing w k (fun n _ => ?_) hflight
  obtain ⟨hsend', hcheck'⟩ := TimedNet.next_le_of_run hrun (T.inv_timed timing now) n
  exact ⟨hsend.trans hsend', hcheck.trans hcheck'⟩

end CliMessaging.Distributed
