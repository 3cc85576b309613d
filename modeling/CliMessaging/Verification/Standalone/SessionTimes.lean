import CliMessaging.Verification.Standalone.InactivityScan
import CliMessaging.Verification.Standalone.Sessions

/-! # The times of sessions

The time in the record of a client is that of its last request, so a scan ends its session
exactly 120 seconds later. -/

namespace CliMessaging.Standalone

open State Transition

/-- When a client made the request of a pass. -/
def Pass.requestTime (a : SockAddr) (p : Pass) : Option ℕ :=
  match p.input with
  | .recv b _ => if b = a then some p.env.now else none
  | .scan => none

/-- When a client made its last request. -/
def lastRequest (ps : List Pass) (a : SockAddr) : Option ℕ := lastStamp (Pass.requestTime a) ps

variable {st st' : State} {env : Env} {a b : SockAddr} {name : Uname} {req : ClientRequest}
  {sent : List Datagram} {v : User} {p : Pass} {t : ℕ}

/-- The records of the client at `a` carry the time `t`. -/
def State.SeenAt (st : State) (a : SockAddr) (t : ℕ) : Prop :=
  ∀ v, st.Record v → v.cliaddr = a → v.lastSeen = UInt32.ofNat t

namespace State

theorem Inv.record_of_recv (h : st.Inv) (heff : st.Effect env (.recv b req) st' sent)
    (hkey : v.ipPort ≠ clientKey b) (hv : st'.Record v) : st.Record v := by
  by_cases hreq : keepsSessions req
  · rcases (h.directory.record_seen (heff.seen hreq) v).mp hv with ⟨hold, -⟩ | ⟨w, -, hw, rfl⟩
    · exact hold
    · exact absurd hw hkey
  · cases heff with
    | login hdir hrec hch =>
        rcases (hrec v).mp hv with ⟨hold, -⟩ | rfl
        · exact hold
        · exact absurd rfl hkey
    | logout hdir hrec hch => exact ((hrec v).mp hv).1
    | stranger hneeds hget => exact absurd (keepsSessions_of_needsUser hneeds) hreq
    | _ => exact absurd rfl hreq

/-- The record that a request leaves carries the time of the request. -/
theorem Files.lastSeen {now : ℕ} (h : st.Files now a v req) : v.lastSeen = UInt32.ofNat now := by
  cases req with
  | login name =>
      rw [show v = _ from h]
  | logout => exact h.elim
  | _ =>
      obtain ⟨w, -, -, rfl⟩ := h
      rfl

/-- After a request from `a`, the record under the key of `a` carries the time of it. -/
theorem Inv.seenAt_of_recv (h : st.Inv) (heff : st.Effect env (.recv a req) st' sent) :
    st'.SeenAt a env.now := by
  intro v hv haddr
  have hkey := (h.of_effect heff).directory.record_ipPort hv
  rw [haddr] at hkey
  exact ((h.record_key heff v).mp ⟨hv, hkey⟩).lastSeen

theorem Inv.record_of_step (h : st.Inv) (hstep : st.Step p st')
    (hrequest : p.requestTime a = none) (haddr : v.cliaddr = a) (hv : st'.Record v) :
    st.Record v := by
  obtain ⟨env, input, sent⟩ := p
  have heff := h.effect_of_ok hstep
  cases input with
  | recv b req =>
      have hne : b ≠ a := by
        rintro rfl
        simp [Pass.requestTime] at hrequest
      apply h.record_of_recv heff _ hv
      rw [(h.of_effect heff).directory.record_ipPort hv, haddr]
      exact fun heq => hne (clientKey_injective heq).symm
  | scan =>
      cases heff with
      | scan hdir hch hrec =>
          obtain ⟨q, hq, hcell, -⟩ := (hrec v).mp hv
          exact ⟨q, hq, hcell⟩

theorem Inv.seenAt_of_step (h : st.Inv) (hstep : st.Step p st')
    (hrequest : p.requestTime a = some t) : st'.SeenAt a t := by
  obtain ⟨env, input, sent⟩ := p
  cases input with
  | recv b req =>
      by_cases hb : b = a
      · subst hb
        have htime : env.now = t := by simpa [Pass.requestTime] using hrequest
        rw [← htime]
        exact h.seenAt_of_recv (h.effect_of_ok hstep)
      · simp [Pass.requestTime, hb] at hrequest
  | scan => cases hrequest

/-- The record of a session carries the time of the last request of its client. -/
theorem seenAt_of_run {ps : List Pass} (hrun : Run State.Step State.initial ps st)
    (hsession : (name, a) ∈ st.sessions) : ∃ t, lastRequest ps a = some t ∧ st.SeenAt a t := by
  apply hrun.lastStamp (Pass.requestTime a) (fun s => s.SeenAt a) (I := State.Inv)
    (P := fun s => (name, a) ∈ s.sessions)
    (fun _ _ _ h hstep => h.of_effect (h.effect_of_ok hstep))
    (fun _ _ _ _ h hstep hrequest _ => h.seenAt_of_step hstep hrequest) _ State.inv_initial _
    hsession
  · rintro s p s' h hstep hrequest ⟨v, hv, hname, haddr⟩
    refine ⟨⟨v, h.record_of_step hstep hrequest haddr hv, hname, haddr⟩, fun t ht w hw hw' => ?_⟩
    exact ht w (h.record_of_step hstep hrequest hw' hw) hw'
  · rintro ⟨v, ⟨p, hp, -⟩, -⟩
    cases hp

end State

/-- A scan spares a session if it judges its time recent. -/
theorem State.Inv.scan_sessions (h : st.Inv) {count : ℤ} {now : ℕ}
    (heff : st.Effect ⟨fun _ => now, count⟩ .scan st' sent) (hv : st.Record v)
    (hname : v.username = name) (haddr : v.cliaddr = a) :
    (name, a) ∈ st'.sessions ↔ (now : ℤ) - v.lastSeen.toNat ≤ 120 := by
  obtain ⟨p, hp, hcell⟩ := hv
  cases heff with
  | scan hdir hch hrec =>
      have hrecent : Spared st (fun _ => now) 0 st.userList p ↔
          (now : ℤ) - v.lastSeen.toNat ≤ 120 := by
        rw [spared_iff_recent hp, Recent]
        constructor
        · exact fun hall => hall v hcell
        · intro htime u hu
          rw [hcell] at hu
          cases hu
          exact htime
      rw [← hrecent]
      constructor
      · rintro ⟨w, hw, hwname, hwaddr⟩
        obtain ⟨q, hq, hcell', hspared⟩ := (hrec w).mp hw
        obtain rfl : q = p :=
          h.directory.eq_of_name hq hp hcell' hcell (hwname.trans hname.symm)
        exact hspared
      · exact fun hspared => ⟨v, (hrec v).mpr ⟨p, hp, hcell, hspared⟩, hname, haddr⟩

/-- After any run, the record of a session carries the time of the last request of its client,
of whichever kind, and a scan ends the session exactly if that is more than 120 seconds ago. -/
theorem sessions_expire_exactly {ps : List Pass} (hrun : Run State.Step State.initial ps st)
    (hsession : (name, a) ∈ st.sessions) :
    ∃ t, lastRequest ps a = some t ∧ st.SeenAt a t ∧ ∀ (now : ℕ) (count : ℤ),
      ∃ st', st.react ⟨fun _ => now, count⟩ .scan = .ok (st', []) ∧
        ((name, a) ∈ st'.sessions ↔ now ≤ t % 2 ^ 32 + 120) := by
  have hinv : st.Inv := State.Reachable.inv ⟨ps, hrun⟩
  obtain ⟨t, hlast, hseen⟩ := State.seenAt_of_run hrun hsession
  obtain ⟨v, hv, hname, haddr⟩ := hsession
  refine ⟨t, hlast, hseen, fun now count => ?_⟩
  rcases hinv.outcome ⟨fun _ => now, count⟩ .scan with
    ⟨⟨-, hempty, -⟩, -⟩ | ⟨st', sent, hok, heff⟩
  · obtain ⟨p, hp, -⟩ := hv
    rw [hempty] at hp
    cases hp
  · have hscan := hinv.scan_sessions heff hv hname haddr
    cases heff
    refine ⟨st', hok, hscan.trans ?_⟩
    rw [hseen v hv haddr, UInt32.toNat_ofNat']
    omega

/-- Alice logs in and stays. -/
def vigil : List Pass :=
  [⟨.at 0, .recv (desk 1) (.login alice), []⟩, ⟨.at 100, .recv (desk 1) .keepAlive, []⟩]

/-- A scan at time 200 spares her, and one at time 221 does not. -/
theorem sessions_expire_exactly_vigil : ∃ st st' st'', Run State.Step State.initial vigil st ∧
    st.react (.at 200) .scan = .ok (st', []) ∧ (alice, desk 1) ∈ st'.sessions ∧
    st.react (.at 221) .scan = .ok (st'', []) ∧ (alice, desk 1) ∉ st''.sessions := by
  obtain ⟨st, hrun, haddr⟩ : ∃ st, Run State.Step State.initial vigil st ∧
      st.addressOf alice = some (desk 1) :=
    ⟨_, .cons rfl (.cons rfl (.nil _)), by decide⟩
  have hinv : st.Inv := State.Reachable.inv ⟨vigil, hrun⟩
  have hsession := hinv.directory.addressOf_eq_some.mp haddr
  obtain ⟨t, hlast, -, hscan⟩ := sessions_expire_exactly hrun hsession
  have htime : lastRequest vigil (desk 1) = some 100 := by decide
  obtain rfl : t = 100 := Option.some.inj (hlast.symm.trans htime)
  obtain ⟨st', hok, hiff⟩ := hscan 200 0
  obtain ⟨st'', hok', hiff'⟩ := hscan 221 0
  exact ⟨st, st', st'', hrun, hok, hiff.mpr (by decide), hok', mt hiff'.mp (by decide)⟩

end CliMessaging.Standalone
