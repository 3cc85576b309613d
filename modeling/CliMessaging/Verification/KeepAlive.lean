import CliMessaging.Library.Heartbeat
import CliMessaging.Model.Session
import CliMessaging.Verification.Chat
import CliMessaging.Verification.Client.Activity

/-! # Keep-alive

A client that is running sends something at least every 120 seconds, which is just enough
for the server to keep its session. -/

namespace CliMessaging

open Transition Client Standalone

namespace World

variable {link : Link} {w w' : World} {user : Uname} {last now : ℕ} {count : ℤ} {m : Moment}
  {ms : List Moment} {data : List UInt8} {sent : List Client.Datagram} {input : Client.Input}
  {src : SockAddr} {st st' : Standalone.State}

/-! ## Rounds of the server -/

@[simp] theorem clock_serve (w : World) (count : ℤ) (event : Standalone.Event) :
    (w.serve count event).clock = w.clock := rfl

theorem serve_of_ok {event : Standalone.Event} {out : List Standalone.Datagram}
    (hst : w.server = some st)
    (hok : st.serve ⟨fun _ => w.clock, count⟩ event = .ok (st', out)) :
    (w.serve count event).server = some st' := by
  simp only [serve, hst, Option.bind_some, hok]

/-- Only the server has changed. -/
structure SameSide (w w' : World) : Prop where
  clock : w'.clock = w.clock
  nextTick : w'.nextTick = w.nextTick
  client : w'.client = w.client

theorem foldl_serve (ds : List Client.Datagram) (w : World) : w.SameSide
    (ds.foldl (fun w d => w.serve count (.datagram link.client d.data)) w) := by
  induction ds generalizing w with
  | nil => exact ⟨rfl, rfl, rfl⟩
  | cons d ds ih =>
      have h := ih (w.serve count (.datagram link.client d.data))
      exact ⟨h.clock, h.nextTick, h.client⟩

theorem deliver_sameSide (link : Link) (count : ℤ) (w : World) (sent : List Client.Datagram) :
    w.SameSide (deliver link count w sent) :=
  foldl_serve _ w

/-! ## The session -/

/-- The server is up, and its user at the address of the client was last seen at `last`. -/
def Session (link : Link) (user : Uname) (last : ℕ) (w : World) : Prop :=
  ∃ st v, w.server = some st ∧ st.Inv ∧ st.Record v ∧ v.username = user ∧
    v.cliaddr = link.client ∧ v.lastSeen = UInt32.ofNat last

theorem not_stumbles {env : Env} {i : Standalone.Input} {v : User} (hv : st.Record v) :
    ¬ st.Stumbles env i := by
  obtain ⟨p, hp, -⟩ := hv
  rintro ⟨-, hempty, -⟩
  rw [hempty] at hp
  cases hp

/-- A round on an accepted request. -/
theorem serve_request {req : ClientRequest} (hst : w.server = some st) (h : st.Inv)
    (hacc : Accepts data req) (a : SockAddr) (count : ℤ)
    (hnot : ¬ st.Stumbles ⟨fun _ => w.clock, count⟩ (.recv a req)) :
    ∃ st' out, (w.serve count (.datagram a data)).server = some st' ∧ st'.Inv ∧
      st.Effect ⟨fun _ => w.clock, count⟩ (.recv a req) st' out := by
  rcases h.outcome ⟨fun _ => w.clock, count⟩ (.recv a req) with
    ⟨hstumbles, -⟩ | ⟨st', out, hok, heff⟩
  · exact absurd hstumbles hnot
  · exact ⟨st', out, serve_of_ok hst ((hacc.serverLoop st _ a).trans hok), h.of_effect heff, heff⟩

/-- A login of the client begins the session. -/
theorem session_of_login (hst : w.server = some st) (h : st.Inv) (hacc : Accepts data (.login user))
    (count : ℤ) : Session link user w.clock (w.serve count (.datagram link.client data)) := by
  obtain ⟨st', out, hst', hinv', heff⟩ :=
    serve_request hst h hacc link.client count fun hstumbles => hstumbles.1
  have hfiled := (h.record_key heff
    ⟨user, clientKey link.client, link.client, UInt32.ofNat w.clock⟩).mpr rfl
  exact ⟨st', _, hst', hinv', hfiled.1, rfl, rfl, rfl⟩

/-- Whatever the client asks for, it has been seen. -/
theorem Session.refresh (h : Session link user last w) (hdata : Refreshing data) (count : ℤ) :
    Session link user w.clock (w.serve count (.datagram link.client data)) := by
  obtain ⟨st, v, hst, hinv, hv, hname, haddr, -⟩ := h
  obtain ⟨req, hacc, hkeeps⟩ := hdata
  obtain ⟨st', out, hst', hinv', heff⟩ :=
    serve_request hst hinv hacc link.client count (not_stumbles hv)
  have hkey : v.ipPort = clientKey link.client := by
    rw [hinv.directory.record_ipPort hv, haddr]
  have hfiled := (hinv.record_key heff { v with lastSeen := UInt32.ofNat w.clock }).mpr
    ((State.Files.of_keepsSessions hkeeps).mpr ⟨v, hv, hkey, rfl⟩)
  exact ⟨st', _, hst', hinv', hfiled.1, hname, haddr, rfl⟩

/-- Others do not end the session unless they log in under its name. -/
theorem Session.foreign (h : Session link user last w) (hsrc : src ≠ link.client)
    (hlogin : ¬ Accepts data (.login user)) (count : ℤ) :
    Session link user last (w.serve count (.datagram src data)) := by
  obtain ⟨st, v, hst, hinv, hv, hname, haddr, hseen⟩ := h
  by_cases haccepted : ∃ req, Accepts data req
  · obtain ⟨req, hacc⟩ := haccepted
    obtain ⟨st', out, hst', hinv', heff⟩ :=
      serve_request hst hinv hacc src count (not_stumbles hv)
    have hkey : v.ipPort ≠ clientKey src := by
      rw [hinv.directory.record_ipPort hv, haddr]
      exact fun heq => hsrc (clientKey_injective heq).symm
    have hreq : req ≠ .login v.username := by
      rintro rfl
      rw [hname] at hacc
      exact hlogin hacc
    exact ⟨st', v, hst', hinv', hinv.record_of_key_ne heff hkey hreq hv, hname, haddr, hseen⟩
  · obtain ⟨out, hok⟩ := serverLoop_of_not_accepts haccepted st ⟨fun _ => w.clock, count⟩ src
    exact ⟨st, v, serve_of_ok hst hok, hinv, hv, hname, haddr, hseen⟩

/-- A scan spares the session if the client has been heard within 120 seconds and the time
fits the record. -/
theorem Session.cleanup (h : Session link user last w) (hlast : last ≤ w.clock)
    (hrecent : w.clock ≤ last + 120) (hclock : w.clock < 2 ^ 32) (count : ℤ) :
    Session link user last (w.serve count .cleanup) := by
  obtain ⟨st, v, hst, hinv, hv, hname, haddr, hseen⟩ := h
  rcases hinv.outcome ⟨fun _ => w.clock, count⟩ .scan with ⟨hstumbles, -⟩ | ⟨st', out, hok, heff⟩
  · exact absurd hstumbles (not_stumbles hv)
  · have hinv' := hinv.of_effect heff
    cases heff with
    | scan hdir hch hrec =>
        obtain ⟨p, hp, hcell⟩ := hv
        have hidle : isInactive w.clock v = false := by
          rw [isInactive, decide_eq_false_iff_not, hseen,
            UInt32.toNat_ofNat_of_lt' (lt_of_le_of_lt hlast hclock)]
          omega
        have hspared : Spared st (fun _ => w.clock) 0 st.userList p := by
          intro j _ u hu
          rw [hcell] at hu
          cases hu
          exact hidle
        exact ⟨st', v, serve_of_ok hst hok, hinv', (hrec v).mpr ⟨p, hp, hcell, hspared⟩, hname,
          haddr, hseen⟩

/-- The time at which the client was last heard, after it has sent some datagrams. -/
def lastAfter (last now : ℕ) (sent : List Client.Datagram) : ℕ := if sent = [] then last else now

@[simp] theorem lastAfter_self (now : ℕ) (sent : List Client.Datagram) :
    lastAfter now now sent = now :=
  ite_self now

theorem lastAfter_le (h : last ≤ now) (sent : List Client.Datagram) :
    lastAfter last now sent ≤ now := by
  unfold lastAfter
  split
  · exact h
  · exact le_rfl

theorem Session.deliver (h : Session link user last w)
    (hsent : ∀ d ∈ sent, d.dst = link.server ∧ Refreshing d.data) (count : ℤ) :
    Session link user (lastAfter last w.clock sent) (deliver link count w sent) := by
  have hall : sent.filter (·.dst = link.server) = sent :=
    List.filter_eq_self.mpr fun d hd => decide_eq_true (hsent d hd).1
  rw [World.deliver, hall]
  clear hall
  induction sent generalizing last w with
  | nil => exact h
  | cons d sent ih =>
      have hfirst := h.refresh (hsent d List.mem_cons_self).2 count
      have hrest := ih hfirst fun d' hd' => hsent d' (List.mem_cons_of_mem d hd')
      rw [clock_serve, lastAfter_self] at hrest
      exact hrest

/-! ## Passes of the client -/

/-- What a pass leaves, with what it sends. -/
theorem clientPass_cases (hpass : w.clientPass link count input = (w', sent)) :
    (w.client = none ∧ w' = w ∧ sent = []) ∨
      (w.client.isSome ∧ w' = { w with client := none } ∧ sent = []) ∨
      ∃ c o, w.client = some c ∧ c.react true input = .ok o ∧
        w' = deliver link count { w with client := o.client } o.sent ∧ sent = o.sent := by
  cases hc : w.client with
  | none =>
      simp only [clientPass, hc] at hpass
      cases hpass
      exact Or.inl ⟨rfl, rfl, rfl⟩
  | some c =>
      cases hreact : c.react true input with
      | error e =>
          simp only [clientPass, hc, hreact] at hpass
          cases hpass
          exact Or.inr (Or.inl ⟨rfl, rfl, rfl⟩)
      | ok o =>
          simp only [clientPass, hc, hreact] at hpass
          cases hpass
          exact Or.inr (Or.inr ⟨c, o, rfl, hreact, rfl, rfl⟩)

theorem clientPass_before (hpass : w.clientPass link count input = (w', sent)) :
    w'.clock = w.clock ∧ (w'.client.isSome → w.client.isSome) := by
  rcases clientPass_cases hpass with ⟨hc, rfl, -⟩ | ⟨hc, rfl, -⟩ | ⟨c, o, hc, -, rfl, -⟩
  · exact ⟨rfl, id⟩
  · exact ⟨rfl, fun _ => hc⟩
  · exact ⟨(deliver_sameSide link count _ o.sent).clock, fun _ => by rw [hc]; rfl⟩

/-- A pass of a client that goes on keeps the session. -/
theorem Session.clientPass (h : Session link user last w)
    (hserver : ∀ c, w.client = some c → c.serverInfo = link.server)
    (hpass : w.clientPass link count input = (w', sent)) (hrunning : w'.client.isSome) :
    Session link user (lastAfter last w.clock sent) w' := by
  rcases clientPass_cases hpass with
    ⟨-, rfl, rfl⟩ | ⟨-, rfl, rfl⟩ | ⟨c, o, hc, hreact, rfl, rfl⟩
  · exact h
  · cases hrunning
  · rw [(deliver_sameSide link count _ o.sent).client] at hrunning
    have hdst := (react_addressed hreact).1
    have hdata := react_refreshing hreact hrunning
    have hsession : Session link user last { w with client := o.client } := h
    exact hsession.deliver (fun d hd => ⟨(hdst d hd).trans (hserver c hc), hdata d hd⟩) count

/-- A client that was last heard at `last` keeps the pace of a minute, and sends to its
server. -/
structure Paced (link : Link) (last : ℕ) (w : World) : Prop where
  heard : last ≤ w.clock
  server : ∀ c, w.client = some c → c.serverInfo = link.server
  pace : ∀ c, w.client = some c →
    Heartbeat.Pace 60 last w.clock w.nextTick c.activityLastMinute

theorem Paced.recent (h : Paced link last w) (hrunning : w.client.isSome) :
    w.clock ≤ last + 120 := by
  obtain ⟨c, hc⟩ := Option.isSome_iff_exists.mp hrunning
  exact (h.pace c hc).recent

/-- Nothing is required of a client that has ended. -/
theorem paced_none (hclient : w.client = none) (hlast : last ≤ w.clock) : Paced link last w := by
  have hnone : ∀ c, w.client ≠ some c := fun c hc => by
    rw [hclient] at hc
    cases hc
  exact ⟨hlast, fun c hc => absurd hc (hnone c), fun c hc => absurd hc (hnone c)⟩

theorem Paced.sameSide (h : Paced link last w) (hsame : w.SameSide w') : Paced link last w' where
  heard := hsame.clock ▸ h.heard
  server c hc := h.server c (hsame.client ▸ hc)
  pace c hc := by
    rw [hsame.clock, hsame.nextTick]
    exact h.pace c (hsame.client ▸ hc)

/-- A pass of the main loop keeps the pace. -/
theorem Paced.clientPass (h : Paced link last w) (hinput : input ≠ .tick)
    (hsource : ∀ src, input.source? = some src → src = link.server)
    (hpass : w.clientPass link count input = (w', sent)) :
    Paced link (lastAfter last w.clock sent) w' ∧ (sent ≠ [] → w.clock ≤ last + 120) := by
  rcases clientPass_cases hpass with
    ⟨-, rfl, rfl⟩ | ⟨-, rfl, rfl⟩ | ⟨c, o, hc, hreact, rfl, rfl⟩
  · exact ⟨h, fun hne => absurd rfl hne⟩
  · exact ⟨paced_none rfl h.heard, fun hne => absurd rfl hne⟩
  · have hpace := h.pace c hc
    have htalks := react_talks hreact hinput
    have hkept := (react_addressed hreact).2.2
    refine ⟨?_, fun _ => hpace.recent⟩
    apply Paced.sameSide _ (deliver_sameSide link count _ o.sent)
    refine ⟨lastAfter_le h.heard o.sent, fun c' hc' => ?_, fun c' hc' => ?_⟩
    · rw [hkept c' hc']
      cases hsrc : input.source? with
      | none => exact h.server c hc
      | some src => exact hsource src hsrc
    · rw [htalks.active c' hc']
      by_cases hsent : o.sent = []
      · simpa [lastAfter, hsent] using hpace
      · rw [lastAfter, if_neg hsent]
        exact hpace.send _

/-- When the keep-alive thread wakes up, it sends something if nothing was sent since it last
did, and the next minute begins. -/
theorem Paced.wake (h : Paced link last w) (htick : w.clock = w.nextTick)
    (hpass : World.clientPass link count { w with nextTick := w.nextTick + 60 } .tick =
      (w', sent)) :
    Paced link (lastAfter last w.clock sent) w' ∧ (sent ≠ [] → w.clock ≤ last + 120) := by
  rcases clientPass_cases hpass with ⟨hc, rfl, rfl⟩ | ⟨-, rfl, rfl⟩ | ⟨c, o, hc, hreact, rfl, rfl⟩
  · exact ⟨paced_none hc h.heard, fun hne => absurd rfl hne⟩
  · exact ⟨paced_none rfl h.heard, fun hne => absurd rfl hne⟩
  · have hpace := h.pace c hc
    obtain ⟨o', c', hok, ho, hidle, hsent⟩ := react_tick c
    rw [hreact] at hok
    cases hok
    have hkept := (react_addressed hreact).2.2 c' ho
    have honly : ∀ c₁, o.client = some c₁ → c₁ = c' := fun c₁ hc₁ =>
      Option.some.inj (hc₁.symm.trans ho)
    refine ⟨?_, fun _ => hpace.recent⟩
    apply Paced.sameSide _ (deliver_sameSide link count _ o.sent)
    refine ⟨lastAfter_le h.heard o.sent, fun c₁ hc₁ => ?_, fun c₁ hc₁ => ?_⟩
    · rw [honly c₁ hc₁, hkept]
      exact h.server c hc
    · rw [honly c₁ hc₁, hidle, lastAfter, hsent]
      cases hactive : c.activityLastMinute with
      | true =>
          rw [hactive] at hpace
          exact hpace.wake htick
      | false => exact Heartbeat.Pace.beat htick

/-! ## Steps -/

/-- What a step does, by its event. -/
inductive Change (link : Link) (w : World) : Moment → World → Prop where
  | second {count : ℤ} (hwoken : w.client.isSome → w.clock ≠ w.nextTick) :
      Change link w ⟨.second, count, w.clock, []⟩ { w with clock := w.clock + 1 }
  | pass {event : Event} {count : ℤ} {input : Client.Input} {sent : List Client.Datagram}
      {w' : World} (hinput : input ≠ .tick)
      (hsource : ∀ src, input.source? = some src → src = link.server)
      (hpass : w.clientPass link count input = (w', sent)) :
      Change link w ⟨event, count, w.clock, sent⟩ w'
  | wake {count : ℤ} {sent : List Client.Datagram} {w' : World} (htick : w.clock = w.nextTick)
      (hpass : World.clientPass link count { w with nextTick := w.nextTick + 60 } .tick =
        (w', sent)) :
      Change link w ⟨.wake, count, w.clock, sent⟩ w'
  | foreign {count : ℤ} {src : SockAddr} {data : List UInt8} (hsrc : src ≠ link.client) :
      Change link w ⟨.foreign src data, count, w.clock, []⟩
        (w.serve count (.datagram src data))
  | cleanup {count : ℤ} : Change link w ⟨.cleanup, count, w.clock, []⟩ (w.serve count .cleanup)

theorem Step.change (h : World.Step link w m w') : Change link w m w' := by
  obtain ⟨event, count, time, sent⟩ := m
  obtain ⟨hstep, htime⟩ := h
  change time = w.clock at htime
  subst htime
  change w.step link count event = some (w', sent) at hstep
  cases event with
  | second =>
      rw [step] at hstep
      split at hstep
      · cases hstep
      · rename_i hwoken
        cases hstep
        exact .second fun hrunning htick => hwoken ⟨hrunning, htick⟩
  | key cur =>
      have hsource : ∀ src, (Client.Input.key cur).source? = some src → src = link.server :=
        fun _ hsrc => by cases hsrc
      exact .pass (by simp) hsource (Option.some.inj hstep)
  | heard data =>
      have hsource : ∀ src, (Client.Input.recv link.server data).source? = some src →
          src = link.server := fun _ hsrc => (Option.some.inj hsrc).symm
      exact .pass (by simp) hsource (Option.some.inj hstep)
  | wake =>
      rw [step] at hstep
      split at hstep
      · rename_i htick
        exact .wake htick (Option.some.inj hstep)
      · cases hstep
  | foreign src data =>
      rw [step] at hstep
      split at hstep
      · cases hstep
      · rename_i hsrc
        cases hstep
        exact .foreign hsrc
  | cleanup =>
      cases hstep
      exact .cleanup

/-- Time does not run back, and a client that has ended does not come back. -/
theorem Change.before (h : Change link w m w') :
    w.clock ≤ w'.clock ∧ (w'.client.isSome → w.client.isSome) := by
  cases h with
  | second hwoken => exact ⟨Nat.le_succ _, id⟩
  | pass hinput hsource hpass =>
      have hbefore := clientPass_before hpass
      exact ⟨hbefore.1.ge, hbefore.2⟩
  | wake htick hpass =>
      have hbefore := clientPass_before hpass
      exact ⟨hbefore.1.ge, hbefore.2⟩
  | foreign hsrc => exact ⟨le_rfl, id⟩
  | cleanup => exact ⟨le_rfl, id⟩

/-- A second passes. -/
theorem Paced.second (h : Paced link last w) (hwoken : w.client.isSome → w.clock ≠ w.nextTick) :
    Paced link last { w with clock := w.clock + 1 } where
  heard := h.heard.trans (Nat.le_succ _)
  server := h.server
  pace c hc := by
    have hpace := h.pace c hc
    have hne : w.clock ≠ w.nextTick := hwoken (Option.isSome_iff_exists.mpr ⟨c, hc⟩)
    exact hpace.wait (Nat.le_succ _) (Nat.lt_of_le_of_ne hpace.awake hne)

/-- Every step keeps the pace, and what the client sends comes within 120 seconds. -/
theorem Paced.step (h : Paced link last w) (hstep : Change link w m w') :
    Paced link (lastAfter last m.time m.sent) w' ∧
      (m.sent ≠ [] → last ≤ m.time ∧ m.time ≤ last + 120) := by
  cases hstep with
  | second hwoken => exact ⟨h.second hwoken, fun hne => absurd rfl hne⟩
  | pass hinput hsource hpass =>
      obtain ⟨hpaced, hgap⟩ := h.clientPass hinput hsource hpass
      exact ⟨hpaced, fun hne => ⟨h.heard, hgap hne⟩⟩
  | wake htick hpass =>
      obtain ⟨hpaced, hgap⟩ := h.wake htick hpass
      exact ⟨hpaced, fun hne => ⟨h.heard, hgap hne⟩⟩
  | foreign hsrc => exact ⟨h.sameSide ⟨rfl, rfl, rfl⟩, fun hne => absurd rfl hne⟩
  | cleanup => exact ⟨h.sameSide ⟨rfl, rfl, rfl⟩, fun hne => absurd rfl hne⟩

/-- Somebody else logs in as `user`. -/
def Moment.Displaces (m : Moment) (user : Uname) : Prop :=
  ∃ src data, m.event = .foreign src data ∧ Accepts data (.login user)

theorem not_displaces (hforeign : ∀ src data, m.event ≠ .foreign src data) :
    ¬ m.Displaces user :=
  fun ⟨src, data, hevent, _⟩ => hforeign src data hevent

/-- Every step in which the client goes on keeps the session. -/
theorem Session.step (h : Session link user last w) (hpaced : Paced link last w)
    (hstep : Change link w m w') (hrunning : w'.client.isSome) (hclock : w'.clock < 2 ^ 32)
    (hdisplaces : ¬ m.Displaces user) : Session link user (lastAfter last m.time m.sent) w' := by
  cases hstep with
  | second hwoken => exact h
  | pass hinput hsource hpass => exact h.clientPass hpaced.server hpass hrunning
  | wake htick hpass =>
      have hnext : Session link user last { w with nextTick := w.nextTick + 60 } := h
      exact hnext.clientPass hpaced.server hpass hrunning
  | foreign hsrc => exact h.foreign hsrc (fun hlogin => hdisplaces ⟨_, _, rfl, hlogin⟩) _
  | cleanup => exact h.cleanup hpaced.heard (hpaced.recent hrunning) hclock _

/-! ## Runs -/

/-- A second and one within the next 120 seconds. -/
def Gap (s t : ℕ) : Prop := s ≤ t ∧ t ≤ s + 120

/-- When the client has sent its datagrams, from its start at `now` on. -/
def sendTimes (link : Link) (username : List UInt8) (now : ℕ) (ms : List Moment) : List ℕ :=
  (Client.start link.server username fun _ => true).2.map (fun _ => now) ++
    ms.flatMap fun m => m.sent.map fun _ => m.time

theorem isChain_gap_append {ts : List ℕ} (hts : ts.IsChain Gap) (hlast : ts.getLast? = some last)
    (hgap : sent ≠ [] → Gap last now) :
    (ts ++ sent.map fun _ => now).IsChain Gap ∧
      (ts ++ sent.map fun _ => now).getLast? = some (lastAfter last now sent) := by
  induction sent generalizing ts last with
  | nil => simpa [lastAfter] using ⟨hts, hlast⟩
  | cons d sent ih =>
      have hnow : (ts ++ [now]).IsChain Gap := by
        rw [List.isChain_append]
        refine ⟨hts, List.isChain_singleton now, fun s hs t ht => ?_⟩
        rw [hlast] at hs
        cases hs
        cases ht
        exact hgap (List.cons_ne_nil _ _)
      have hrest := ih hnow (by simp) fun _ => ⟨le_rfl, Nat.le_add_right _ _⟩
      rw [lastAfter_self, List.append_assoc] at hrest
      exact hrest

/-- What is known after the moments `ms`, when the client was last heard at `last`. -/
structure Kept (link : Link) (username : List UInt8) (user : Uname) (start : ℕ)
    (ms : List Moment) (last : ℕ) (w : World) : Prop where
  chain : (sendTimes link username start ms).IsChain Gap
  heard : (sendTimes link username start ms).getLast? = some last
  paced : Paced link last w
  session : w.client.isSome → w.clock < 2 ^ 32 → (∀ m ∈ ms, ¬ m.Displaces user) →
    Session link user last w

variable {U : List UInt8}

theorem Kept.step (h : Kept link U user now ms last w) (hstep : Change link w m w') :
    Kept link U user now (ms ++ [m]) (lastAfter last m.time m.sent) w' := by
  obtain ⟨hpaced, hgap⟩ := h.paced.step hstep
  obtain ⟨hchain, hheard⟩ := isChain_gap_append h.chain h.heard hgap
  have htimes : sendTimes link U now (ms ++ [m]) =
      sendTimes link U now ms ++ m.sent.map fun _ => m.time := by
    simp [sendTimes]
  refine ⟨htimes ▸ hchain, htimes ▸ hheard, hpaced, fun hrunning hclock hdisplaces => ?_⟩
  obtain ⟨htime, hran⟩ := hstep.before
  have hsession := h.session (hran hrunning) (htime.trans_lt hclock)
    fun m' hm' => hdisplaces m' (List.mem_append_left _ hm')
  exact hsession.step h.paced hstep hrunning hclock
    (hdisplaces m (List.mem_append_right _ List.mem_cons_self))

/-- The start is a login and a request to join Common. -/
theorem start_eq (link : Link) (U : List UInt8) (now : ℕ) (count : ℤ) (st : Standalone.State) :
    start link U now count st =
      ((⟨now, now + 60, some (Client.start link.server U fun _ => true).1, some st⟩ : World).serve
        count (.datagram link.client (requestLogin (.ofText usernameMax U)))).serve
        count (.datagram link.client (requestJoin (.ofText channelMax (ascii "Common")))) := by
  have hall : (Client.start link.server U fun _ => true).2.filter (·.dst = link.server) =
      (Client.start link.server U fun _ => true).2 :=
    List.filter_eq_self.mpr fun d hd => decide_eq_true ((start_addressed _ U _).1 d hd)
  have hdeliver : start link U now count st = deliver link count
      ⟨now, now + 60, some (Client.start link.server U fun _ => true).1, some st⟩
      (Client.start link.server U fun _ => true).2 := rfl
  rw [hdeliver, deliver, hall]
  rfl

theorem kept_start {st₀ : Standalone.State} (hU : 0 ∉ U) (hst : st₀.Reachable) (link : Link)
    (now : ℕ) (count : ℤ) :
    Kept link U (shortName U hU) now [] now
      (start link U now count st₀) := by
  have hserver := (start_addressed link.server U fun _ => true).2
  refine ⟨?_, rfl, ?_, fun _ _ _ => ?_⟩
  · exact .cons_cons ⟨le_rfl, Nat.le_add_right _ _⟩ (.singleton now)
  · rw [start_eq]
    refine ⟨le_rfl, fun c hc => ?_, fun c _ => .start 60 now c.activityLastMinute⟩
    cases hc
    exact hserver
  · rw [start_eq]
    let w : World := ⟨now, now + 60, some (Client.start link.server U fun _ => true).1, some st₀⟩
    have hacc : Accepts (requestLogin (.ofText usernameMax U)) (.login (shortName U hU)) :=
      accepts_requestLogin (Field.holds_ofText _ U hU)
    have hlogin : Session link (shortName U hU) now (w.serve count
        (.datagram link.client (requestLogin (.ofText usernameMax U)))) :=
      session_of_login rfl hst.inv hacc count
    exact hlogin.refresh (refreshing_of_field accepts_requestJoin (fun _ => rfl) _) count

theorem kept_of_run {st₀ : Standalone.State} (hU : 0 ∉ U) (hst : st₀.Reachable)
    (hrun : Run (World.Step link) (start link U now count st₀) ms w) :
    ∃ last, Kept link U (shortName U hU) now ms last w := by
  have hstep : ∀ past w m w', (∃ last, Kept link U (shortName U hU) now past last w) → True →
      World.Step link w m w' → ∃ last, Kept link U (shortName U hU) now (past ++ [m]) last w' := by
    rintro past w m w' ⟨last, h⟩ - hstep
    exact ⟨_, h.step hstep.change⟩
  exact hrun.history hstep (fun _ _ => trivial) [] ⟨now, kept_start hU hst link now count⟩

/-- At most 120 seconds pass between two consecutive datagrams of a client. Hence a client
that is running has its session, unless somebody else has logged in under its name, as long
as the clock of the server fits the record. -/
theorem keepAlive_session {st₀ : Standalone.State} (hU : 0 ∉ U) (hst : st₀.Reachable)
    (hrun : Run (World.Step link) (start link U now count st₀) ms w) :
    (sendTimes link U now ms).IsChain Gap ∧
      (w.client.isSome → w.clock < 2 ^ 32 → (∀ m ∈ ms, ¬ m.Displaces (shortName U hU)) →
        ∃ st, w.server = some st ∧ (shortName U hU, link.client) ∈ st.sessions) := by
  obtain ⟨last, h⟩ := kept_of_run hU hst hrun
  refine ⟨h.chain, fun hrunning hclock hdisplaces => ?_⟩
  obtain ⟨st, v, hserver, -, hv, hname, haddr, -⟩ := h.session hrunning hclock hdisplaces
  exact ⟨st, hserver, v, hv, hname, haddr⟩

/-- Seconds pass while the keep-alive thread is asleep. -/
theorem run_seconds (link : Link) (w : World) (n : ℕ) (hsleep : w.clock + n ≤ w.nextTick) :
    ∃ ms, Run (World.Step link) w ms { w with clock := w.clock + n } ∧
      ∀ m ∈ ms, m.event = .second := by
  induction n with
  | zero => exact ⟨[], .nil w, by simp⟩
  | succ n ih =>
      obtain ⟨ms, hrun, hms⟩ := ih (by omega)
      have hstep : World.Step link { w with clock := w.clock + n } ⟨.second, 0, w.clock + n, []⟩
          { w with clock := w.clock + n + 1 } := by
        refine ⟨if_neg fun hdone => ?_, rfl⟩
        have htick : w.clock + n = w.nextTick := hdone.2
        omega
      refine ⟨_, hrun.snoc hstep, fun m hm => ?_⟩
      rcases List.mem_append.mp hm with hm | hm
      · exact hms m hm
      · rw [List.mem_singleton.mp hm]

/-- Two minutes after the start alice has typed nothing, and the server scans before the
keep-alive thread sends anything. -/
theorem keepAlive_session_late : ∃ ms w st,
    Run (World.Step ⟨desk 1, desk 9⟩) (start ⟨desk 1, desk 9⟩ (ascii "alice") 0 0 .initial) ms w ∧
      w.clock = 120 ∧ w.server = some st ∧
      (shortName (ascii "alice") (by decide), desk 1) ∈ st.sessions := by
  obtain ⟨ms₁, hfirst, hms₁⟩ := run_seconds ⟨desk 1, desk 9⟩
    (start ⟨desk 1, desk 9⟩ (ascii "alice") 0 0 .initial) 60 le_rfl
  obtain ⟨w₁, hwake, hclock, hnext, hrunning⟩ : ∃ w₁, World.Step ⟨desk 1, desk 9⟩
      { start ⟨desk 1, desk 9⟩ (ascii "alice") 0 0 .initial with clock := 60 }
      ⟨.wake, 0, 60, []⟩ w₁ ∧ w₁.clock = 60 ∧ w₁.nextTick = 120 ∧ w₁.client.isSome :=
    ⟨_, ⟨rfl, rfl⟩, rfl, rfl, rfl⟩
  obtain ⟨ms₂, hsecond, hms₂⟩ := run_seconds ⟨desk 1, desk 9⟩ w₁ 60 (by omega)
  have hscan : World.Step ⟨desk 1, desk 9⟩ { w₁ with clock := w₁.clock + 60 }
      ⟨.cleanup, 0, w₁.clock + 60, []⟩
      (serve { w₁ with clock := w₁.clock + 60 } 0 .cleanup) := ⟨rfl, rfl⟩
  have hrun := ((hfirst.snoc hwake).append hsecond).snoc hscan
  have htime : w₁.clock + 60 = 120 := by rw [hclock]
  have hbound : w₁.clock + 60 < 2 ^ 32 := by omega
  obtain ⟨st, hserver, hsession⟩ :=
    (keepAlive_session (by decide) ⟨[], .nil _⟩ hrun).2 hrunning hbound fun m hm => by
      apply not_displaces
      simp only [List.mem_append, List.mem_singleton] at hm
      obtain ((hm | rfl) | hm) | rfl := hm
      · simp [hms₁ m hm]
      · simp
      · simp [hms₂ m hm]
      · simp
  exact ⟨_, _, st, hrun, htime, hserver, hsession⟩

/-- At the second 2 ^ 32 the record of alice says that she was seen at 0. -/
theorem keepAlive_session_overflow : ∃ ms w,
    Run (World.Step ⟨desk 1, desk 9⟩)
      (start ⟨desk 1, desk 9⟩ (ascii "alice") (2 ^ 32) 0 .initial) ms w ∧ w.client.isSome ∧
      (∀ m ∈ ms, ¬ m.Displaces (shortName (ascii "alice") (by decide))) ∧
      ¬ ∃ st, w.server = some st ∧
        (shortName (ascii "alice") (by decide), desk 1) ∈ st.sessions := by
  have hempty : ((start ⟨desk 1, desk 9⟩ (ascii "alice") (2 ^ 32) 0 .initial).serve 0
      .cleanup).server.map (·.userList) = some [] := by decide +kernel
  have hscan : World.Step ⟨desk 1, desk 9⟩
      (start ⟨desk 1, desk 9⟩ (ascii "alice") (2 ^ 32) 0 .initial) ⟨.cleanup, 0, 2 ^ 32, []⟩
      ((start ⟨desk 1, desk 9⟩ (ascii "alice") (2 ^ 32) 0 .initial).serve 0 .cleanup) :=
    ⟨rfl, rfl⟩
  refine ⟨_, _, .single hscan, rfl, fun m hm => ?_, ?_⟩
  · rw [List.mem_singleton.mp hm]
    exact not_displaces (by simp)
  · rintro ⟨st, hserver, hmem⟩
    obtain ⟨p, hp, -⟩ := mem_sessions.mp hmem
    rw [hserver] at hempty
    have hlist : st.userList = [] := Option.some.inj hempty
    rw [hlist] at hp
    cases hp

end World

end CliMessaging
