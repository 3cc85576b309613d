import CliMessaging.Library.PubSub
import CliMessaging.Verification.Standalone.Listings
import CliMessaging.Verification.Standalone.MemoryRuns
import CliMessaging.Verification.Standalone.SayFanOut

/-! # The service of the standalone server

What the server is for, without lists, tables and pointers: a relation of sessions and one of
subscriptions, what each request does to them and what is sent for it. Every run of the server
is one of the service. -/

namespace CliMessaging.Standalone

open State Transition PubSub

/-- The channels are the topics. -/
abbrev ChatService := Service Uname SockAddr Cname UInt32

namespace ChatService

/-! ## What the service does -/

/-- What the service sends for a request of the client at `a`. -/
inductive Reply (s : ChatService) (a : SockAddr) : ClientRequest → List Datagram → Prop where
  | login (name : Uname) : Reply s a (.login name) []
  | logout : Reply s a .logout []
  | keepAlive : Reply s a .keepAlive []
  | stranger {req : ClientRequest} : needsUser req → s.namesAt a = ∅ →
      Reply s a req (sendError "User not currently logged in" a)
  | join (ch : Cname) : (s.namesAt a).Nonempty → Reply s a (.join ch) []
  | leave (ch : Cname) : (s.namesAt a).Nonempty → Reply s a (.leave ch) []
  | sayNowhere {ch : Cname} (text : SayText) : (s.namesAt a).Nonempty →
      (∀ n, (ch, n) ∉ s.subscriptions) →
      Reply s a (.say ch text) (sendError "Channel does not exist" a)
  | sayOutside {ch : Cname} {name n : Uname} (text : SayText) : name ∈ s.namesAt a →
      (ch, n) ∈ s.subscriptions → (ch, name) ∉ s.subscriptions →
      Reply s a (.say ch text) (sendError "User is not part of channel" a)
  | say {ch : Cname} {name : Uname} {text : SayText} {sent : List Datagram} :
      name ∈ s.namesAt a → (ch, name) ∈ s.subscriptions → sent.Nodup →
      (∀ d, d ∈ sent ↔ d.msg = .say ch name text ∧ d.dst ∈ s.receivers ch) →
      Reply s a (.say ch text) sent
  | noChannels : s.subscriptions = ∅ → Reply s a .list (sendError "Error getting channels" a)
  | list {channels : List Cname} : s.subscriptions.Nonempty → channels.Nodup →
      (∀ ch, ch ∈ channels ↔ ∃ n, (ch, n) ∈ s.subscriptions) →
      Reply s a .list [⟨a, .list channels⟩]
  | nobody {ch : Cname} : (∀ n, (ch, n) ∉ s.subscriptions) →
      Reply s a (.who ch) (sendError "Channel does not exist" a)
  | who {ch : Cname} {names : List Uname} : names ≠ [] → names.Nodup →
      (∀ n, n ∈ names ↔ (ch, n) ∈ s.subscriptions) → Reply s a (.who ch) [⟨a, .who ch names⟩]

/-- What a request of the client at `a` does at the time `now`. -/
def after (s : ChatService) (now : ℕ) (a : SockAddr) : ClientRequest → ChatService
  | .login name => s.login name a (UInt32.ofNat now)
  | .logout => s.logout a
  | .join ch => (s.heard a (UInt32.ofNat now)).subscribe a ch
  | .leave ch => (s.heard a (UInt32.ofNat now)).unsubscribe a ch
  | _ => s.heard a (UInt32.ofNat now)

/-- The client of the session has been heard within the last 120 seconds. -/
def Alive (now : ℕ) (v : Session Uname SockAddr UInt32) : Prop :=
  (now : ℤ) - v.lastSeen.toNat ≤ 120

/-- A scan judges each session at one of the readings of the clock. -/
inductive Step (s : ChatService) : Pass → ChatService → Prop where
  | request {env : Env} {a : SockAddr} {req : ClientRequest} {sent : List Datagram} :
      Reply s a req sent → Step s ⟨env, .recv a req, sent⟩ (s.after env.now a req)
  | scan {env : Env} (reading : Session Uname SockAddr UInt32 → ℕ) :
      Step s ⟨env, .scan, []⟩ (s.retain fun v => Alive (env.clock (reading v)) v)

end ChatService

open ChatService

/-! ## The server implements the service -/

/-- The record of a session. -/
def recordOf (v : Session Uname SockAddr UInt32) : User :=
  ⟨v.name, clientKey v.addr, v.addr, v.lastSeen⟩

/-- The directory holds the sessions, and the channels hold the subscriptions. -/
structure State.Implements (st : State) (s : ChatService) : Prop where
  sessions : ∀ v, v ∈ s.sessions ↔ st.Record (recordOf v)
  subscriptions : s.subscriptions = st.subscriptions

variable {st st' : State} {s : ChatService} {env : Env} {a : SockAddr} {ch : Cname} {name : Uname}
  {now : ℕ} {sent : List Datagram} {req : ClientRequest}
  {v : Session Uname SockAddr UInt32} {u : User}

theorem State.implements_initial : State.initial.Implements .initial where
  sessions v := by
    constructor
    · exact fun hv => hv.elim
    · rintro ⟨p, hp, -⟩
      cases hp
  subscriptions := by
    ext ⟨ch, name⟩
    constructor
    · exact fun hn => hn.elim
    · rintro ⟨c, hc, -⟩
      cases hc

theorem State.mem_subscriptions {c : ChannelUsersList} (hc : st.getChannel ch = some c) :
    (ch, name) ∈ st.subscriptions ↔ name ∈ c.userList := by
  constructor
  · rintro ⟨c', hc', hin⟩
    rw [hc] at hc'
    cases hc'
    exact hin
  · exact fun hin => ⟨c, hc, hin⟩

theorem recordOf_eq (hkey : u.ipPort = clientKey u.cliaddr) :
    recordOf ⟨u.username, u.cliaddr, u.lastSeen⟩ = u := by
  rw [recordOf, ← hkey]

/-- Two sessions have the same record only if they are the same. -/
theorem eq_of_recordOf_eq {w : Session Uname SockAddr UInt32} (h : recordOf v = recordOf w) :
    v = w := by
  ext1
  · exact congrArg User.username h
  · exact congrArg User.cliaddr h
  · exact congrArg User.lastSeen h

namespace State.Implements

theorem mem_namesAt (h : st.Implements s) (hinv : st.Inv) :
    name ∈ s.namesAt a ↔ (name, a) ∈ st.sessions := by
  constructor
  · rintro ⟨v, hv, rfl, rfl⟩
    exact ⟨recordOf v, (h.sessions v).mp hv, rfl, rfl⟩
  · rintro ⟨u, hu, rfl, rfl⟩
    refine ⟨⟨u.username, u.cliaddr, u.lastSeen⟩, (h.sessions _).mpr ?_, rfl, rfl⟩
    rw [recordOf_eq (hinv.directory.record_ipPort hu)]
    exact hu

theorem namesAt_eq_empty (h : st.Implements s) (hinv : st.Inv)
    (hget : st.getUser none (some (clientKey a)) = none) : s.namesAt a = ∅ := by
  rw [Set.eq_empty_iff_forall_notMem]
  intro n hn
  exact hinv.directory.getUser_eq_none.mp hget n ((h.mem_namesAt hinv).mp hn)

theorem mem_namesAt_of_speaks (h : st.Implements s) (hinv : st.Inv) {p : ℕ}
    (hspeaks : st.Speaks now a p u st') : u.username ∈ s.namesAt a :=
  (h.mem_namesAt hinv).mpr hspeaks.mem_sessions

theorem mem_receivers (h : st.Implements s) (hinv : st.Inv) :
    a ∈ s.receivers ch ↔ ∃ n, (ch, n) ∈ st.subscriptions ∧ (n, a) ∈ st.sessions := by
  simp only [Service.receivers, Set.mem_ofPred_eq, h.mem_namesAt hinv, h.subscriptions, and_comm]

/-! ### Sessions -/

theorem heard (h : st.Implements s) (hinv : st.Inv) (hseen : st.Seen now a st') (v) :
    v ∈ (s.heard a (UInt32.ofNat now)).sessions ↔ st'.Record (recordOf v) := by
  rw [Service.mem_heard, hinv.directory.record_seen hseen, h.sessions]
  refine or_congr (and_congr_right fun _ => clientKey_injective.ne_iff.symm) ?_
  constructor
  · rintro ⟨w, hw, ha, rfl⟩
    exact ⟨recordOf w, (h.sessions w).mp hw, congrArg clientKey ha, rfl⟩
  · rintro ⟨u, hu, hkey, heq⟩
    have hu' := recordOf_eq (hinv.directory.record_ipPort hu)
    rw [← hu'] at hu hkey heq
    refine ⟨_, (h.sessions _).mpr hu, clientKey_injective hkey, eq_of_recordOf_eq heq⟩

theorem login (h : st.Implements s)
    (hrec : ∀ u, st'.Record u ↔ (st.Record u ∧ u.username ≠ name ∧ u.ipPort ≠ clientKey a) ∨
      u = ⟨name, clientKey a, a, UInt32.ofNat now⟩) (v) :
    v ∈ (s.login name a (UInt32.ofNat now)).sessions ↔ st'.Record (recordOf v) := by
  have hnew : recordOf v = recordOf ⟨name, a, UInt32.ofNat now⟩ ↔
      v = ⟨name, a, UInt32.ofNat now⟩ := ⟨eq_of_recordOf_eq, congrArg recordOf⟩
  have hkey : (recordOf v).ipPort ≠ clientKey a ↔ v.addr ≠ a := clientKey_injective.ne_iff
  rw [Service.mem_login, hrec, ← hnew, hkey, h.sessions, or_comm]
  rfl

theorem logout (h : st.Implements s)
    (hrec : ∀ u, st'.Record u ↔ st.Record u ∧ u.ipPort ≠ clientKey a) (v) :
    v ∈ (s.logout a).sessions ↔ st'.Record (recordOf v) := by
  have hkey : (recordOf v).ipPort ≠ clientKey a ↔ v.addr ≠ a := clientKey_injective.ne_iff
  rw [Service.mem_logout, hrec, hkey, h.sessions]

theorem request_sessions (h : st.Implements s) (hinv : st.Inv)
    (heff : st.Effect env (.recv a req) st' sent) (v) :
    v ∈ (s.after env.now a req).sessions ↔ st'.Record (recordOf v) := by
  by_cases hreq : keepsSessions req
  · have hheard := h.heard hinv (heff.seen hreq) v
    cases req <;> first | exact hheard | cases hreq
  · cases heff with
    | login hdir hrec hch => exact h.login hrec v
    | logout hdir hrec hch => exact h.logout hrec v
    | stranger hneeds hget => exact absurd (keepsSessions_of_needsUser hneeds) hreq
    | _ => exact absurd rfl hreq

/-! ### Subscriptions -/

theorem subscribers (h : st.Implements s) (hinv : st.Inv) (hname : (name, a) ∈ st.sessions) :
    ({ch} : Set Cname) ×ˢ s.namesAt a = {(ch, name)} := by
  have hsingle : s.namesAt a = {name} := by
    ext n
    rw [h.mem_namesAt hinv]
    constructor
    · exact fun hn => hinv.directory.partialBijection.2 n name a hn hname
    · rintro rfl
      exact hname
  rw [hsingle, Set.singleton_prod_singleton]

theorem no_subscribers (h : st.Implements s) (hinv : st.Inv)
    (hnobody : ∀ n, (n, a) ∉ st.sessions) : ({ch} : Set Cname) ×ˢ s.namesAt a = ∅ := by
  have hempty : s.namesAt a = ∅ := Set.eq_empty_of_forall_notMem fun n hn =>
    hnobody n ((h.mem_namesAt hinv).mp hn)
  rw [hempty, Set.prod_empty]

theorem request_subscriptions (h : st.Implements s) (hinv : st.Inv)
    (heff : st.Effect env (.recv a req) st' sent) :
    (s.after env.now a req).subscriptions = st'.subscriptions := by
  have hresub := hinv.resubscribes heff
  have hsub := h.subscriptions
  cases req with
  | join ch =>
      change s.subscriptions ∪ {ch} ×ˢ (s.heard a _).namesAt a = _
      rw [Service.namesAt_heard, hsub]
      by_cases hnobody : ∀ n, (n, a) ∉ st.sessions
      · rw [h.no_subscribers hinv hnobody, hresub.2 hnobody, Set.union_empty]
      · obtain ⟨n, hn⟩ := not_forall_not.mp hnobody
        rw [h.subscribers hinv hn, hresub.1 n hn, Set.union_singleton]
  | leave ch =>
      change s.subscriptions \ {ch} ×ˢ (s.heard a _).namesAt a = _
      rw [Service.namesAt_heard, hsub]
      by_cases hnobody : ∀ n, (n, a) ∉ st.sessions
      · rw [h.no_subscribers hinv hnobody, hresub.2 hnobody, Set.sdiff_empty]
      · obtain ⟨n, hn⟩ := not_forall_not.mp hnobody
        rw [h.subscribers hinv hn, (hresub.1 n hn).1]
  | _ => exact hsub.trans hresub.symm

/-! ### Replies -/

theorem reply_list (h : st.Implements s) (hinv : st.Inv) (a : SockAddr) :
    Reply s a .list (st.listReply a) := by
  have hmem : ∀ ch, ch ∈ st.channelUserLists.keys ↔ ∃ n, (ch, n) ∈ s.subscriptions := by
    intro ch
    rw [hinv.rosters.mem_keys, h.subscriptions]
  by_cases hempty : st.channelUserLists.keys = []
  · rw [listReply, if_pos hempty]
    refine .noChannels (Set.eq_empty_of_forall_notMem fun p hp => ?_)
    have hkey := (hmem p.1).mpr ⟨p.2, hp⟩
    rw [hempty] at hkey
    cases hkey
  · rw [listReply, if_neg hempty]
    obtain ⟨ch, hch⟩ := List.exists_mem_of_ne_nil _ hempty
    obtain ⟨n, hn⟩ := (hmem ch).mp hch
    exact .list ⟨_, hn⟩ st.channelUserLists.keys_nodup hmem

theorem reply_who (h : st.Implements s) (hinv : st.Inv) (ch : Cname) (a : SockAddr) :
    Reply s a (.who ch) (st.whoReply ch a) := by
  cases hc : st.getChannel ch with
  | none =>
      rw [whoReply, hc]
      refine .nobody fun n => ?_
      rw [h.subscriptions]
      exact hinv.rosters.getChannel_eq_none.mp hc n
  | some c =>
      obtain ⟨hname, hne, hnd⟩ := hinv.rosters ch c hc
      have hreply : st.whoReply ch a = [⟨a, .who ch c.userList⟩] := by
        rw [whoReply, hc, ← hname]
        rfl
      rw [hreply]
      refine .who hne hnd fun n => ?_
      rw [h.subscriptions, mem_subscriptions hc]

theorem reply (h : st.Implements s) (hinv : st.Inv)
    (heff : st.Effect env (.recv a req) st' sent) : Reply s a req sent := by
  cases heff with
  | login hdir hrec hch => exact .login _
  | logout hdir hrec hch => exact .logout
  | stranger hneeds hget => exact .stranger hneeds (h.namesAt_eq_empty hinv hget)
  | join hspeaks hchan => exact .join _ ⟨_, h.mem_namesAt_of_speaks hinv hspeaks⟩
  | leave hspeaks hchan => exact .leave _ ⟨_, h.mem_namesAt_of_speaks hinv hspeaks⟩
  | sayNowhere text hspeaks hch hc =>
      refine .sayNowhere text ⟨_, h.mem_namesAt_of_speaks hinv hspeaks⟩ fun n => ?_
      rw [h.subscriptions]
      exact hinv.rosters.getChannel_eq_none.mp hc n
  | @sayOutside _ ch p u c _ text hspeaks hch hc hout =>
      obtain ⟨n, hn⟩ := List.exists_mem_of_ne_nil _ (hinv.rosters ch c hc).2.1
      refine .sayOutside (n := n) text (h.mem_namesAt_of_speaks hinv hspeaks) ?_ ?_
      · rw [h.subscriptions, mem_subscriptions hc]
        exact hn
      · rw [h.subscriptions, mem_subscriptions hc]
        exact hout
  | @say _ ch p u c _ text hspeaks hch hc hin =>
      have hsub := (mem_subscriptions hc).mpr hin
      have hfan := hinv.say_of_subscriber (.say text hspeaks hch hc hin) hspeaks.mem_sessions hsub
      refine .say (h.mem_namesAt_of_speaks hinv hspeaks) (h.subscriptions ▸ hsub) hfan.1 fun d => ?_
      rw [hfan.2, h.mem_receivers hinv]
  | list hseen hch => exact h.reply_list hinv _
  | who ch hseen hch => exact h.reply_who hinv ch _
  | keepAlive hseen hch => exact .keepAlive

/-! ### Scans -/

/-- The scan reads the clock once for each entry of its snapshot. -/
theorem exists_reading (h : st.Directory) (clock : ℕ → ℕ) (v : Session Uname SockAddr UInt32) :
    ∃ j, (∃ p ∈ st.userList, st.users.cells p = some (recordOf v) ∧
        Spared st clock 0 st.userList p) ↔ st.Record (recordOf v) ∧ Alive (clock j) v := by
  by_cases hv : st.Record (recordOf v)
  · obtain ⟨p, hp, hcell⟩ := hv
    obtain ⟨j, hj⟩ := List.mem_iff_getElem?.mp hp
    have halive : Alive (clock j) v ↔ isInactive (clock (0 + j)) (recordOf v) = false := by
      rw [Alive, isInactive, decide_eq_false_iff_not, Int.not_lt, Nat.zero_add]
      rfl
    refine ⟨j, ?_⟩
    rw [halive]
    constructor
    · rintro ⟨q, hq, hcell', hspared⟩
      obtain rfl : q = p := h.eq_of_name hq hp hcell' hcell rfl
      exact ⟨⟨q, hq, hcell⟩, hspared j hj _ hcell⟩
    · rintro ⟨-, hactive⟩
      refine ⟨p, hp, hcell, fun i hi u hu => ?_⟩
      rw [hcell] at hu
      cases hu
      have hlt := (List.getElem?_eq_some_iff.mp hi).1
      rw [(List.getElem?_inj hlt h.nodup).mp (hi.trans hj.symm)]
      exact hactive
  · refine ⟨0, ?_⟩
    constructor
    · rintro ⟨p, hp, hcell, -⟩
      exact absurd ⟨p, hp, hcell⟩ hv
    · exact fun hboth => absurd hboth.1 hv

/-! ### Passes and runs -/

theorem step {p : Pass} (h : st.Implements s) (hinv : st.Inv) (hstep : st.Step p st') :
    ∃ s', ChatService.Step s p s' ∧ st'.Implements s' := by
  obtain ⟨env, input, sent⟩ := p
  have heff := hinv.effect_of_ok hstep
  cases input with
  | recv a req =>
      exact ⟨_, .request (h.reply hinv heff), h.request_sessions hinv heff,
        h.request_subscriptions hinv heff⟩
  | scan =>
      obtain ⟨reading, hreading⟩ :=
        Classical.axiomOfChoice (exists_reading hinv.directory env.clock)
      cases heff with
      | scan hdir hch hrec =>
          refine ⟨_, .scan reading, fun v => ?_,
            h.subscriptions.trans (subscriptions_congr hch).symm⟩
          rw [Service.mem_retain, h.sessions, hrec, hreading]

end State.Implements

theorem implements_of_run {ps : List Pass} (hrun : Run State.Step State.initial ps st) :
    ∃ s, Run ChatService.Step .initial ps s ∧ st.Implements s := by
  obtain ⟨qs, s, hservice, hsame, -, himpl⟩ := hrun.simulation
    (R := fun st s => st.Inv ∧ st.Implements s) (S := Eq) (P := fun _ => True)
    (fun st p st' s h _ hstep => by
      obtain ⟨s', hs', himpl⟩ := h.2.step h.1 hstep
      exact ⟨p, s', hs', rfl, h.1.of_effect (h.1.effect_of_ok hstep), himpl⟩)
    (fun _ _ => trivial) ⟨State.inv_initial, State.implements_initial⟩
  rw [List.forall₂_eq_eq_eq] at hsame
  exact ⟨s, hsame ▸ hservice, himpl⟩

/-! ## The server in memory -/

namespace Memory

/-- Only lists of channels may be sent in another order. -/
theorem eq_of_similar {sent sent' : List Datagram} (h : List.Forall₂ Similar sent' sent)
    (hnot : ∀ d ∈ sent, ∀ cs, d.msg ≠ .list cs) : sent' = sent := by
  induction h with
  | nil => rfl
  | @cons d' d ds' ds hd _ ih =>
      rw [ih fun d hd => hnot d (List.mem_cons_of_mem _ hd)]
      cases hd with
      | refl => rfl
      | list dst hperm => exact absurd rfl (hnot _ List.mem_cons_self _)

theorem sendError_msg {text : String} {d : Datagram} (hd : d ∈ sendError text a)
    (cs : List Cname) : d.msg ≠ .list cs := by
  unfold sendError at hd
  split at hd
  · rw [List.mem_singleton.mp hd]
    exact Text.noConfusion
  · cases hd

/-- Only a request for the channels is answered with a list of channels. -/
theorem msg_ne_list {d : Datagram} (h : Reply s a req sent) (hreq : req ≠ .list) (hd : d ∈ sent)
    (cs : List Cname) : d.msg ≠ .list cs := by
  cases h with
  | list hne hnd hmem => exact absurd rfl hreq
  | say hname hsub hnd hfan =>
      rw [((hfan d).mp hd).1]
      exact Text.noConfusion
  | who hne hnd hmem =>
      rw [List.mem_singleton.mp hd]
      exact Text.noConfusion
  | stranger hneeds hempty => exact sendError_msg hd cs
  | sayNowhere text hname hnone => exact sendError_msg hd cs
  | sayOutside text hname hsome hout => exact sendError_msg hd cs
  | noChannels hempty => exact sendError_msg hd cs
  | nobody hnone => exact sendError_msg hd cs
  | _ => cases hd

/-- The service does not care about the order of a list of channels. -/
theorem reply_of_similar {sent' : List Datagram} (h : Reply s a req sent)
    (hsim : List.Forall₂ Similar sent' sent) : Reply s a req sent' := by
  by_cases hreq : req = .list
  · subst hreq
    cases h with
    | stranger hneeds hempty => cases hneeds
    | noChannels hempty =>
        rw [eq_of_similar hsim fun d hd => sendError_msg hd]
        exact .noChannels hempty
    | list hne hnd hmem =>
        cases hsim with
        | cons hd hnil =>
            cases hnil
            cases hd with
            | refl => exact .list hne hnd hmem
            | list dst hperm =>
                refine .list hne (hperm.nodup_iff.mpr hnd) fun ch => ?_
                rw [hperm.mem_iff, hmem]
  · rw [eq_of_similar hsim fun d hd => msg_ne_list h hreq hd]
    exact h

theorem step_of_matches {p : StoredPass} {q : Pass} {s s' : ChatService} (h : Matches p q)
    (hstep : ChatService.Step s q s') : ChatService.Step s p.pass s' := by
  obtain ⟨mem, env, input, sent⟩ := p
  obtain ⟨henv, hinput, hsent⟩ := h
  cases hstep with
  | request hreply =>
      cases henv
      cases hinput
      exact .request (reply_of_similar hreply hsent)
  | scan reading =>
      cases henv
      cases hinput
      cases hsent
      exact .scan reading

theorem run_of_matches {ps : List StoredPass} {qs : List Pass} {s s' : ChatService}
    (h : List.Forall₂ Matches ps qs) (hrun : Run ChatService.Step s qs s') :
    Run ChatService.Step s (ps.map StoredPass.pass) s' := by
  induction h generalizing s with
  | nil => exact hrun
  | cons hmatch _ ih =>
      cases hrun with
      | cons hstep hrest => exact .cons (step_of_matches hmatch hstep) (ih hrest)

/-- With its linked lists, hash tables and pointers, the server does what the service says:
after any run of sound passes, whatever the loops were given and in whichever order, the
sessions and the subscriptions are those of the service, which has sent the same. -/
theorem memory_refines_service {m m' : Memory} {mem : Malloc} {ps : List StoredPass}
    (hm : allocState mem = .ok m) (hrun : Run Memory.Step m ps m') (hps : ∀ p ∈ ps, p.Sound) :
    ∃ s, Run ChatService.Step .initial (ps.map StoredPass.pass) s ∧
      ∃ st k, Represents k m' st ∧ st.Implements s := by
  obtain ⟨qs, y, hcounts, hmatches, hrep⟩ := represents_of_run hm hrun hps
  obtain ⟨s, hservice, himpl⟩ := implements_of_run (run_of_counts hcounts)
  exact ⟨s, run_of_matches hmatches hservice, y.1, y.2, hrep, himpl⟩

/-- Alice's visit. -/
theorem memory_refines_service_visit :
    ∃ s, Run ChatService.Step .initial (visit.map StoredPass.pass) s := by
  obtain ⟨m, m', hm, hrun⟩ := visit_runs
  obtain ⟨s, hservice, -⟩ := memory_refines_service hm hrun visit_sound
  exact ⟨s, hservice⟩

end Memory

end CliMessaging.Standalone
