import CliMessaging.Verification.Distributed.ChannelEffects

/-! # The times of routes

A channel remembers for each server on its route table when it last heard from it. The
times are kept apart from the table, and a pass of the time-out loop trusts that they are
there. -/

namespace CliMessaging.Distributed

open State Transition

/-- The servers of the list, of the map and of the times are the same, and all are
adjacent. -/
structure Channel.RoutesAgree (adj : List Server) (c : Channel) : Prop where
  coherent : c.sset.Coherent
  adjacent : ∀ s ∈ c.serverList, s ∈ adj
  timed : ∀ s, s ∈ c.lastSeen ↔ s ∈ c.serverList

/-- `c'` is `c` except that servers, and their times, may be missing from it. -/
structure Channel.Loses (c c' : Channel) : Prop where
  name : c'.name = c.name
  users : c'.uset = c.uset
  uids : c'.uidSet = c.uidSet
  servers : c'.serverList.Sublist c.serverList
  times : ∀ s ∈ c'.serverList, c'.lastSeen.lookup s = c.lastSeen.lookup s

/-- The time at which the last join for the channel from a server was handled. -/
def lastHeard (rs : List Reaction) (name : Cname) (s : Server) : Option ℕ :=
  (rs.reverse.find? fun r => decide (r.input = .recv s (.s2s (.join name)))).map fun r => r.env.now

/-- Every server of the channel, and no other, has a time, at which it was last heard. -/
def Channel.Remembers (rs : List Reaction) (name : Cname) (c : Channel) : Prop :=
  ∀ s, (s ∈ c.serverList → ∃ t₀, lastHeard rs name s = some t₀ ∧
      c.lastSeen.lookup s = some (UInt32.ofNat t₀)) ∧
    (s ∉ c.serverList → c.lastSeen.lookup s = none)

/-- The servers of a channel that a pass at the time `now` finds dead. -/
def Channel.expired (c : Channel) (now : ℕ) : List Server :=
  c.serverList.filter fun s =>
    decide (joinTimeout < UInt32.ofNat now - (c.lastSeen.lookup s).getD 0)

/-- What such a pass does to the channel. -/
def Channel.expire (c : Channel) (now : ℕ) : Channel :=
  (c.expired now).foldl Channel.removeServer c

variable {adj : List Server} {st st' : State} {c : Channel} {now : ℕ} {name : Cname}
  {server s : Server}

/-- A wrapping difference is the true one as long as that is below 2^32. -/
theorem lt_ofNat_sub_ofNat {t t₀ : ℕ} (hle : t₀ ≤ t) (hlt : t < t₀ + 2 ^ 32) (k : UInt32) :
    k < UInt32.ofNat t - UInt32.ofNat t₀ ↔ k.toNat < t - t₀ := by
  rw [UInt32.lt_iff_toNat_lt, UInt32.toNat_sub, UInt32.toNat_ofNat', UInt32.toNat_ofNat']
  omega

/-! ## One channel -/

namespace Channel

theorem foldl_removeServer_spec (h : c.sset.Coherent) (dead : List Server) :
    (dead.foldl Channel.removeServer c).sset.Coherent ∧
      (dead.foldl Channel.removeServer c).serverList = c.serverList.filter (· ∉ dead) ∧
      (dead.foldl Channel.removeServer c).lastSeen =
        dead.foldl (fun m s => m.erase s) c.lastSeen ∧
      (dead.foldl Channel.removeServer c).uidSet = c.uidSet := by
  induction dead generalizing c with
  | nil => exact ⟨h, by simp, rfl, rfl⟩
  | cons t dead ih =>
      obtain ⟨h₁, hlist₁⟩ := removeServer_sset h t
      obtain ⟨h', hlist, hseen, huids⟩ := ih h₁
      refine ⟨h', ?_, hseen, huids⟩
      have hnd : c.serverList.Nodup := h.nodup
      rw [List.foldl_cons, hlist, hlist₁, hnd.erase_eq_filter, List.filter_filter]
      apply List.filter_congr
      intro s _
      by_cases hs : s = t <;> simp [hs]

theorem foldl_removeUser_routes (us : List User) (c : Channel) :
    (us.foldl Channel.removeUser c).sset = c.sset ∧
      (us.foldl Channel.removeUser c).lastSeen = c.lastSeen := by
  induction us generalizing c with
  | nil => exact ⟨rfl, rfl⟩
  | cons u us ih => exact ih (c.removeUser u)

theorem getDeadServers_eq (htimed : ∀ s, s ∈ c.lastSeen ↔ s ∈ c.serverList) (now : ℕ) :
    c.getDeadServers (UInt32.ofNat now) joinTimeout = .ok (c.expired now) := by
  have hall : ∀ servers : List Server, (∀ s ∈ servers, s ∈ c.lastSeen) →
      deadServers c.lastSeen (UInt32.ofNat now) joinTimeout servers = .ok (servers.filter fun s =>
        decide (joinTimeout < UInt32.ofNat now - (c.lastSeen.lookup s).getD 0)) := by
    intro servers hin
    induction servers with
    | nil => rfl
    | cons s servers ih =>
        obtain ⟨time, htime⟩ := Option.isSome_iff_exists.mp
          (AList.lookup_isSome.mpr (hin s List.mem_cons_self))
        have hrest := ih fun t ht => hin t (List.mem_cons_of_mem _ ht)
        by_cases hlate : joinTimeout < UInt32.ofNat now - time
        · simp [deadServers, htime, hrest, hlate]
        · simp [deadServers, htime, hrest, hlate]
  exact hall c.serverList fun s hs => (htimed s).mpr hs

theorem loses_expire (h : c.sset.Coherent) (now : ℕ) : c.Loses (c.expire now) := by
  obtain ⟨-, hlist, hseen, huids⟩ := foldl_removeServer_spec h (c.expired now)
  refine ⟨foldl_removeServer_name _ c, foldl_removeServer_uset _ c, huids, ?_, fun s hs => ?_⟩
  · rw [expire, hlist]
    exact List.filter_sublist
  · rw [expire, hlist] at hs
    have hkept : s ∉ c.expired now := of_decide_eq_true (List.mem_filter.mp hs).2
    rw [expire, hseen, lookup_foldl_erase (fun s => s), List.map_id', if_neg hkept]

theorem remembers_new (rs : List Reaction) (name : Cname) : (Channel.new name).Remembers rs name :=
  fun _ => ⟨fun hs => absurd hs List.not_mem_nil, fun _ => rfl⟩

theorem Remembers.timed {rs : List Reaction} (h : c.Remembers rs name) (s : Server) :
    s ∈ c.lastSeen ↔ s ∈ c.serverList := by
  rw [← AList.lookup_isSome]
  constructor
  · intro hsome
    by_contra hs
    rw [(h s).2 hs] at hsome
    cases hsome
  · intro hs
    obtain ⟨t₀, -, hlookup⟩ := (h s).1 hs
    rw [hlookup]
    rfl

/-- Forgetting servers and their times. -/
theorem Remembers.lose {rs : List Reaction} {c' : Channel}
    (h : c.Remembers rs name) (hcoh : c.sset.Coherent) (dead : List Server)
    (hsset : c'.sset = (dead.foldl Channel.removeServer c).sset)
    (hseen : c'.lastSeen = (dead.foldl Channel.removeServer c).lastSeen) :
    c'.Remembers rs name := by
  obtain ⟨-, hlist, htimes, -⟩ := foldl_removeServer_spec hcoh dead
  have hmem : ∀ s, s ∈ c'.serverList ↔ s ∈ c.serverList ∧ s ∉ dead := by
    intro s
    rw [serverList, hsset, show (dead.foldl Channel.removeServer c).sset.serverList = _ from hlist]
    simp
  have hlookup : ∀ s, c'.lastSeen.lookup s = if s ∈ dead then none else c.lastSeen.lookup s := by
    intro s
    rw [hseen, htimes, lookup_foldl_erase (fun s => s), List.map_id']
  intro s
  rw [hmem, hlookup]
  by_cases hdead : s ∈ dead
  · simp [hdead]
  · simpa [hdead] using h s

end Channel

/-! ## One pass -/

theorem lastHeard_snoc (rs : List Reaction) (r : Reaction) (name : Cname) (s : Server) :
    lastHeard (rs ++ [r]) name s =
      if r.input = .recv s (.s2s (.join name)) then some r.env.now else lastHeard rs name s := by
  unfold lastHeard
  rw [List.reverse_append, List.reverse_singleton, List.singleton_append, List.find?_cons]
  by_cases hjoin : r.input = .recv s (.s2s (.join name))
  · simp [hjoin]
  · simp [hjoin]

theorem Channel.Remembers.snoc {rs : List Reaction} {r : Reaction} (h : c.Remembers rs name)
    (hjoin : ¬ r.input.IsJoinFor name) : c.Remembers (rs ++ [r]) name := by
  intro s
  rw [lastHeard_snoc, if_neg fun hinput => hjoin ⟨s, hinput⟩]
  exact h s

theorem Channel.Remembers.hear {rs : List Reaction} {r : Reaction} {c' : Channel}
    (h : c.Remembers rs name) (hinput : r.input = .recv server (.s2s (.join name)))
    (hhears : c.Hears c' r.env.now server) : c'.Remembers (rs ++ [r]) name := by
  intro s
  rw [lastHeard_snoc, hinput, hhears.servers, hhears.times]
  by_cases hs : s = server
  · subst hs
    simp
  · simpa [hs, Ne.symm hs] using h s

theorem State.Inv.remembers_step {rs : List Reaction} {r : Reaction} (h : st.Inv adj)
    (hrem : ∀ name c, st.chan name = some c → c.Remembers rs name) (hstep : st.Step r st') :
    ∀ name c, st'.chan name = some c → c.Remembers (rs ++ [r]) name := by
  intro name c' hc'
  obtain ⟨c, hold, hchanges⟩ := h.channel_after (h.effect_of_step hstep) hc'
  have hc : c.Remembers rs name ∧ c.sset.Coherent := by
    rcases hold with hc | rfl
    · exact ⟨hrem name c hc, (h.routed name c hc).coherent⟩
    · exact ⟨Channel.remembers_new rs name, ServerSet.coherent_empty⟩
  cases hchanges with
  | dismiss hjoin =>
      obtain ⟨hsset, hseen⟩ := Channel.foldl_removeUser_routes
        (st.dismissed r.env name r.input) c
      exact (hc.1.lose hc.2 [] hsset hseen).snoc hjoin
  | enroll user hnone hjoin => exact (hc.1.lose hc.2 [] rfl rfl).snoc hjoin
  | forget dead hnone hjoin => exact (hc.1.lose hc.2 dead rfl rfl).snoc hjoin
  | hear hnone hinput hhears => exact hc.1.hear hinput hhears

/-! ## The time-out loop -/

/-- One round of the loop drops the expired servers of its channel. -/
theorem State.Sound.removeDeadServers_cons (hs : st.Sound) (now : ℕ) {p : ℕ} (ps : List ℕ)
    (hc : st.chans.cells p = some c) (hget : st.cset.getChannel c.name = some p)
    (htimed : ∀ s, s ∈ c.lastSeen ↔ s ∈ c.serverList) :
    ∃ st₁, Distributed.removeDeadServers now (p :: ps) st =
        Distributed.removeDeadServers now ps st₁ ∧
      st₁.Sound ∧ SameUsers st st₁ ∧ st₁.cset = st.cset ∧
      st₁.chan = Function.update st.chan c.name ((st.chan c.name).map fun d =>
        (c.expired now).foldl Channel.removeServer d) := by
  have hdead := Channel.getDeadServers_eq htimed now
  obtain ⟨st₁, hmod, hs₁, hsame, hchan⟩ := hs.modifyChannel hget
    (f := fun d => (c.expired now).foldl Channel.removeServer d)
    (foldl_removeServer_name (c.expired now))
  have hcset : st₁.cset = st.cset := by
    obtain ⟨h', -, heq⟩ := bind_eq_ok.mp hmod
    cases heq
    rfl
  refine ⟨st₁, ?_, hs₁, hsame, hcset, hchan⟩
  simp [Distributed.removeDeadServers, Heap.read_eq_ok.mpr hc, hdead, hmod]

/-- The loop over some channels whose servers all have a time drops the expired ones. -/
theorem State.Sound.removeDeadServers_expired (hs : st.Sound) (now : ℕ) {ps : List ℕ}
    (hnd : ps.Nodup) (hps : ∀ p ∈ ps, p ∈ st.cset.channelList)
    (htimed : ∀ name, (∃ p ∈ ps, st.cset.getChannel name = some p) →
      ∀ c, st.chan name = some c → ∀ s, s ∈ c.lastSeen ↔ s ∈ c.serverList) :
    ∃ st', Distributed.removeDeadServers now ps st = .ok st' ∧ SameUsers st st' ∧
      ∀ name, st'.chan name = (st.chan name).map fun c =>
        if ∃ p ∈ ps, st.cset.getChannel name = some p then c.expire now else c := by
  induction ps generalizing st with
  | nil => exact ⟨st, rfl, .refl st, fun name => by simp⟩
  | cons p ps ih =>
      obtain ⟨hp, hnd⟩ := List.nodup_cons.mp hnd
      have hlisted := hps p List.mem_cons_self
      obtain ⟨c, hc⟩ := hs.live p hlisted
      have hchan := hs.chan_of_mem hlisted hc
      have hget : st.cset.getChannel c.name = some p :=
        hs.index.lookup_of_mem hlisted (nameOf_of_cells hc)
      obtain ⟨st₁, hround, hs₁, hsame₁, hcset, hchan₁⟩ := hs.removeDeadServers_cons now ps hc hget
        (htimed c.name ⟨p, List.mem_cons_self, hget⟩ c hchan)
      have hother : ∀ name, (∃ q ∈ ps, st.cset.getChannel name = some q) → name ≠ c.name := by
        rintro name ⟨q, hq, hgetq⟩ rfl
        rw [hget] at hgetq
        cases hgetq
        exact hp hq
      have hkept : ∀ name, name ≠ c.name → st₁.chan name = st.chan name := fun name hne => by
        rw [hchan₁, Function.update_of_ne hne]
      obtain ⟨st', hok, hsame, hfinal⟩ := ih hs₁ hnd
        (fun q hq => hcset ▸ hps q (List.mem_cons_of_mem _ hq)) (by
          rw [hcset]
          rintro name ⟨q, hq, hgetq⟩ d hd
          rw [hkept name (hother name ⟨q, hq, hgetq⟩)] at hd
          exact htimed name ⟨q, List.mem_cons_of_mem _ hq, hgetq⟩ d hd)
      refine ⟨st', hround.trans hok, hsame₁.trans hsame, fun name => ?_⟩
      rw [hfinal, hcset]
      by_cases hname : name = c.name
      · subst hname
        have hnot : ¬ ∃ q ∈ ps, st.cset.getChannel c.name = some q := fun hin =>
          hother c.name hin rfl
        have hin : ∃ q ∈ p :: ps, st.cset.getChannel c.name = some q :=
          ⟨p, List.mem_cons_self, hget⟩
        simp only [hnot, hin, if_true, if_false, hchan₁, Function.update_self, hchan,
          Option.map_some]
        rfl
      · rw [hkept name hname]
        have hnotp : st.cset.getChannel name ≠ some p := fun hgetp => by
          have hkey := hs.index.key_of_lookup hgetp
          rw [nameOf_of_cells hc] at hkey
          exact hname (Option.some.inj hkey).symm
        simp [hnotp]

theorem State.Inv.serverTimeoutPass_expires {rs : List Reaction} (h : st.Inv adj)
    (hrem : ∀ name c, st.chan name = some c → c.Remembers rs name) (now : ℕ) :
    ∃ st', serverTimeoutPass st now = .ok st' ∧ SameUsers st st' ∧
      ∀ name, st'.chan name = (st.chan name).map fun c => c.expire now := by
  obtain ⟨st', hok, hsame, hchan⟩ := h.sound.removeDeadServers_expired now h.sound.nodup
    (fun _ hp => hp) fun name _ c hc => (hrem name c hc).timed
  refine ⟨st', hok, hsame, fun name => ?_⟩
  rw [hchan]
  cases hget : st.cset.getChannel name with
  | none => rw [h.sound.getChannel_eq_none.mp hget, Option.map_none, Option.map_none]
  | some p =>
      have hin : ∃ q ∈ st.cset.channelList, some p = some q :=
        ⟨p, h.sound.index.mem_of_lookup hget, rfl⟩
      simp only [hin, if_true]

/-- A server of a channel survives a pass at `now` exactly when it was heard from at most
120 seconds before. -/
theorem Channel.Remembers.mem_expire {rs : List Reaction} (h : c.Remembers rs name)
    (hcoh : c.sset.Coherent) (hs : s ∈ c.serverList) (now : ℕ) :
    ∃ t₀, lastHeard rs name s = some t₀ ∧ (t₀ ≤ now → now < t₀ + 2 ^ 32 →
      (s ∈ (c.expire now).serverList ↔ now - t₀ ≤ 120)) := by
  obtain ⟨t₀, hheard, hlookup⟩ := (h s).1 hs
  refine ⟨t₀, hheard, fun hle hlt => ?_⟩
  obtain ⟨-, hlist, -⟩ := Channel.foldl_removeServer_spec hcoh (c.expired now)
  have hlate := lt_ofNat_sub_ofNat hle hlt joinTimeout
  rw [expire, hlist, List.mem_filter, decide_eq_true_eq, expired, List.mem_filter, hlookup,
    decide_eq_true_eq, Option.getD_some, hlate]
  simp only [hs, true_and, not_lt]
  rfl

/-! ## Runs -/

theorem State.Inv.remembers_run {rs : List Reaction}
    (hrun : Run State.Step (State.initial adj) rs st) :
    st.Inv (State.initial adj).sset.serverList ∧
      ∀ name c, st.chan name = some c → c.Remembers rs name := by
  let I : List Reaction → State → Prop := fun rs s =>
    s.Inv (State.initial adj).sset.serverList ∧
      ∀ name c, s.chan name = some c → c.Remembers rs name
  have hstart : I [] (State.initial adj) :=
    ⟨State.inv_initial adj, fun name c hc => by cases hc⟩
  have hstep : ∀ rs s r t, I rs s → True → s.Step r t → I (rs ++ [r]) t :=
    fun rs s r t hI _ hst => ⟨hI.1.step hst, hI.1.remembers_step hI.2 hst⟩
  exact hrun.history (I := I) (P := fun _ => True) hstep (fun _ _ => trivial) [] hstart

/-- In every reachable state the list, the map and the times of each channel hold the same
servers, all adjacent. A pass of the time-out loop completes; it takes from each channel
exactly the servers whose last join was handled more than 120 seconds before, however the
clock wraps, and changes nothing else. -/
theorem routes_expire_exactly {rs : List Reaction}
    (hrun : Run State.Step (State.initial adj) rs st) :
    (∀ name c, st.chan name = some c → c.RoutesAgree st.sset.serverList) ∧
      ∀ now, ∃ st', serverTimeoutPass st now = .ok st' ∧ SameUsers st st' ∧
        ∀ name, (st.chan name = none → st'.chan name = none) ∧
          ∀ c, st.chan name = some c → ∃ c', st'.chan name = some c' ∧ c.Loses c' ∧
            ∀ s ∈ c.serverList, ∃ t₀, lastHeard rs name s = some t₀ ∧
              (t₀ ≤ now → now < t₀ + 2 ^ 32 → (s ∈ c'.serverList ↔ now - t₀ ≤ 120)) := by
  obtain ⟨h, hrem⟩ := State.Inv.remembers_run hrun
  constructor
  · intro name c hc
    have hrouted := h.routed name c hc
    exact ⟨hrouted.coherent, fun s hs => h.servers ▸ hrouted.adjacent s hs, (hrem name c hc).timed⟩
  · intro now
    obtain ⟨st', hok, hsame, hchan⟩ := h.serverTimeoutPass_expires hrem now
    refine ⟨st', hok, hsame, fun name => ⟨fun hnone => ?_, fun c hc => ?_⟩⟩
    · rw [hchan, hnone, Option.map_none]
    · have hcoh := (h.routed name c hc).coherent
      refine ⟨c.expire now, by rw [hchan, hc, Option.map_some], Channel.loses_expire hcoh now, ?_⟩
      exact fun s hs => (hrem name c hc).mem_expire hcoh hs now

/-- A server last heard from at time 10 is gone after a pass at time 131. -/
theorem routes_expire_exactly_late :
    ∃ rs st st', (State.initial [node 2]).replay
        [(⟨10, 0⟩, .recv (node 2) (.s2s (.join chat)))] = some (rs, st) ∧
      (∃ c, st.chan chat = some c ∧ node 2 ∈ c.serverList) ∧
      serverTimeoutPass st 131 = .ok st' ∧
      ∃ c', st'.chan chat = some c' ∧ node 2 ∉ c'.serverList := by
  have hfacts : ((State.initial [node 2]).replay
      [(⟨10, 0⟩, .recv (node 2) (.s2s (.join chat)))]).map (fun p =>
        (lastHeard p.1 chat (node 2), (p.2.chan chat).map Channel.serverList)) =
          some (some 10, some [node 2]) := by decide
  obtain ⟨⟨rs, st⟩, hreplay, hfound⟩ := Option.map_eq_some_iff.mp hfacts
  obtain ⟨hheard, hservers⟩ := Prod.mk.inj hfound
  obtain ⟨c, hc, hlist⟩ := Option.map_eq_some_iff.mp hservers
  have hin : node 2 ∈ c.serverList := by simp [hlist]
  obtain ⟨-, hpass⟩ := routes_expire_exactly (State.run_of_replay hreplay)
  obtain ⟨st', hok, -, hchan⟩ := hpass 131
  obtain ⟨c', hc', -, hexact⟩ := (hchan chat).2 c hc
  obtain ⟨t₀, ht₀, hiff⟩ := hexact (node 2) hin
  have hten : t₀ = 10 := by
    have hsome : some t₀ = some 10 := ht₀.symm.trans hheard
    exact Option.some.inj hsome
  refine ⟨rs, st, st', hreplay, ⟨c, hc, hin⟩, hok, c', hc', fun hstays => ?_⟩
  have hintime := (hiff (by omega) (by omega)).mp hstays
  omega

end CliMessaging.Distributed
