import CliMessaging.Verification.Distributed.NetInvariant
import CliMessaging.Verification.Distributed.RouteTimes

/-! # Hearing a server

For each channel a server remembers when it last heard from another server, which is on the
route table of the channel just as long as that is remembered. -/

namespace CliMessaging.Distributed

open State Transition

/-- The time of the last join from a server that is on the route table of the channel. -/
def State.heard (st : State) (name : Cname) (s : Server) : Option UInt32 :=
  (st.chan name).bind fun c => c.lastSeen.lookup s

variable {adj : List Server} {st st' : State} {env : Env} {input : Input} {sent : List Datagram}
  {c : Channel} {name other : Cname} {s : Server} {r : Reaction} {t : UInt32}

namespace State

theorem heard_of_chan (hc : st.chan name = some c) : st.heard name s = c.lastSeen.lookup s := by
  rw [heard, hc, Option.bind_some]

theorem heard_other {found : Option Channel}
    (hchan : st'.chan = Function.update st.chan other found) (hname : name ≠ other) :
    st'.heard name s = st.heard name s := by
  rw [heard, hchan, Function.update_of_ne hname, heard]

theorem heard_eq_some : st.heard name s = some t ↔
    ∃ c, st.chan name = some c ∧ c.lastSeen.lookup s = some t :=
  Option.bind_eq_some_iff

/-- What is remembered of the channel after an edit that keeps the times of `s`. -/
theorem heard_map {f : Channel → Channel} (hchan : st'.chan name = (st.chan name).map f)
    (hf : ∀ c, st.chan name = some c → (f c).lastSeen.lookup s = c.lastSeen.lookup s) :
    st'.heard name s = st.heard name s := by
  rw [heard, hchan, heard]
  cases hc : st.chan name with
  | none => rfl
  | some c => exact hf c hc

theorem routes_map {f : Channel → Channel} (hchan : st'.chan name = (st.chan name).map f)
    (hf : ∀ c, (f c).serverList = c.serverList) : st'.routes name = st.routes name := by
  rw [routes, hchan, routes]
  cases st.chan name with
  | none => rfl
  | some c => exact hf c

theorem Reachable.remembers (hst : State.Reachable adj st) :
    ∃ rs, ∀ name c, st.chan name = some c → c.Remembers rs name := by
  obtain ⟨rs, hrun, -⟩ := hst
  exact ⟨rs, (State.Inv.remembers_run hrun).2⟩

/-- The server is on the route table just as long as its time is there. -/
theorem Reachable.isSome_heard (hst : State.Reachable adj st) :
    (st.heard name s).isSome ↔ s ∈ st.routes name := by
  obtain ⟨rs, hrem⟩ := hst.remembers
  cases hc : st.chan name with
  | none => simp [heard, routes, hc]
  | some c =>
      rw [heard_of_chan hc, routes_of_chan hc, AList.lookup_isSome]
      exact (hrem name c hc).timed s

end State

/-! ## Passes -/

theorem Channel.lookup_foldl_removeServer (h : c.sset.Coherent) (dead : List Server) (s : Server) :
    (dead.foldl Channel.removeServer c).lastSeen.lookup s =
      if s ∈ dead then none else c.lastSeen.lookup s := by
  obtain ⟨-, -, hseen, -⟩ := Channel.foldl_removeServer_spec h dead
  rw [hseen, lookup_foldl_erase (fun s => s), List.map_id']

/-- A time that is remembered after a pass is that of the pass or was there before. -/
theorem State.Inv.heard_before (h : st.Inv adj) (heff : st.Effect env input st' sent)
    (hheard : st'.heard name s = some t) :
    input = .recv s (.s2s (.join name)) ∧ t = UInt32.ofNat env.now ∨ st.heard name s = some t := by
  obtain ⟨c', hc', hlookup⟩ := heard_eq_some.mp hheard
  obtain ⟨c, hold, hchanges⟩ := h.channel_after heff hc'
  have hbefore : c.lastSeen.lookup s = some t → st.heard name s = some t := by
    intro hseen
    rcases hold with hc | rfl
    · rw [heard_of_chan hc, hseen]
    · cases hseen
  cases hchanges with
  | dismiss hjoin =>
      rw [(Channel.foldl_removeUser_routes _ c).2] at hlookup
      exact Or.inr (hbefore hlookup)
  | enroll user hnone hjoin => exact Or.inr (hbefore hlookup)
  | forget dead hnone hjoin =>
      have hcoh : c.sset.Coherent := by
        rcases hold with hc | rfl
        · exact (h.routed name c hc).coherent
        · exact ServerSet.coherent_empty
      rw [Channel.lookup_foldl_removeServer hcoh] at hlookup
      split at hlookup
      · cases hlookup
      · exact Or.inr (hbefore hlookup)
  | hear hnone hinput hhears =>
      rw [hhears.times] at hlookup
      split at hlookup
      · rename_i hs
        subst hs
        cases hlookup
        exact Or.inl ⟨hinput, rfl⟩
      · exact Or.inr (hbefore hlookup)

/-- A join sets the time of its sender. -/
theorem State.Inv.heard_join (h : st.Inv adj)
    (heff : st.Effect env (.recv s (.s2s (.join name))) st' sent) :
    st'.heard name s = some (UInt32.ofNat env.now) := by
  cases heff with
  | s2sJoin hadj hs' hsame hchan =>
      rw [heard, hchan, Function.update_self, Option.bind_some]
      cases hc : st.chan name with
      | none => simp [Channel.addServer_lookup]
      | some c => simp [Channel.heardFrom_lookup (h.routed name c hc).coherent]

/-- Pruning spares a channel with a server that is sent no leave. -/
theorem State.Pruned.heard (hs : st.Sound) (hpruned : st.Pruned st')
    (hheard : st.heard name s = some t) (hroute : s ∈ st.routes name)
    (hsent : ⟨s, .s2s (.leave name)⟩ ∉ pruneLeaves st) : st'.heard name s = some t := by
  obtain ⟨c, hc, hlookup⟩ := heard_eq_some.mp hheard
  rw [routes_of_chan hc] at hroute
  cases hprune : c.shouldPrune with
  | true => exact absurd ((mem_pruneLeaves hs).mpr ⟨name, c, hc, hprune, hroute, rfl⟩) hsent
  | false => rw [heard_of_chan (hpruned.chan_eq_some.mpr ⟨hc, hprune⟩), hlookup]

/-- A time stays until its server leaves or is left, or a pass of the time-out loop. -/
theorem State.Inv.heard_stays (h : st.Inv adj) (heff : st.Effect env input st' sent)
    (hheard : st.heard name s = some t) (hroute : s ∈ st.routes name)
    (hjoin : input ≠ .recv s (.s2s (.join name))) (hleave : input ≠ .recv s (.s2s (.leave name)))
    (hcheck : input ≠ .serverTimeout) (hsent : ⟨s, .s2s (.leave name)⟩ ∉ sent) :
    st'.heard name s = some t := by
  cases heff with
  | login cur username => exact hheard
  | @logout cur st₁ _ hs₁ hpruned hsset huset hchan =>
      have hsame : st₁.heard name s = st.heard name s := heard_map (hchan name) fun c _ => by
        cases st.uset.getUserByIp cur <;> rfl
      have hroutes : st₁.routes name = st.routes name := routes_map (hchan name) fun c => by
        cases st.uset.getUserByIp cur <;> rfl
      exact hpruned.heard hs₁ (hsame.trans hheard) (hroutes ▸ hroute) hsent
  | strangerJoin name hnone => exact hheard
  | @join cur other user _ huser hs' hsset huset hchan =>
      by_cases hname : name = other
      · subst hname
        obtain ⟨c, hc, hlookup⟩ := heard_eq_some.mp hheard
        rw [heard, hchan, Function.update_self, hc]
        exact hlookup
      · exact (heard_other hchan hname).trans hheard
  | @leave cur other user st₁ _ huser hs₁ hpruned hsset huset hchan =>
      have hmap : st₁.chan name =
          (st.chan name).map fun c => if name = other then c.removeUser user else c := by
        rw [hchan]
        by_cases hname : name = other
        · simp [hname]
        · simp [hname]
      have hsame : st₁.heard name s = st.heard name s := heard_map hmap fun c _ => by
        split <;> rfl
      have hroutes : st₁.routes name = st.routes name := routes_map hmap fun c => by
        split <;> rfl
      exact hpruned.heard hs₁ (hsame.trans hheard) (hroutes ▸ hroute) hsent
  | say text huser hc => exact hheard
  | list names huser => exact hheard
  | who name names huser => exact hheard
  | strangerKeepAlive hnone => exact hheard
  | keepAlive huser => exact hheard
  | @s2sJoin cur other _ hadj hs' hsame hchan =>
      by_cases hname : name = other
      · subst hname
        have hs : s ≠ cur := fun hs => hjoin (hs ▸ rfl)
        obtain ⟨c, hc, hlookup⟩ := heard_eq_some.mp hheard
        rw [heard, hchan, Function.update_self, hc, Option.bind_some, Option.elim_some,
          Channel.heardFrom_lookup (h.routed name c hc).coherent, if_neg hs, hlookup]
      · exact (heard_other hchan hname).trans hheard
  | @s2sLeave cur other _ hadj hs' hsame hchan =>
      by_cases hname : name = other
      · subst hname
        have hs : s ≠ cur := fun hs => hleave (hs ▸ rfl)
        obtain ⟨c, hc, hlookup⟩ := heard_eq_some.mp hheard
        have hkept := Channel.lookup_foldl_removeServer (h.routed name c hc).coherent [cur] s
        rw [if_neg (by simpa using hs)] at hkept
        rw [heard, hchan, Function.update_self, hc]
        exact hkept.trans hlookup
      · exact (heard_other hchan hname).trans hheard
  | s2sSay hc hpruned =>
      exact hpruned.heard h.sound hheard hroute fun hmem => hsent (List.mem_append_right _ hmem)
  | serverTimeout hs' hsame hchan => exact absurd rfl hcheck
  | joinSend => exact hheard
  | userTimeout hpass =>
      have hsame := heard_map (s := s) (h.sound.userTimeoutPass_chan hpass name) fun c _ => by
        rw [(Channel.foldl_removeUser_routes _ c).2]
      exact hsame.trans hheard

/-- A pass of the time-out loop forgets exactly the times that are too old. -/
theorem State.Reachable.heard_check (hst : State.Reachable adj st) (hstep : st.Step r st')
    (hinput : r.input = .serverTimeout) (name : Cname) (s : Server) :
    st'.heard name s =
      (st.heard name s).filter fun t =>
        decide ¬ joinTimeout < UInt32.ofNat r.env.now - t := by
  obtain ⟨rs, hrem⟩ := hst.remembers
  obtain ⟨st₁, hpass, -, hchan⟩ := hst.inv.serverTimeoutPass_expires hrem r.env.now
  obtain ⟨⟨-, hresult⟩, hafter⟩ := hstep
  have hst' : st' = st₁ := by
    rw [hinput] at hresult
    simp only [react, hpass] at hresult
    rw [Reaction.after, hresult] at hafter
    exact (Option.some.inj hafter).symm
  subst hst'
  cases hc : st.chan name with
  | none => rw [heard, hchan, heard, hc, Option.map_none, Option.bind_none, Option.filter_none]
  | some c =>
      have hexpired : s ∈ c.expired r.env.now ↔ s ∈ c.serverList ∧
          joinTimeout < UInt32.ofNat r.env.now - (c.lastSeen.lookup s).getD 0 := by
        rw [Channel.expired, List.mem_filter, decide_eq_true_eq]
      rw [heard, hchan, heard, hc, Option.map_some, Option.bind_some, Option.bind_some,
        Channel.expire,
        Channel.lookup_foldl_removeServer (hst.inv.routed name c hc).coherent]
      cases hlookup : c.lastSeen.lookup s with
      | none => rw [ite_self, Option.filter_none]
      | some t =>
          have hin : s ∈ c.serverList := by
            rw [← (hrem name c hc).timed s, ← AList.lookup_isSome, hlookup]
            rfl
          by_cases hlate : joinTimeout < UInt32.ofNat r.env.now - t
          · simp [Option.filter_some, hexpired, hlookup, hin, hlate]
          · simp [Option.filter_some, hexpired, hlookup, hlate]

end CliMessaging.Distributed
