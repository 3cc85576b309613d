import CliMessaging.Verification.Distributed.UserDirectory

/-! # What a pass does to one channel

Seen from one channel, a pass takes users off it, adds one, drops routes or refreshes one. -/

namespace CliMessaging.Distributed

open State

/-- The users that an input takes off a channel. -/
def State.dismissed (st : State) (env : Env) (name : Cname) : Input → List User
  | .recv cur (.client .logout) => (st.uset.getUserByIp cur).toList
  | .recv cur (.client (.leave other)) =>
      if other = name then (st.uset.getUserByIp cur).toList else []
  | .userTimeout => st.idleUsers env.now st.uset.userList
  | _ => []

/-- A join from a server for the channel `name`. -/
def Input.IsJoinFor (name : Cname) (input : Input) : Prop :=
  ∃ s, input = .recv s (.s2s (.join name))

/-- `c'` is `c` after a join from a server, as far as routes are concerned. -/
structure Channel.Hears (c c' : Channel) (now : ℕ) (server : Server) : Prop where
  users : c'.uset = c.uset
  servers : ∀ s, s ∈ c'.serverList ↔ s ∈ c.serverList ∨ s = server
  times : ∀ s, c'.lastSeen.lookup s =
    if s = server then some (UInt32.ofNat now) else c.lastSeen.lookup s

/-- What has become of a channel of the state, or of one that has just been made. -/
inductive Channel.Changes (st : State) (env : Env) (input : Input) (name : Cname) (c : Channel) :
    Channel → Prop where
  | dismiss : ¬ input.IsJoinFor name →
      Changes st env input name c ((st.dismissed env name input).foldl Channel.removeUser c)
  | enroll (user : User) : st.dismissed env name input = [] → ¬ input.IsJoinFor name →
      Changes st env input name c (c.addUser user)
  | forget (dead : List Server) : st.dismissed env name input = [] → ¬ input.IsJoinFor name →
      Changes st env input name c (dead.foldl Channel.removeServer c)
  | hear {cur : Server} {c' : Channel} : st.dismissed env name input = [] →
      input = .recv cur (.s2s (.join name)) → c.Hears c' env.now cur →
      Changes st env input name c c'

variable {adj : List Server} {st st' : State} {env : Env} {c : Channel} {name : Cname}
  {input : Input} {sent : List Datagram}

/-! ## Joins from servers -/

namespace Channel

theorem addServer_lastSeen (c : Channel) (now : ℕ) (server : Server) :
    (c.addServer now server).lastSeen =
      (c.lastSeen.erase server).insert server (UInt32.ofNat now) :=
  insertNew_of_lookup_none (AList.lookup_erase _ _) _

/-- What the times say after a server has been heard from. -/
theorem heardFrom_lookup (h : c.sset.Coherent) (now : ℕ) (server s : Server) :
    (c.heardFrom now server).lastSeen.lookup s =
      if s = server then some (UInt32.ofNat now) else c.lastSeen.lookup s := by
  have hadded : (c.addServer now server).containsServer server := by
    obtain ⟨hcoh, hlist⟩ := addServer_sset h now server
    rw [containsServer_iff hcoh, hlist]
    simp
  unfold heardFrom
  by_cases hs : s = server
  · subst hs
    split
    · rename_i hin
      simp [serverHeartbeat, hin]
    · simp [serverHeartbeat, hadded]
  · split
    · rename_i hin
      simp [serverHeartbeat, hin, hs]
    · simp [serverHeartbeat, hadded, hs, addServer_lastSeen]

theorem addServer_lookup (c : Channel) (now : ℕ) (server s : Server) :
    (c.addServer now server).lastSeen.lookup s =
      if s = server then some (UInt32.ofNat now) else c.lastSeen.lookup s := by
  rw [addServer_lastSeen]
  by_cases hs : s = server
  · subst hs
    simp
  · simp [hs]

theorem hears_heardFrom (h : c.sset.Coherent) (now : ℕ) (server : Server) :
    c.Hears (c.heardFrom now server) now server :=
  ⟨c.heardFrom_uset now server, (heardFrom_sset h now server).2, heardFrom_lookup h now server⟩

theorem hears_addServer (name : Cname) (now : ℕ) (server : Server) :
    (Channel.new name).Hears ((Channel.new name).addServer now server) now server := by
  refine ⟨rfl, fun t => ?_, addServer_lookup _ now server⟩
  rw [(addServer_sset ServerSet.coherent_empty now server).2]
  simp [serverList, Channel.new, ServerSet.empty]

end Channel

/-! ## Passes -/

theorem foldl_toList_removeUser (user : Option User) (c : Channel) :
    user.toList.foldl Channel.removeUser c = user.elim c c.removeUser := by
  cases user <;> rfl

theorem not_isJoinFor_client (name : Cname) (cur : Addressable) (req : ClientRequest) :
    ¬ (Input.recv cur (.client req)).IsJoinFor name := by
  rintro ⟨s, hs⟩
  cases hs

/-- The channel comes from the channel of its name, or from a new one. -/
def State.Makes (st : State) (env : Env) (input : Input) (name : Cname) (c' : Channel) : Prop :=
  ∃ c, (st.chan name = some c ∨ c = Channel.new name) ∧ c.Changes st env input name c'

namespace State

theorem makes_same (hc : st.chan name = some c) (hnone : st.dismissed env name input = [])
    (hjoin : ¬ input.IsJoinFor name) : st.Makes env input name c :=
  ⟨c, Or.inl hc, .forget [] hnone hjoin⟩

/-- A pass that writes to the channel `other` only. -/
theorem makes_of_update {other : Cname} {found : Option Channel} {c' : Channel}
    (hc' : Function.update st.chan other found name = some c')
    (hother : name ≠ other → st.dismissed env name input = [] ∧ ¬ input.IsJoinFor name)
    (hself : name = other → found = some c' → st.Makes env input name c') :
    st.Makes env input name c' := by
  by_cases hname : name = other
  · rw [hname, Function.update_self] at hc'
    exact hself hname hc'
  · rw [Function.update_of_ne hname] at hc'
    obtain ⟨hnone, hjoin⟩ := hother hname
    exact makes_same hc' hnone hjoin

theorem makes_join (st : State) (env : Env) (cur : Addressable) (name : Cname) (user : User) :
    st.Makes env (.recv cur (.client (.join name))) name
      (((st.chan name).getD (Channel.new name)).addUser user) := by
  refine ⟨_, ?_, .enroll user rfl (not_isJoinFor_client _ _ _)⟩
  cases st.chan name with
  | none => exact Or.inr rfl
  | some c => exact Or.inl rfl

theorem makes_leave {cur : Addressable} {user : User} (hc : st.chan name = some c)
    (huser : st.uset.getUserByIp cur = some user) :
    st.Makes env (.recv cur (.client (.leave name))) name (c.removeUser user) := by
  have hone : st.dismissed env name (.recv cur (.client (.leave name))) = [user] := by
    simp [dismissed, huser]
  have hchange : c.Changes st env (.recv cur (.client (.leave name))) name
      ((st.dismissed env name (.recv cur (.client (.leave name)))).foldl Channel.removeUser c) :=
    .dismiss (not_isJoinFor_client _ _ _)
  rw [hone] at hchange
  exact ⟨c, Or.inl hc, hchange⟩

theorem Inv.makes_s2sJoin (h : st.Inv adj) (env : Env) (cur : Server) (name : Cname) :
    st.Makes env (.recv cur (.s2s (.join name))) name
      ((st.chan name).elim ((Channel.new name).addServer env.now cur)
        fun c => c.heardFrom env.now cur) := by
  cases hc : st.chan name with
  | none => exact ⟨_, Or.inr rfl, .hear rfl rfl (Channel.hears_addServer name env.now cur)⟩
  | some c =>
      have hcoh := (h.routed name c hc).coherent
      exact ⟨c, Or.inl hc, .hear rfl rfl (Channel.hears_heardFrom hcoh env.now cur)⟩

/-- Every channel after a pass comes from the channel of its name, or is new. -/
theorem Inv.channel_after (h : st.Inv adj) (heff : st.Effect env input st' sent)
    {c' : Channel} (hc' : st'.chan name = some c') : st.Makes env input name c' := by
  cases heff with
  | login cur username => exact makes_same hc' rfl (not_isJoinFor_client _ _ _)
  | @logout cur st₁ _ hs₁ hpruned hsset huset hchan =>
      obtain ⟨hc₁, -⟩ := hpruned.chan_eq_some.mp hc'
      rw [hchan] at hc₁
      obtain ⟨c, hc, rfl⟩ := Option.map_eq_some_iff.mp hc₁
      refine ⟨c, Or.inl hc, ?_⟩
      rw [← foldl_toList_removeUser]
      exact .dismiss (not_isJoinFor_client _ _ _)
  | strangerJoin other hnone => exact makes_same hc' rfl (not_isJoinFor_client _ _ _)
  | @join cur other user _ huser hs' hsset huset hchan =>
      rw [hchan] at hc'
      apply makes_of_update hc' fun _ => ⟨rfl, not_isJoinFor_client _ _ _⟩
      intro hname hfound
      cases hname
      cases hfound
      exact makes_join st env cur name user
  | @leave cur other user st₁ _ huser hs₁ hpruned hsset huset hchan =>
      obtain ⟨hc₁, -⟩ := hpruned.chan_eq_some.mp hc'
      rw [hchan] at hc₁
      refine makes_of_update hc₁ (fun hne => ?_) fun hname hfound => ?_
      · exact ⟨by simp [dismissed, Ne.symm hne], not_isJoinFor_client _ _ _⟩
      · cases hname
        obtain ⟨c, hc, rfl⟩ := Option.map_eq_some_iff.mp hfound
        exact makes_leave hc huser
  | say text huser hc => exact makes_same hc' rfl (not_isJoinFor_client _ _ _)
  | list names huser => exact makes_same hc' rfl (not_isJoinFor_client _ _ _)
  | who other names huser => exact makes_same hc' rfl (not_isJoinFor_client _ _ _)
  | strangerKeepAlive hnone => exact makes_same hc' rfl (not_isJoinFor_client _ _ _)
  | keepAlive huser => exact makes_same hc' rfl (not_isJoinFor_client _ _ _)
  | @s2sJoin cur other _ hadj hs' hsameUsers hchan =>
      rw [hchan] at hc'
      refine makes_of_update hc' (fun hne => ?_) fun hname hfound => ?_
      · exact ⟨rfl, by simp [Input.IsJoinFor, Ne.symm hne]⟩
      · cases hname
        cases hfound
        exact h.makes_s2sJoin env cur name
  | @s2sLeave cur other _ hadj hs' hsameUsers hchan =>
      rw [hchan] at hc'
      refine makes_of_update hc' (fun _ => ?_) fun hname hfound => ?_
      · exact ⟨rfl, by simp [Input.IsJoinFor]⟩
      · cases hname
        obtain ⟨c, hc, rfl⟩ := Option.map_eq_some_iff.mp hfound
        exact ⟨c, Or.inl hc, .forget [cur] rfl (by simp [Input.IsJoinFor])⟩
  | s2sSay hc hpruned =>
      exact makes_same (hpruned.chan_eq_some.mp hc').1 rfl (by simp [Input.IsJoinFor])
  | serverTimeout hs' hsameUsers hchan =>
      obtain ⟨dead, hdead⟩ := hchan name
      rw [hdead] at hc'
      obtain ⟨c, hc, rfl⟩ := Option.map_eq_some_iff.mp hc'
      exact ⟨c, Or.inl hc, .forget dead rfl (by simp [Input.IsJoinFor])⟩
  | joinSend => exact makes_same hc' rfl (by simp [Input.IsJoinFor])
  | userTimeout hpass =>
      rw [h.sound.userTimeoutPass_chan hpass] at hc'
      obtain ⟨c, hc, rfl⟩ := Option.map_eq_some_iff.mp hc'
      exact ⟨c, Or.inl hc, .dismiss (by simp [Input.IsJoinFor])⟩

end State

end CliMessaging.Distributed
