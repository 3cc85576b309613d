import CliMessaging.Verification.Distributed.Operations

/-! # What each request does

One specification for each handler, on a sound state. Requests are split by whether
the sender is logged in and whether the channel exists. -/

namespace CliMessaging.Distributed

open State

variable {st : State} {env : Env} {cur : Addressable} {name : Cname} {user : User}
  {c : Channel} {text : SayText} {uid : MsgUid} {username : Uname}

def State.LoggedIn (st : State) (cur : Addressable) : Prop :=
  ∃ user, st.uset.getUserByIp cur = some user

theorem not_loggedIn : ¬ st.LoggedIn cur ↔ st.uset.getUserByIp cur = none := by
  rw [State.LoggedIn, ← Option.isSome_iff_exists, Option.not_isSome_iff_eq_none]

/-! ## Client requests -/

theorem handleLogout_spec (hs : st.Sound) (cur : Addressable) :
    ∃ st₁ st', handleLogout st cur = .ok (st', pruneLeaves st₁) ∧ st₁.Sound ∧
      st₁.Pruned st' ∧ st₁.sset = st.sset ∧ st₁.lastSeen = st.lastSeen ∧
      st₁.uset = st.uset.removeUserByIp cur ∧
      ∀ name, st₁.chan name = (st.chan name).map fun c =>
        (st.uset.getUserByIp cur).elim c c.removeUser := by
  obtain ⟨st₁, hlogout, hs₁, hsset, hseen, huset, hchan⟩ := hs.cliLogout cur
  obtain ⟨st', hprune, hpruned⟩ := hs₁.prune
  exact ⟨st₁, st', by simp [handleLogout, hlogout, hprune], hs₁, hpruned, hsset, hseen, huset,
    hchan⟩

theorem handleJoin_of_stranger (hnone : st.uset.getUserByIp cur = none) :
    handleJoin st env cur name = .ok (st, broadcastS2sJoin st.sset.serverList name) := by
  simp [handleJoin, cliJoin, hnone, s2sGetServers]

theorem handleJoin_spec (hs : st.Sound) (huser : st.uset.getUserByIp cur = some user)
    (env : Env) (name : Cname) :
    ∃ st', handleJoin st env cur name =
        .ok (st', broadcastS2sJoin st.sset.serverList name) ∧ st'.Sound ∧
      st'.sset = st.sset ∧ st'.uset = st.uset ∧
      st'.chan = Function.update st.chan name
        (some (((st.chan name).getD (Channel.new name)).addUser user)) := by
  obtain ⟨st', hjoin, hs', hsset, huset, hchan⟩ := hs.cliJoin huser env.now name
  refine ⟨st', ?_, hs', hsset, huset, hchan⟩
  simp [handleJoin, hjoin, s2sGetServers, hsset]

theorem handleLeave_of_stranger (hnone : st.uset.getUserByIp cur = none) :
    handleLeave st env cur name = .error .nullPointer := by
  simp [handleLeave, cliLeave, cliGetChannels, hnone, channelPruningProcedure]

theorem handleLeave_spec (hs : st.Sound) (huser : st.uset.getUserByIp cur = some user)
    (env : Env) (name : Cname) :
    ∃ st₁ st', handleLeave st env cur name = .ok (st', pruneLeaves st₁) ∧ st₁.Sound ∧
      st₁.Pruned st' ∧ st₁.sset = st.sset ∧ st₁.uset = st.uset ∧
      (∀ p ≠ user.ptr, st₁.lastSeen p = st.lastSeen p) ∧
      st₁.chan = Function.update st.chan name ((st.chan name).map (·.removeUser user)) := by
  obtain ⟨st₀, hleave, hs₀, hsset, huset, hseen, hchan⟩ := hs.cliLeave huser env.now name
  have huser₀ : st₀.uset.getUserByIp cur = some user := by rw [huset, huser]
  have hs₁ := hs₀.updateLastSeen env.now user
  obtain ⟨st', hprune, hpruned⟩ := hs₁.prune
  refine ⟨_, st', ?_, hs₁, hpruned, hsset, huset, fun p hp => ?_, hchan⟩
  · simp only [handleLeave, hleave, bind_ok, cliGetChannels, huser₀]
    exact hprune
  · exact (Function.update_of_ne hp _ _).trans (hseen p hp)

theorem handleSay_of_stranger (hnone : st.uset.getUserByIp cur = none) :
    handleSay st env cur name text = .error .nullPointer := by
  simp [handleSay, getUsername, hnone]

theorem handleSay_of_no_channel (hs : st.Sound) (hchan : st.chan name = none) :
    handleSay st env cur name text = .error .nullPointer := by
  cases huser : st.uset.getUserByIp cur with
  | none => exact handleSay_of_stranger huser
  | some user =>
      have hnone : (st.updateLastSeen env.now user).chan name = none := hchan
      simp [handleSay, getUsername, huser, cliGetChannelUsers,
        (hs.updateLastSeen env.now user).channel?_eq, hnone]

theorem handleSay_spec (hs : st.Sound) (huser : st.uset.getUserByIp cur = some user)
    (hchan : st.chan name = some c) :
    handleSay st env cur name text =
      .ok (st.updateLastSeen env.now user,
        broadcastSay (c.userList.map User.addr) name user.name text ++
          broadcastS2sSay c.serverList env.uid user.name name text) := by
  have hsome : (st.updateLastSeen env.now user).chan name = some c := hchan
  simp [handleSay, getUsername, huser, cliGetChannelUsers, s2sChannelGetServers,
    (hs.updateLastSeen env.now user).channel?_eq, hsome]

theorem handleList_of_stranger (hnone : st.uset.getUserByIp cur = none) :
    handleList st env cur = .error .nullPointer := by
  simp [handleList, cliGetChannels, hnone]

theorem handleList_spec (hs : st.Sound) (huser : st.uset.getUserByIp cur = some user) :
    handleList st env cur =
      .ok (st.updateLastSeen env.now user, broadcastChannelList [cur]
        ((st.chans.objects st.cset.channelList).map fun c => c.2.name)) := by
  have hread : (st.updateLastSeen env.now user).chans.readAll st.cset.channelList =
      .ok (st.chans.objects st.cset.channelList) := Heap.readAll_of_live hs.live
  simp [handleList, cliGetChannels, huser, hread]

theorem handleWho_of_stranger (hnone : st.uset.getUserByIp cur = none) :
    handleWho st env cur name = .error .nullPointer := by
  simp [handleWho, cliGetChannelUsers, hnone]

theorem handleWho_of_no_channel (hs : st.Sound) (hchan : st.chan name = none) :
    handleWho st env cur name = .error .nullPointer := by
  cases huser : st.uset.getUserByIp cur with
  | none => exact handleWho_of_stranger huser
  | some user =>
      have hnone : (st.updateLastSeen env.now user).chan name = none := hchan
      simp [handleWho, cliGetChannelUsers, huser,
        (hs.updateLastSeen env.now user).channel?_eq, hnone]

theorem handleWho_spec (hs : st.Sound) (huser : st.uset.getUserByIp cur = some user)
    (hchan : st.chan name = some c) :
    handleWho st env cur name =
      .ok (st.updateLastSeen env.now user,
        broadcastWho [cur] name (c.userList.map User.name)) := by
  have hsome : (st.updateLastSeen env.now user).chan name = some c := hchan
  simp [handleWho, cliGetChannelUsers, huser, (hs.updateLastSeen env.now user).channel?_eq, hsome]

/-! ## Server-to-server messages -/

theorem handleS2sJoin_of_stranger (hadj : cur ∉ st.sset.serverList) :
    handleS2sJoin st env cur name = .error .nullPointer := by
  simp [handleS2sJoin, s2sJoin, st.sset.getServerByAddr_eq_none.mpr hadj]

/-- A join is forwarded exactly by the servers that did not have the channel. -/
theorem handleS2sJoin_spec (hs : st.Sound) (hadj : cur ∈ st.sset.serverList) (env : Env)
    (name : Cname) :
    ∃ st', handleS2sJoin st env cur name =
        .ok (st', if (st.chan name).isSome then []
          else broadcastS2sJoin st.sset.serverList name) ∧ st'.Sound ∧ SameUsers st st' ∧
      st'.chan = Function.update st.chan name
        (some ((st.chan name).elim ((Channel.new name).addServer env.now cur)
          fun c => c.heardFrom env.now cur)) := by
  obtain ⟨st', hjoin, hs', hsame, hchan⟩ := hs.s2sJoin hadj env.now name
  refine ⟨st', ?_, hs', hsame, hchan⟩
  simp [handleS2sJoin, hjoin, s2sGetServers, hsame.sset]

theorem handleS2sLeave_of_stranger (hadj : cur ∉ st.sset.serverList) :
    handleS2sLeave st cur name = .error .nullPointer := by
  simp [handleS2sLeave, s2sLeave, st.sset.getServerByAddr_eq_none.mpr hadj]

theorem handleS2sLeave_spec (hs : st.Sound) (hadj : cur ∈ st.sset.serverList)
    (name : Cname) :
    ∃ st', handleS2sLeave st cur name = .ok (st', []) ∧ st'.Sound ∧ SameUsers st st' ∧
      st'.chan = Function.update st.chan name ((st.chan name).map (·.removeServer cur)) := by
  obtain ⟨st', hleave, hs', hsame, hchan⟩ := hs.s2sLeave hadj name
  exact ⟨st', by simp [handleS2sLeave, hleave], hs', hsame, hchan⟩

theorem State.Sound.channelAlreadyGotMessage (hs : st.Sound) (name : Cname) (uid : MsgUid) :
    st.channelAlreadyGotMessage name uid =
      .ok ((st.chan name).elim false fun c => c.containsId uid) := by
  simp only [State.channelAlreadyGotMessage, hs.channel?_eq, bind_ok, pure_eq_ok]
  cases st.chan name <;> rfl

theorem handleS2sSay_of_no_channel (hs : st.Sound) (hchan : st.chan name = none) :
    handleS2sSay st cur uid username name text = .error .nullPointer := by
  simp [handleS2sSay, hs.channelAlreadyGotMessage, hchan, forwardAndDeliver,
    s2sChannelGetServers, hs.channel?_eq]

/-- A message that is new to the channel goes to its other servers and to its users,
and the server prunes. -/
theorem handleS2sSay_spec (hs : st.Sound) (hchan : st.chan name = some c)
    (hnew : uid ∉ c.uidSet) (cur : Addressable) (username : Uname) (text : SayText) :
    ∃ st', handleS2sSay st cur uid username name text =
        .ok (st', broadcastS2sSay (c.serverList.filter (· ≠ cur)) uid username name text ++
          broadcastSay (c.userList.map User.addr) name username text ++ pruneLeaves st) ∧
      st.Pruned st' := by
  obtain ⟨st', hprune, hpruned⟩ := hs.prune
  refine ⟨st', ?_, hpruned⟩
  have hfilter : (c.serverList.filter fun s => !Addressable.compareAddrs cur s) =
      c.serverList.filter (· ≠ cur) := by
    apply List.filter_congr
    intro s _
    simp [Addressable.compareAddrs, eq_comm]
  simp [handleS2sSay, hs.channelAlreadyGotMessage, hchan, Channel.containsId, hnew,
    forwardAndDeliver, s2sChannelGetServers, s2sChannelGetUsers, hs.channel?_eq, hprune, hfilter]

end CliMessaging.Distributed
