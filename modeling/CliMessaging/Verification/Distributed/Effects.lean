import CliMessaging.Verification.Distributed.Requests

/-! # What a pass has done

A pass that does not bring the server down has one of finitely many effects on the
table of channels and on the users, and sends the datagrams that go with it. -/

namespace CliMessaging.Distributed

open State

variable {st : State} {env : Env} {cur : Addressable}

/-- The joins that a pass of `join_send_loop` sends. -/
def joinSends (st : State) : List Datagram :=
  (st.chans.objects st.cset.channelList).flatMap fun c => broadcastS2sJoin c.2.serverList c.2.name

theorem mem_joinSends (hs : st.Sound) {d : Datagram} :
    d ∈ joinSends st ↔ ∃ name c, st.chan name = some c ∧ d.dst ∈ c.serverList ∧
      d.msg = .s2s (.join name) := by
  simp only [joinSends, List.mem_flatMap, broadcastS2sJoin, sendMessage, List.mem_map]
  constructor
  · rintro ⟨⟨p, c⟩, hobj, t, ht, rfl⟩
    obtain ⟨hp, hc⟩ := Heap.mem_objects.mp hobj
    exact ⟨c.name, c, hs.chan_of_mem hp hc, ht, rfl⟩
  · rintro ⟨name, c, hchan, ht, hmsg⟩
    obtain ⟨p, hp, hc, rfl⟩ := hs.chan_eq_some.mp hchan
    refine ⟨(p, c), Heap.mem_objects.mpr ⟨hp, hc⟩, d.dst, ht, ?_⟩
    cases d
    cases hmsg
    rfl

/-- What a pass has done that did not bring the server down, by the kind of its input. -/
inductive State.Effect (st : State) (env : Env) : Input → State → List Datagram → Prop where
  | login (cur : Addressable) (username : Uname) :
      Effect st env (.recv cur (.client (.login username)))
        (st.cliLogin env.now username cur) []
  | logout {cur : Addressable} {st₁ st' : State} : st₁.Sound → st₁.Pruned st' →
      st₁.sset = st.sset → st₁.uset = st.uset.removeUserByIp cur →
      (∀ name, st₁.chan name = (st.chan name).map fun c =>
        (st.uset.getUserByIp cur).elim c c.removeUser) →
      Effect st env (.recv cur (.client .logout)) st' (pruneLeaves st₁)
  | strangerJoin {cur : Addressable} (name : Cname) : st.uset.getUserByIp cur = none →
      Effect st env (.recv cur (.client (.join name))) st
        (broadcastS2sJoin st.sset.serverList name)
  | join {cur : Addressable} {name : Cname} {user : User} {st' : State} :
      st.uset.getUserByIp cur = some user → st'.Sound → st'.sset = st.sset →
      st'.uset = st.uset →
      st'.chan = Function.update st.chan name
        (some (((st.chan name).getD (Channel.new name)).addUser user)) →
      Effect st env (.recv cur (.client (.join name))) st'
        (broadcastS2sJoin st.sset.serverList name)
  | leave {cur : Addressable} {name : Cname} {user : User} {st₁ st' : State} :
      st.uset.getUserByIp cur = some user → st₁.Sound → st₁.Pruned st' →
      st₁.sset = st.sset → st₁.uset = st.uset →
      st₁.chan = Function.update st.chan name ((st.chan name).map (·.removeUser user)) →
      Effect st env (.recv cur (.client (.leave name))) st' (pruneLeaves st₁)
  | say {cur : Addressable} {name : Cname} {user : User} {c : Channel} (text : SayText) :
      st.uset.getUserByIp cur = some user → st.chan name = some c →
      Effect st env (.recv cur (.client (.say name text))) (st.updateLastSeen env.now user)
        (broadcastSay (c.userList.map User.addr) name user.name text ++
          broadcastS2sSay c.serverList env.uid user.name name text)
  | list {cur : Addressable} {user : User} (names : List Cname) :
      st.uset.getUserByIp cur = some user →
      Effect st env (.recv cur (.client .list)) (st.updateLastSeen env.now user)
        (broadcastChannelList [cur] names)
  | who {cur : Addressable} {user : User} (name : Cname) (names : List Uname) :
      st.uset.getUserByIp cur = some user →
      Effect st env (.recv cur (.client (.who name))) (st.updateLastSeen env.now user)
        (broadcastWho [cur] name names)
  | strangerKeepAlive {cur : Addressable} : st.uset.getUserByIp cur = none →
      Effect st env (.recv cur (.client .keepAlive)) st []
  | keepAlive {cur : Addressable} {user : User} : st.uset.getUserByIp cur = some user →
      Effect st env (.recv cur (.client .keepAlive)) (st.updateLastSeen env.now user) []
  | s2sJoin {cur : Addressable} {name : Cname} {st' : State} : cur ∈ st.sset.serverList →
      st'.Sound → SameUsers st st' →
      st'.chan = Function.update st.chan name
        (some ((st.chan name).elim ((Channel.new name).addServer env.now cur)
          fun c => c.heardFrom env.now cur)) →
      Effect st env (.recv cur (.s2s (.join name))) st'
        (if (st.chan name).isSome then [] else broadcastS2sJoin st.sset.serverList name)
  | s2sLeave {cur : Addressable} {name : Cname} {st' : State} : cur ∈ st.sset.serverList →
      st'.Sound → SameUsers st st' →
      st'.chan = Function.update st.chan name ((st.chan name).map (·.removeServer cur)) →
      Effect st env (.recv cur (.s2s (.leave name))) st' []
  | s2sSay {cur : Addressable} {uid : MsgUid} {username : Uname} {name : Cname}
      {text : SayText} {c : Channel} {st' : State} : st.chan name = some c → st.Pruned st' →
      Effect st env (.recv cur (.s2s (.say uid username name text))) st'
        (broadcastS2sSay (c.serverList.filter (· ≠ cur)) uid username name text ++
          broadcastSay (c.userList.map User.addr) name username text ++ pruneLeaves st)
  | serverTimeout {st' : State} : st'.Sound → SameUsers st st' →
      (∀ name, ∃ dead : List Server,
        st'.chan name = (st.chan name).map fun c => dead.foldl Channel.removeServer c) →
      Effect st env .serverTimeout st' []
  | joinSend : Effect st env .joinSend st (joinSends st)
  | userTimeout {st' : State} : userTimeoutPass st env.now = .ok st' →
      Effect st env .userTimeout st' []

theorem effect_of_client {req : ClientRequest} {st' : State} {sent : List Datagram}
    (hs : st.Sound) (hok : handler st env cur (.client req) = .ok (st', sent)) :
    st.Effect env (.recv cur (.client req)) st' sent := by
  cases req with
  | login username =>
      cases hok
      exact .login cur username
  | logout =>
      obtain ⟨st₁, st₂, heq, hs₁, hpruned, hsset, -, huset, hchan⟩ := handleLogout_spec hs cur
      simp only [handler, heq] at hok
      cases hok
      exact .logout hs₁ hpruned hsset huset hchan
  | join name =>
      cases huser : st.uset.getUserByIp cur with
      | none =>
          simp only [handler, handleJoin_of_stranger huser] at hok
          cases hok
          exact .strangerJoin name huser
      | some user =>
          obtain ⟨st₁, heq, hs₁, hsset, huset, hchan⟩ := handleJoin_spec hs huser env name
          simp only [handler, heq] at hok
          cases hok
          exact .join huser hs₁ hsset huset hchan
  | leave name =>
      cases huser : st.uset.getUserByIp cur with
      | none =>
          simp only [handler, handleLeave_of_stranger huser] at hok
          cases hok
      | some user =>
          obtain ⟨st₁, st₂, heq, hs₁, hpruned, hsset, huset, -, hchan⟩ :=
            handleLeave_spec hs huser env name
          simp only [handler, heq] at hok
          cases hok
          exact .leave huser hs₁ hpruned hsset huset hchan
  | say name text =>
      cases huser : st.uset.getUserByIp cur with
      | none =>
          simp only [handler, handleSay_of_stranger huser] at hok
          cases hok
      | some user =>
          cases hc : st.chan name with
          | none =>
              simp only [handler, handleSay_of_no_channel hs hc] at hok
              cases hok
          | some c =>
              simp only [handler, handleSay_spec hs huser hc] at hok
              cases hok
              exact .say text huser hc
  | list =>
      cases huser : st.uset.getUserByIp cur with
      | none =>
          simp only [handler, handleList_of_stranger huser] at hok
          cases hok
      | some user =>
          simp only [handler, handleList_spec hs huser] at hok
          cases hok
          exact .list _ huser
  | who name =>
      cases huser : st.uset.getUserByIp cur with
      | none =>
          simp only [handler, handleWho_of_stranger huser] at hok
          cases hok
      | some user =>
          cases hc : st.chan name with
          | none =>
              simp only [handler, handleWho_of_no_channel hs hc] at hok
              cases hok
          | some c =>
              simp only [handler, handleWho_spec hs huser hc] at hok
              cases hok
              exact .who name _ huser
  | keepAlive =>
      cases hok
      unfold cliKeepAlive
      cases huser : st.uset.getUserByIp cur with
      | none => exact .strangerKeepAlive huser
      | some user => exact .keepAlive huser

theorem effect_of_s2s {msg : S2sMsg} {st' : State} {sent : List Datagram} (hs : st.Sound)
    (huids : ∀ name c, st.chan name = some c → c.uidSet = ∅)
    (hok : handler st env cur (.s2s msg) = .ok (st', sent)) :
    st.Effect env (.recv cur (.s2s msg)) st' sent := by
  cases msg with
  | join name =>
      by_cases hadj : cur ∈ st.sset.serverList
      · obtain ⟨st₁, heq, hs₁, hsame, hchan⟩ := handleS2sJoin_spec hs hadj env name
        simp only [handler, heq] at hok
        cases hok
        exact .s2sJoin hadj hs₁ hsame hchan
      · simp only [handler, handleS2sJoin_of_stranger hadj] at hok
        cases hok
  | leave name =>
      by_cases hadj : cur ∈ st.sset.serverList
      · obtain ⟨st₁, heq, hs₁, hsame, hchan⟩ := handleS2sLeave_spec hs hadj name
        simp only [handler, heq] at hok
        cases hok
        exact .s2sLeave hadj hs₁ hsame hchan
      · simp only [handler, handleS2sLeave_of_stranger hadj] at hok
        cases hok
  | say uid username name text =>
      cases hc : st.chan name with
      | none =>
          simp only [handler, handleS2sSay_of_no_channel hs hc] at hok
          cases hok
      | some c =>
          have hnew : uid ∉ c.uidSet := by simp [huids name c hc]
          obtain ⟨st₁, heq, hpruned⟩ := handleS2sSay_spec hs hc hnew cur username text
          simp only [handler, heq] at hok
          cases hok
          exact .s2sSay hc hpruned

/-- Every pass that does not bring the server down has one of the effects. -/
theorem effect_of_ok {input : Input} {st' : State} {sent : List Datagram} (hs : st.Sound)
    (huids : ∀ name c, st.chan name = some c → c.uidSet = ∅)
    (hok : st.react env input = .ok (st', sent)) : st.Effect env input st' sent := by
  cases input with
  | recv src req =>
      cases req with
      | client req => exact effect_of_client hs hok
      | s2s msg => exact effect_of_s2s hs huids hok
  | serverTimeout =>
      obtain ⟨st₁, hpass, heq⟩ := bind_eq_ok.mp hok
      cases heq
      obtain ⟨hs', hsame, hchan⟩ := hs.removeDeadServers (fun _ hp => hp) hpass
      exact .serverTimeout hs' hsame hchan
  | joinSend =>
      have hread : st.chans.readAll st.cset.channelList = _ := Heap.readAll_of_live hs.live
      simp only [react, joinSendPass, hread, bind_ok] at hok
      cases hok
      exact .joinSend
  | userTimeout =>
      obtain ⟨st₁, hpass, heq⟩ := bind_eq_ok.mp hok
      cases heq
      exact .userTimeout hpass

end CliMessaging.Distributed
