import CliMessaging.Verification.Distributed.UserDirectory

/-! # The times of users

The time at which a user was last seen is that of the last request from its address, so the
time-out loop logs it out exactly 120 seconds later. -/

namespace CliMessaging.Distributed

open State Transition

/-- Neither the times nor the number of the next user have changed. -/
structure SameTimes (st st' : State) : Prop where
  lastSeen : st'.lastSeen = st.lastSeen
  nextUser : st'.nextUser = st.nextUser

variable {adj : List Server} {st st' st₁ : State} {env : Env} {input : Input} {now p : ℕ}
  {cur : Addressable} {name : Cname} {user u v : User} {sent : List Datagram} {r : Reaction}

theorem SameTimes.refl (st : State) : SameTimes st st := ⟨rfl, rfl⟩

theorem SameTimes.trans (h : SameTimes st st₁) (k : SameTimes st₁ st') : SameTimes st st' :=
  ⟨k.lastSeen.trans h.lastSeen, k.nextUser.trans h.nextUser⟩

theorem State.SameUsers.times (h : SameUsers st st') : SameTimes st st' := ⟨h.lastSeen, h.nextUser⟩

/-! ## Operations -/

theorem modifyChannel_times {f : Channel → Channel} (hok : st.modifyChannel p f = .ok st') :
    SameTimes st st' := by
  obtain ⟨chans, -, heq⟩ := bind_eq_ok.mp hok
  cases heq
  exact ⟨rfl, rfl⟩

theorem removeUser_times (hok : st.removeUser user = .ok st') : SameTimes st st' := by
  obtain ⟨chans, -, heq⟩ := bind_eq_ok.mp hok
  cases heq
  exact ⟨rfl, rfl⟩

theorem removeIdleUsers_times {users : List User} (hok : removeIdleUsers now users st = .ok st') :
    SameTimes st st' := by
  induction users generalizing st with
  | nil =>
      cases hok
      exact .refl _
  | cons u users ih =>
      simp only [removeIdleUsers] at hok
      split at hok
      · obtain ⟨st₁, hfirst, hrest⟩ := bind_eq_ok.mp hok
        exact (removeUser_times hfirst).trans (ih hrest)
      · exact ih hok

theorem deleteChannels_times {ps : List ℕ} (hok : deleteChannels st ps = .ok st') :
    SameTimes st st' := by
  induction ps generalizing st with
  | nil =>
      cases hok
      exact .refl _
  | cons p ps ih =>
      rw [deleteChannels] at hok
      obtain ⟨st₁, hfirst, hrest⟩ := bind_eq_ok.mp hok
      obtain ⟨cset, -, hfirst⟩ := bind_eq_ok.mp hfirst
      obtain ⟨chans, -, heq⟩ := bind_eq_ok.mp hfirst
      cases heq
      have htimes := ih hrest
      exact ⟨htimes.lastSeen, htimes.nextUser⟩

theorem channelPruningProcedure_times {channels : Option (List ℕ)}
    (hok : channelPruningProcedure st channels = .ok (st', sent)) : SameTimes st st' := by
  obtain ⟨ps, -, hok⟩ := bind_eq_ok.mp hok
  obtain ⟨objects, -, hok⟩ := bind_eq_ok.mp hok
  obtain ⟨st₁, hdelete, heq⟩ := bind_eq_ok.mp hok
  cases heq
  exact deleteChannels_times hdelete

theorem cliJoin_times (huser : st.uset.getUserByIp cur = some user)
    (hok : st.cliJoin now cur name = .ok st') : SameTimes (st.updateLastSeen now user) st' := by
  simp only [cliJoin, huser] at hok
  split at hok
  · exact modifyChannel_times hok
  · cases hok
    exact ⟨rfl, rfl⟩

theorem cliLeave_times (huser : st.uset.getUserByIp cur = some user)
    (hok : st.cliLeave now cur name = .ok st') : SameTimes (st.updateLastSeen now user) st' := by
  simp only [cliLeave, huser] at hok
  split at hok
  · exact modifyChannel_times hok
  · cases hok
    exact .refl _

/-! ## Handlers -/

theorem handleLogout_times (hok : handleLogout st cur = .ok (st', sent)) : SameTimes st st' := by
  obtain ⟨st₁, hlogout, hprune⟩ := bind_eq_ok.mp hok
  refine SameTimes.trans ?_ (channelPruningProcedure_times hprune)
  unfold cliLogout at hlogout
  split at hlogout
  · cases hlogout
    exact .refl st
  · exact removeUser_times hlogout

theorem handleJoin_times (huser : st.uset.getUserByIp cur = some user)
    (hok : handleJoin st env cur name = .ok (st', sent)) :
    SameTimes (st.updateLastSeen env.now user) st' := by
  obtain ⟨st₁, hjoin, heq⟩ := bind_eq_ok.mp hok
  cases heq
  exact cliJoin_times huser hjoin

/-- The client is seen a second time when the channels are read for the pruning. -/
theorem State.Sound.handleLeave_times (hs : st.Sound) (huser : st.uset.getUserByIp cur = some user)
    (hok : handleLeave st env cur name = .ok (st', sent)) :
    SameTimes (st.updateLastSeen env.now user) st' := by
  obtain ⟨st₁, hleave, hrest⟩ := bind_eq_ok.mp hok
  have htimes := cliLeave_times huser hleave
  have huser₁ : st₁.uset.getUserByIp cur = some user := by
    obtain ⟨st₀, hleave₀, -, -, huset, -⟩ := hs.cliLeave huser env.now name
    rw [hleave] at hleave₀
    cases hleave₀
    rw [huset, huser]
  simp only [cliGetChannels, huser₁] at hrest
  have hprune := channelPruningProcedure_times hrest
  refine ⟨hprune.lastSeen.trans ?_, hprune.nextUser.trans htimes.nextUser⟩
  change Function.update st₁.lastSeen user.ptr _ = _
  rw [htimes.lastSeen]
  exact Function.update_idem _ _ _

/-! ## Passes -/

/-- What a pass does to the users, to their times and to the number of the next user. -/
inductive State.Times (st : State) (now : ℕ) : Input → State → Prop where
  | login {cur : Addressable} {username : Uname} {st' : State} :
      st'.uset = st.uset.addUser ⟨st.nextUser, username, cur⟩ →
      st'.lastSeen = Function.update st.lastSeen st.nextUser (UInt32.ofNat now) →
      st'.nextUser = st.nextUser + 1 → Times st now (.recv cur (.client (.login username))) st'
  | logout {cur : Addressable} {st' : State} : st'.uset = st.uset.removeUserByIp cur →
      SameTimes st st' → Times st now (.recv cur (.client .logout)) st'
  | heard {cur : Addressable} {req : ClientRequest} {user : User} {st' : State} :
      st.uset.getUserByIp cur = some user → st'.uset = st.uset →
      SameTimes (st.updateLastSeen now user) st' → Times st now (.recv cur (.client req)) st'
  | stranger {cur : Addressable} {req : ClientRequest} {st' : State} :
      st.uset.getUserByIp cur = none → st'.uset = st.uset → SameTimes st st' →
      Times st now (.recv cur (.client req)) st'
  | other {input : Input} {st' : State} : (∀ cur req, input ≠ .recv cur (.client req)) →
      (∀ u ∈ st'.uset.userList, u ∈ st.uset.userList) → SameTimes st st' → Times st now input st'

theorem State.Inv.times (h : st.Inv adj) (hok : st.react env input = .ok (st', sent)) :
    st.Times env.now input st' := by
  cases h.effect hok with
  | login cur username => exact .login rfl rfl rfl
  | logout hs₁ hpruned hsset huset hchan =>
      exact .logout (hpruned.same.uset.trans huset) (handleLogout_times hok)
  | strangerJoin name hnone => exact .stranger hnone rfl (.refl st)
  | join huser hs' hsset huset hchan => exact .heard huser huset (handleJoin_times huser hok)
  | leave huser hs₁ hpruned hsset huset hchan =>
      exact .heard huser (hpruned.same.uset.trans huset) (h.sound.handleLeave_times huser hok)
  | say text huser hchan => exact .heard huser rfl (.refl _)
  | list names huser => exact .heard huser rfl (.refl _)
  | who name names huser => exact .heard huser rfl (.refl _)
  | strangerKeepAlive hnone => exact .stranger hnone rfl (.refl st)
  | keepAlive huser => exact .heard huser rfl (.refl _)
  | s2sJoin hadj hs' hsame hchan =>
      exact .other (by simp) (fun u hu => hsame.uset ▸ hu) hsame.times
  | s2sLeave hadj hs' hsame hchan =>
      exact .other (by simp) (fun u hu => hsame.uset ▸ hu) hsame.times
  | s2sSay hc hpruned =>
      exact .other (by simp) (fun u hu => hpruned.same.uset ▸ hu) hpruned.same.times
  | serverTimeout hs' hsame hchan =>
      exact .other (by simp) (fun u hu => hsame.uset ▸ hu) hsame.times
  | joinSend => exact .other (by simp) (fun _ hu => hu) (.refl st)
  | userTimeout hpass =>
      obtain ⟨st₁, hpass₁, hmem⟩ := h.userTimeoutPass_users env.now
      rw [hpass] at hpass₁
      cases hpass₁
      exact .other (by simp) (fun u hu => ((hmem u).mp hu).1) (removeIdleUsers_times hpass)

/-! ## Numbers -/

/-- The users have different numbers, all of which have been given out. -/
structure State.Numbered (st : State) : Prop where
  given : ∀ u ∈ st.uset.userList, u.ptr < st.nextUser
  eq_of_ptr : ∀ u ∈ st.uset.userList, ∀ v ∈ st.uset.userList, u.ptr = v.ptr → u = v

theorem State.numbered_initial (adj : List Server) : (State.initial adj).Numbered where
  given u hu := by cases hu
  eq_of_ptr u hu := by cases hu

theorem State.Numbered.mono (h : st.Numbered) (hnext : st'.nextUser = st.nextUser)
    (hsub : ∀ u ∈ st'.uset.userList, u ∈ st.uset.userList) : st'.Numbered where
  given u hu := hnext ▸ h.given u (hsub u hu)
  eq_of_ptr u hu v hv := h.eq_of_ptr u (hsub u hu) v (hsub v hv)

theorem State.Numbered.step (h : st.Numbered) (hinv : st.Inv adj)
    (htimes : st.Times now input st') : st'.Numbered := by
  cases htimes with
  | @login cur username _ huset hseen hnext =>
      obtain ⟨-, hmem⟩ := hinv.users.addUser ⟨st.nextUser, username, cur⟩
      have hcases : ∀ u ∈ st'.uset.userList, u ∈ st.uset.userList ∧ u.ptr < st.nextUser ∨
          u = ⟨st.nextUser, username, cur⟩ := fun u hu => by
        rw [huset, hmem] at hu
        rcases hu with ⟨hold, -⟩ | hnew
        · exact .inl ⟨hold, h.given u hold⟩
        · exact .inr hnew
      constructor
      · intro u hu
        rw [hnext]
        rcases hcases u hu with ⟨-, hlt⟩ | rfl
        · exact Nat.lt_succ_of_lt hlt
        · exact Nat.lt_succ_self _
      · intro u hu v hv hptr
        rcases hcases u hu with ⟨hold, hlt⟩ | rfl
        · rcases hcases v hv with ⟨hold', -⟩ | rfl
          · exact h.eq_of_ptr u hold v hold' hptr
          · exact absurd hptr hlt.ne
        · rcases hcases v hv with ⟨-, hlt⟩ | rfl
          · exact absurd hptr.symm hlt.ne
          · rfl
  | @logout cur _ huset hsame =>
      refine h.mono hsame.nextUser fun u hu => ?_
      rw [huset, (hinv.users.removeUserByIp cur).2] at hu
      exact hu.1
  | heard huser huset hsame => exact h.mono hsame.nextUser fun u hu => huset ▸ hu
  | stranger hnone huset hsame => exact h.mono hsame.nextUser fun u hu => huset ▸ hu
  | other hnot hsub hsame => exact h.mono hsame.nextUser hsub

/-! ## Requests -/

/-- When a client made the request of a pass. -/
def Reaction.requestTime (cur : Addressable) (r : Reaction) : Option ℕ :=
  match r.input with
  | .recv src (.client _) => if src = cur then some r.env.now else none
  | _ => none

/-- When a client made its last request. -/
def lastRequest (rs : List Reaction) (cur : Addressable) : Option ℕ :=
  lastStamp (Reaction.requestTime cur) rs

theorem Reaction.requestTime_eq_some {t : ℕ} : r.requestTime cur = some t ↔
    ∃ req, r.input = .recv cur (.client req) ∧ r.env.now = t := by
  unfold requestTime
  split
  · rename_i src req hinput
    by_cases hsrc : src = cur
    · simp [hsrc, hinput]
    · simp [hsrc, hinput]
  · rename_i hnot
    simp only [reduceCtorEq, false_iff, not_exists, not_and]
    exact fun req hinput => absurd hinput (hnot cur req)

/-- A user that is there after a request from its address has the time of the request. -/
theorem State.Inv.lastSeen_of_request (h : st.Inv adj) {req : ClientRequest}
    (htimes : st.Times now (.recv u.addr (.client req)) st') (hu : u ∈ st'.uset.userList) :
    st'.lastSeen u.ptr = UInt32.ofNat now := by
  cases htimes with
  | login huset hseen hnext =>
      rw [huset, (h.users.addUser _).2] at hu
      rcases hu with ⟨-, -, hne⟩ | hnew
      · exact absurd rfl hne
      · have hptr : u.ptr = st.nextUser := congrArg User.ptr hnew
        rw [hptr, hseen, Function.update_self]
  | logout huset hsame =>
      rw [huset, (h.users.removeUserByIp _).2] at hu
      exact absurd rfl hu.2
  | heard huser huset hsame =>
      rw [huset] at hu
      have hfound := h.users.getUserByIp_eq_some.mpr ⟨hu, rfl⟩
      rw [huser] at hfound
      cases hfound
      rw [hsame.lastSeen]
      exact Function.update_self ..
  | stranger hnone huset hsame =>
      rw [huset] at hu
      rw [h.users.getUserByIp_eq_some.mpr ⟨hu, rfl⟩] at hnone
      cases hnone
  | other hnot hsub hsame => exact absurd rfl (hnot _ _)

/-- All else leaves the user as it was, if it is there afterwards. -/
theorem State.Inv.lastSeen_of_other (h : st.Inv adj) (hnum : st.Numbered)
    (htimes : st.Times now input st') (hnot : ∀ req, input ≠ .recv u.addr (.client req))
    (hu : u ∈ st'.uset.userList) :
    u ∈ st.uset.userList ∧ st'.lastSeen u.ptr = st.lastSeen u.ptr := by
  cases htimes with
  | login huset hseen hnext =>
      rw [huset, (h.users.addUser _).2] at hu
      rcases hu with ⟨hold, -⟩ | rfl
      · rw [hseen, Function.update_of_ne (hnum.given u hold).ne]
        exact ⟨hold, rfl⟩
      · exact absurd rfl (hnot _)
  | logout huset hsame =>
      rw [huset, (h.users.removeUserByIp _).2] at hu
      exact ⟨hu.1, congrFun hsame.lastSeen _⟩
  | @heard cur req user _ huser huset hsame =>
      rw [huset] at hu
      obtain ⟨huser', rfl⟩ := h.users.getUserByIp_eq_some.mp huser
      have hne : u.ptr ≠ user.ptr := by
        intro hptr
        obtain rfl := hnum.eq_of_ptr u hu user huser' hptr
        exact hnot req rfl
      rw [hsame.lastSeen]
      exact ⟨hu, Function.update_of_ne hne _ _⟩
  | stranger hnone huset hsame =>
      rw [huset] at hu
      exact ⟨hu, congrFun hsame.lastSeen _⟩
  | other hnot hsub hsame => exact ⟨hsub u hu, congrFun hsame.lastSeen _⟩

/-- The time of a user is that of the last request from its address. -/
theorem State.lastSeen_of_run {rs : List Reaction} (hrun : Run State.Step (State.initial adj) rs st)
    (hu : u ∈ st.uset.userList) :
    ∃ t, lastRequest rs u.addr = some t ∧ st.lastSeen u.ptr = UInt32.ofNat t := by
  have hresult : ∀ {s r s'}, State.Step s r s' → s.react r.env r.input = .ok (s', r.sent) :=
    fun hstep => Reacts.result_of_after hstep.1 hstep.2
  apply hrun.lastStamp (Reaction.requestTime u.addr)
    (fun s t => s.lastSeen u.ptr = UInt32.ofNat t)
    (I := fun s => s.Inv (State.initial adj).sset.serverList ∧ s.Numbered)
    (P := fun s => u ∈ s.uset.userList) _ _ _ ⟨inv_initial adj, numbered_initial adj⟩ _ hu
  · exact fun s r s' h hstep => ⟨h.1.step hstep, h.2.step h.1 (h.1.times (hresult hstep))⟩
  · intro s r s' t h hstep hrequest hu'
    obtain ⟨req, hinput, rfl⟩ := Reaction.requestTime_eq_some.mp hrequest
    have htimes := h.1.times (hresult hstep)
    rw [hinput] at htimes
    exact h.1.lastSeen_of_request htimes hu'
  · intro s r s' h hstep hrequest hu'
    have hnot : ∀ req, r.input ≠ .recv u.addr (.client req) := fun req hinput => by
      rw [Reaction.requestTime_eq_some.mpr ⟨req, hinput, rfl⟩] at hrequest
      cases hrequest
    obtain ⟨hold, hsame⟩ :=
      h.1.lastSeen_of_other h.2 (h.1.times (hresult hstep)) hnot hu'
    exact ⟨hold, fun t ht => hsame.trans ht⟩
  · exact List.not_mem_nil

/-- After any run of a server among others, the time of a user is that of the last request from
its address, of whichever kind, and a pass of the time-out loop logs the user out exactly if
that is more than 120 seconds ago. What other servers send does not count. -/
theorem users_expire_exactly {rs : List Reaction}
    (hrun : Run State.Step (State.initial adj) rs st) (hu : u ∈ st.uset.userList) :
    ∃ t, lastRequest rs u.addr = some t ∧ st.lastSeen u.ptr = UInt32.ofNat t ∧ ∀ now : ℕ,
      ∃ st', userTimeoutPass st now = .ok st' ∧
        (u ∈ st'.uset.userList ↔ now ≤ t % 2 ^ 32 + 120) := by
  have hst : State.Reachable adj st := ⟨rs, hrun, fun _ _ => trivial⟩
  obtain ⟨t, hlast, hseen⟩ := State.lastSeen_of_run hrun hu
  refine ⟨t, hlast, hseen, fun now => ?_⟩
  obtain ⟨st', hok, hmem⟩ := hst.inv.userTimeoutPass_users now
  refine ⟨st', hok, ?_⟩
  rw [hmem, and_iff_right hu, hseen, UInt32.toNat_ofNat']
  omega

/-- Alice logs in and stays. -/
def vigil : List (Env × Input) :=
  [(⟨0, 0⟩, .recv (desk 1) (.client (.login alice))),
    (⟨100, 0⟩, .recv (desk 1) (.client .keepAlive))]

/-- A pass at time 200 spares her, and one at time 221 does not. -/
theorem users_expire_exactly_vigil : ∃ rs st st' st'',
    (State.initial []).replay vigil = some (rs, st) ∧
    userTimeoutPass st 200 = .ok st' ∧ ⟨0, alice, desk 1⟩ ∈ st'.uset.userList ∧
    userTimeoutPass st 221 = .ok st'' ∧ ⟨0, alice, desk 1⟩ ∉ st''.uset.userList := by
  have hfacts : ((State.initial []).replay vigil).map
      (fun p => (lastRequest p.1 (desk 1), p.2.uset.userList)) =
        some (some 100, [⟨0, alice, desk 1⟩]) := by decide
  obtain ⟨⟨rs, st⟩, hreplay, hfound⟩ := Option.map_eq_some_iff.mp hfacts
  obtain ⟨htime, husers⟩ := Prod.mk.inj hfound
  have hu : ⟨0, alice, desk 1⟩ ∈ st.uset.userList := by
    rw [show st.uset.userList = _ from husers]
    exact List.mem_singleton.mpr rfl
  obtain ⟨t, hlast, -, hpass⟩ := users_expire_exactly (State.run_of_replay hreplay) hu
  obtain rfl : t = 100 := Option.some.inj (hlast.symm.trans htime)
  obtain ⟨st', hok, hiff⟩ := hpass 200
  obtain ⟨st'', hok', hiff'⟩ := hpass 221
  exact ⟨rs, st, st', st'', hreplay, hok, hiff.mpr (by decide), hok', mt hiff'.mp (by decide)⟩

end CliMessaging.Distributed
