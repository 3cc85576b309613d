import CliMessaging.Model.Distributed.Server
import CliMessaging.Verification.Distributed.ChannelTable
import CliMessaging.Verification.Distributed.ServerSet
import CliMessaging.Verification.Distributed.UserSet

/-! # The operations of `State` on the channel table

One specification for each operation: it succeeds on a sound state, and the table
afterwards is given as a function of the table before. -/

namespace CliMessaging.Distributed

open State

variable {st : State} {now : ℕ} {cur : Addressable} {name : Cname} {user : User}

@[simp] theorem Channel.addUser_name (c : Channel) (user : User) :
    (c.addUser user).name = c.name := rfl

@[simp] theorem Channel.addServer_name (c : Channel) (now : ℕ) (server : Server) :
    (c.addServer now server).name = c.name := rfl

@[simp] theorem Channel.removeServer_name (c : Channel) (server : Server) :
    (c.removeServer server).name = c.name := rfl

@[simp] theorem Channel.new_name (name : Cname) : (Channel.new name).name = name := rfl

theorem State.Sound.updateLastSeen (hs : st.Sound) (now : ℕ) (user : User) :
    (st.updateLastSeen now user).Sound :=
  ⟨hs.nodup, hs.live, hs.index⟩

@[simp] theorem chan_updateLastSeen (st : State) (now : ℕ) (user : User) :
    (st.updateLastSeen now user).chan = st.chan := rfl

theorem State.Sound.cliLogin (hs : st.Sound) (now : ℕ) (uname : Uname) (cur : Addressable) :
    (st.cliLogin now uname cur).Sound :=
  ⟨hs.nodup, hs.live, hs.index⟩

/-- The users of a channel after its user set has been changed by `removeUser`. -/
theorem State.Sound.removeUser (hs : st.Sound) (user : User) :
    ∃ st', st.removeUser user = .ok st' ∧ st'.Sound ∧ st'.sset = st.sset ∧
      st'.uset = st.uset.removeUser user ∧ st'.lastSeen = st.lastSeen ∧
      ∀ name, st'.chan name = (st.chan name).map (·.removeUser user) := by
  obtain ⟨h', hmod, hs', hchan⟩ := hs.modifyAll (f := (·.removeUser user)) fun _ => rfl
  refine ⟨{ st with chans := h', uset := st.uset.removeUser user }, ?_,
    ⟨hs'.nodup, hs'.live, hs'.index⟩, rfl, rfl, rfl, hchan⟩
  simp [State.removeUser, hmod]

theorem State.Sound.cliJoin (hs : st.Sound) (huser : st.uset.getUserByIp cur = some user)
    (now : ℕ) (name : Cname) :
    ∃ st', st.cliJoin now cur name = .ok st' ∧ st'.Sound ∧ st'.sset = st.sset ∧
      st'.uset = st.uset ∧
      st'.chan = Function.update st.chan name
        (some (((st.chan name).getD (Channel.new name)).addUser user)) := by
  have hs₁ := hs.updateLastSeen now user
  simp only [State.cliJoin, huser]
  cases hp : st.cset.getChannel name with
  | none =>
      have hnone := hs.getChannel_eq_none.mp hp
      obtain ⟨hs', hsame, hchan⟩ := hs₁.addChannel
        (c := (Channel.new name).addUser user) (by simpa using hnone)
      exact ⟨_, by simp [show (st.updateLastSeen now user).cset.getChannel name = none from hp],
        hs', hsame.sset, hsame.uset, by simpa [hnone] using hchan⟩
  | some p =>
      obtain ⟨st', hmod, hs', hsame, hchan⟩ := hs₁.modifyChannel (p := p) hp
        (f := (·.addUser user)) fun _ => rfl
      obtain ⟨c, -, -, hc⟩ := hs.cells_of_getChannel hp
      refine ⟨st', ?_, hs', hsame.sset, hsame.uset, by simpa [hc] using hchan⟩
      simp [show (st.updateLastSeen now user).cset.getChannel name = some p from hp, hmod]

theorem State.Sound.cliLeave (hs : st.Sound) (huser : st.uset.getUserByIp cur = some user)
    (now : ℕ) (name : Cname) :
    ∃ st', st.cliLeave now cur name = .ok st' ∧ st'.Sound ∧ st'.sset = st.sset ∧
      st'.uset = st.uset ∧ (∀ p ≠ user.ptr, st'.lastSeen p = st.lastSeen p) ∧
      st'.chan = Function.update st.chan name ((st.chan name).map (·.removeUser user)) := by
  have hs₁ := hs.updateLastSeen now user
  have hseen : ∀ p ≠ user.ptr, (st.updateLastSeen now user).lastSeen p = st.lastSeen p :=
    fun p hp => Function.update_of_ne hp _ _
  simp only [State.cliLeave, huser]
  cases hp : st.cset.getChannel name with
  | none =>
      have hnone := hs.getChannel_eq_none.mp hp
      refine ⟨_, by simp [show (st.updateLastSeen now user).cset.getChannel name = none from hp],
        hs₁, rfl, rfl, hseen, ?_⟩
      rw [hnone, Option.map_none, ← hnone, Function.update_eq_self]
      rfl
  | some p =>
      obtain ⟨st', hmod, hs', hsame, hchan⟩ := hs₁.modifyChannel (p := p) hp
        (f := (·.removeUser user)) fun _ => rfl
      refine ⟨st', ?_, hs', hsame.sset, hsame.uset, hsame.lastSeen ▸ hseen, hchan⟩
      simp [show (st.updateLastSeen now user).cset.getChannel name = some p from hp, hmod]

theorem State.Sound.cliLogout (hs : st.Sound) (cur : Addressable) :
    ∃ st', st.cliLogout cur = .ok st' ∧ st'.Sound ∧ st'.sset = st.sset ∧
      st'.lastSeen = st.lastSeen ∧
      st'.uset = st.uset.removeUserByIp cur ∧
      ∀ name, st'.chan name = (st.chan name).map fun c =>
        (st.uset.getUserByIp cur).elim c c.removeUser := by
  simp only [State.cliLogout, UserSet.removeUserByIp]
  cases st.uset.getUserByIp cur with
  | none => exact ⟨st, rfl, hs, rfl, rfl, rfl, fun name => by simp⟩
  | some user =>
      obtain ⟨st', hrm, hs', hsset, huset, hseen, hchan⟩ := hs.removeUser user
      exact ⟨st', hrm, hs', hsset, hseen, huset, hchan⟩

/-- The result says whether the channel existed. -/
theorem State.Sound.s2sJoin (hs : st.Sound) (hadj : cur ∈ st.sset.serverList) (now : ℕ)
    (name : Cname) :
    ∃ st', st.s2sJoin now cur name = .ok (st', (st.chan name).isSome) ∧ st'.Sound ∧
      SameUsers st st' ∧
      st'.chan = Function.update st.chan name
        (some ((st.chan name).elim ((Channel.new name).addServer now cur)
          fun c => c.heardFrom now cur)) := by
  simp only [State.s2sJoin, st.sset.getServerByAddr_of_mem hadj, deref_some, bind_ok]
  cases hp : st.cset.getChannel name with
  | none =>
      have hnone := hs.getChannel_eq_none.mp hp
      obtain ⟨hs', hsame, hchan⟩ := hs.addChannel
        (c := (Channel.new name).addServer now cur) hnone
      exact ⟨_, by simp [hnone], hs', hsame, by simpa [hnone] using hchan⟩
  | some p =>
      obtain ⟨c, -, -, hc⟩ := hs.cells_of_getChannel hp
      obtain ⟨st', hmod, hs', hsame, hchan⟩ := hs.modifyChannel hp
        (f := (·.heardFrom now cur)) fun c => c.heardFrom_name now cur
      refine ⟨st', ?_, hs', hsame, by simpa [hc] using hchan⟩
      simp only [Channel.heardFrom] at hmod
      simp [hc, hmod]

theorem State.Sound.s2sLeave (hs : st.Sound) (hadj : cur ∈ st.sset.serverList)
    (name : Cname) :
    ∃ st', st.s2sLeave cur name = .ok st' ∧ st'.Sound ∧ SameUsers st st' ∧
      st'.chan = Function.update st.chan name ((st.chan name).map (·.removeServer cur)) := by
  simp only [State.s2sLeave, st.sset.getServerByAddr_of_mem hadj, deref_some, bind_ok]
  cases hp : st.cset.getChannel name with
  | none =>
      have hnone := hs.getChannel_eq_none.mp hp
      refine ⟨st, rfl, hs, .refl st, ?_⟩
      rw [hnone, Option.map_none, ← hnone, Function.update_eq_self]
  | some p => exact hs.modifyChannel hp fun c => c.removeServer_name cur

/-! ## Timer passes -/

theorem foldl_removeServer_name (servers : List Server) (c : Channel) :
    (servers.foldl Channel.removeServer c).name = c.name := by
  induction servers generalizing c with
  | nil => rfl
  | cons t servers ih => rw [List.foldl_cons, ih, Channel.removeServer_name]

/-- A pass that completes has only removed servers from channels. -/
theorem State.Sound.removeDeadServers {ps : List ℕ} {st' : State} (hs : st.Sound)
    (hps : ∀ p ∈ ps, p ∈ st.cset.channelList)
    (hok : removeDeadServers now ps st = .ok st') :
    st'.Sound ∧ SameUsers st st' ∧ ∀ name, ∃ dead : List Server,
      st'.chan name = (st.chan name).map fun c => dead.foldl Channel.removeServer c := by
  induction ps generalizing st with
  | nil =>
      cases hok
      exact ⟨hs, .refl _, fun name => ⟨[], by simp⟩⟩
  | cons p ps ih =>
      have hp := hps p (by simp)
      obtain ⟨c, hc⟩ := hs.live p hp
      have hget : st.cset.getChannel c.name = some p :=
        hs.index.lookup_of_mem hp (nameOf_of_cells hc)
      simp only [Distributed.removeDeadServers, Heap.read_eq_ok.mpr hc, bind_ok] at hok
      obtain ⟨dead, -, hok⟩ := bind_eq_ok.mp hok
      obtain ⟨st₁, hmod, hs₁, hsame₁, hchan₁⟩ := hs.modifyChannel hget
        (f := fun c => dead.foldl Channel.removeServer c) (foldl_removeServer_name dead)
      rw [hmod, bind_ok] at hok
      have hlist : st₁.cset = st.cset := by
        obtain ⟨h', -, heq⟩ := bind_eq_ok.mp hmod
        cases heq
        rfl
      obtain ⟨hs', hsame, hchan⟩ := ih hs₁ (fun q hq => hlist ▸ hps q (by simp [hq])) hok
      refine ⟨hs', hsame₁.trans hsame, fun name => ?_⟩
      obtain ⟨dead', hdead'⟩ := hchan name
      by_cases hname : name = c.name
      · subst hname
        refine ⟨dead ++ dead', ?_⟩
        rw [hdead', hchan₁, Function.update_self, Option.map_map]
        congr 1
        funext d
        simp
      · refine ⟨dead', ?_⟩
        rw [hdead', hchan₁, Function.update_of_ne hname]

/-- What holds before the loop of `user_timeout_loop` and is kept by each removal of a
logged-in user holds after it. The users still to come stay logged in. -/
theorem State.removeIdleUsers_induction {I : State → Prop} {users : List User} {st' : State}
    (hstep : ∀ st u st', I st → u ∈ st.uset.userList → st.removeUser u = .ok st' → I st' ∧
      ∀ v, v ∈ st.uset.userList → v ≠ u → v ∈ st'.uset.userList)
    (hnd : users.Nodup) (husers : ∀ u ∈ users, u ∈ st.uset.userList) (hst : I st)
    (hok : removeIdleUsers now users st = .ok st') : I st' := by
  induction users generalizing st with
  | nil =>
      cases hok
      exact hst
  | cons u users ih =>
      obtain ⟨hu, hnd⟩ := List.nodup_cons.mp hnd
      simp only [Distributed.removeIdleUsers] at hok
      split at hok
      · obtain ⟨st₁, hone, hok⟩ := bind_eq_ok.mp hok
        obtain ⟨hst₁, hkeep⟩ := hstep st u st₁ hst (husers u (by simp)) hone
        refine ih hnd (fun v hv => ?_) hst₁ hok
        exact hkeep v (husers v (by simp [hv])) (by rintro rfl; exact hu hv)
      · exact ih hnd (fun v hv => husers v (by simp [hv])) hst hok

end CliMessaging.Distributed
