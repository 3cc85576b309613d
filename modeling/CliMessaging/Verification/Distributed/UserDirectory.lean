import CliMessaging.Verification.Distributed.Members

/-! # The users that are logged in

The global user set is a partial bijection between names and addresses, and each operation
that changes it removes exactly the users it is meant to remove. -/

namespace CliMessaging.Distributed

open State

variable {adj : List Server} {st : State} {now : ℕ} {u v : User}

/-! ## Time-outs -/

/-- The users of a list whose last request is too old. -/
def State.idleUsers (st : State) (now : ℕ) (users : List User) : List User :=
  users.filter (isIdle st now)

/-- The loop removes the idle users of its list one by one, from everywhere. -/
theorem State.Sound.removeIdleUsers (hs : st.Sound) (now : ℕ) (users : List User) :
    ∃ st', removeIdleUsers now users st = .ok st' ∧ st'.Sound ∧ st'.sset = st.sset ∧
      st'.lastSeen = st.lastSeen ∧
      st'.uset = (st.idleUsers now users).foldl UserSet.removeUser st.uset ∧
      ∀ name, st'.chan name = (st.chan name).map fun c =>
        (st.idleUsers now users).foldl Channel.removeUser c := by
  induction users generalizing st with
  | nil => exact ⟨st, rfl, hs, rfl, rfl, rfl, fun name => by simp [idleUsers]⟩
  | cons u users ih =>
      cases hidle : isIdle st now u with
      | false =>
          obtain ⟨st', hok, hrest⟩ := ih hs
          have hlist : st.idleUsers now (u :: users) = st.idleUsers now users := by
            simp [idleUsers, hidle]
          rw [hlist]
          exact ⟨st', by simp [Distributed.removeIdleUsers, hidle, hok], hrest⟩
      | true =>
          obtain ⟨st₁, hrm, hs₁, hsset₁, huset₁, hseen₁, hchan₁⟩ := hs.removeUser u
          obtain ⟨st', hok, hs', hsset, hseen, huset, hchan⟩ := ih hs₁
          have hsame : isIdle st₁ now = isIdle st now := by
            funext v
            rw [isIdle, hseen₁, isIdle]
          have hlist : st.idleUsers now (u :: users) = u :: st₁.idleUsers now users := by
            simp [idleUsers, hidle, hsame]
          rw [hlist]
          refine ⟨st', by simp [Distributed.removeIdleUsers, hidle, hrm, hok], hs',
            hsset.trans hsset₁, hseen.trans hseen₁, ?_, fun name => ?_⟩
          · rw [huset, huset₁, List.foldl_cons]
          · rw [hchan, hchan₁, Option.map_map]
            rfl

/-- A pass of `user_timeout_loop` takes the idle users off every channel. -/
theorem State.Sound.userTimeoutPass_chan {st' : State} (hs : st.Sound)
    (hpass : Distributed.userTimeoutPass st now = .ok st') (name : Cname) :
    st'.chan name = (st.chan name).map fun c =>
      (st.idleUsers now st.uset.userList).foldl Channel.removeUser c := by
  obtain ⟨st₁, hok, -, -, -, -, hchan⟩ := hs.removeIdleUsers now st.uset.userList
  rw [Distributed.userTimeoutPass, hok] at hpass
  cases hpass
  exact hchan name

theorem State.Inv.idleUsers_fit (h : st.Inv adj) (now : ℕ) :
    ∀ u ∈ st.idleUsers now st.uset.userList, st.uset.Fits u :=
  fun _ hu => h.users.fits_of_mem (List.mem_of_mem_filter hu)

/-- A pass of `user_timeout_loop` completes and keeps exactly the users seen in time. -/
theorem State.Inv.userTimeoutPass_users (h : st.Inv adj) (now : ℕ) :
    ∃ st', Distributed.userTimeoutPass st now = .ok st' ∧
      ∀ v, v ∈ st'.uset.userList ↔
        v ∈ st.uset.userList ∧ (now : ℤ) - (st.lastSeen v.ptr).toNat ≤ 120 := by
  obtain ⟨st', hok, -, -, -, huset, -⟩ := h.sound.removeIdleUsers now st.uset.userList
  refine ⟨st', hok, fun v => ?_⟩
  obtain ⟨-, hmem⟩ := h.users.foldl_removeUser (h.idleUsers_fit now)
  rw [huset, hmem]
  apply and_congr_right
  intro hv
  constructor
  · intro hkept
    by_contra hlate
    have hidle : isIdle st now v = true := decide_eq_true (by simp only [userTimeoutLimit]; omega)
    exact hkept v (List.mem_filter.mpr ⟨hv, hidle⟩) ⟨rfl, rfl⟩
  · rintro hseen w hw ⟨hname, -⟩
    obtain ⟨hw, hidle⟩ := List.mem_filter.mp hw
    rw [← h.users.eq_of_name hv hw hname] at hidle
    have hlate := of_decide_eq_true hidle
    simp only [userTimeoutLimit] at hlate
    omega

/-! ## Logins and logouts -/

theorem State.Inv.cliLogin_users (h : st.Inv adj) (now : ℕ) (uname : Uname)
    (cur : Addressable) (v : User) :
    v ∈ (st.cliLogin now uname cur).uset.userList ↔
      v ∈ st.uset.userList ∧ v.name ≠ uname ∧ v.addr ≠ cur ∨ v = ⟨st.nextUser, uname, cur⟩ :=
  (h.users.addUser ⟨st.nextUser, uname, cur⟩).2 v

theorem State.Inv.cliLogout_users (h : st.Inv adj) (cur : Addressable) :
    ∃ st', st.cliLogout cur = .ok st' ∧
      ∀ v, v ∈ st'.uset.userList ↔ v ∈ st.uset.userList ∧ v.addr ≠ cur := by
  obtain ⟨st', hok, -, -, -, huset, -⟩ := h.sound.cliLogout cur
  refine ⟨st', hok, fun v => ?_⟩
  rw [huset]
  exact (h.users.removeUserByIp cur).2 v

theorem State.Inv.user_eq (h : st.Inv adj) (hu : u ∈ st.uset.userList)
    (hv : v ∈ st.uset.userList) (hshared : u.name = v.name ∨ u.addr = v.addr) : u = v := by
  rcases hshared with hname | haddr
  · exact h.users.eq_of_name hu hv hname
  · exact h.users.eq_of_addr hu hv haddr

/-- In every reachable state the list and the two maps of the global user set hold the same
users, each under its own name and its own address, and no two share either. A login
removes exactly the users with its name or its address and adds one, a logout removes
exactly the user at its address, and a pass of the time-out loop removes exactly the users
not seen for more than 120 seconds. -/
theorem users_partialBijection (hst : State.Reachable adj st) :
    st.uset.Coherent ∧
      (∀ u ∈ st.uset.userList, ∀ v ∈ st.uset.userList, u.name = v.name ∨ u.addr = v.addr → u = v) ∧
      (∀ now uname cur v, v ∈ (st.cliLogin now uname cur).uset.userList ↔
        v ∈ st.uset.userList ∧ v.name ≠ uname ∧ v.addr ≠ cur ∨ v = ⟨st.nextUser, uname, cur⟩) ∧
      (∀ cur, ∃ st', st.cliLogout cur = .ok st' ∧
        ∀ v, v ∈ st'.uset.userList ↔ v ∈ st.uset.userList ∧ v.addr ≠ cur) ∧
      ∀ now, ∃ st', userTimeoutPass st now = .ok st' ∧
        ∀ v, v ∈ st'.uset.userList ↔
          v ∈ st.uset.userList ∧ (now : ℤ) - (st.lastSeen v.ptr).toNat ≤ 120 := by
  have h := hst.inv
  exact ⟨h.users, fun _ hu _ hv => h.user_eq hu hv, h.cliLogin_users, h.cliLogout_users,
    h.userTimeoutPass_users⟩

/-- Two clients log in, 100 seconds apart. -/
def arrivals : List (Env × Input) :=
  [(⟨0, 0⟩, .recv (desk 1) (.client (.login alice))),
    (⟨100, 0⟩, .recv (desk 2) (.client (.login bob)))]

/-- At time 121 Alice is removed and Bob stays. -/
theorem users_partialBijection_late :
    ∃ rs st st', (State.initial []).replay arrivals = some (rs, st) ∧
      st.uset.userList = [⟨0, alice, desk 1⟩, ⟨1, bob, desk 2⟩] ∧
      userTimeoutPass st 121 = .ok st' ∧ ∀ v, v ∈ st'.uset.userList ↔ v = ⟨1, bob, desk 2⟩ := by
  have hfacts : ((State.initial []).replay arrivals).map
      (fun p => (p.2.uset.userList, p.2.lastSeen 0, p.2.lastSeen 1)) =
        some ([⟨0, alice, desk 1⟩, ⟨1, bob, desk 2⟩], 0, 100) := by decide
  obtain ⟨⟨rs, st⟩, hreplay, hfound⟩ := Option.map_eq_some_iff.mp hfacts
  simp only [Prod.mk.injEq] at hfound
  obtain ⟨husers, halice, hbob⟩ := hfound
  have hst : State.Reachable [] st := State.reachable_of_replay hreplay
  obtain ⟨-, -, -, -, hpass⟩ := users_partialBijection hst
  obtain ⟨st', hok, hmem⟩ := hpass 121
  refine ⟨rs, st, st', hreplay, husers, hok, fun v => ?_⟩
  rw [hmem, husers, List.mem_pair]
  constructor
  · rintro ⟨rfl | rfl, htime⟩
    · rw [halice] at htime
      exact absurd htime (by decide)
    · rfl
  · rintro rfl
    refine ⟨Or.inr rfl, ?_⟩
    rw [hbob]
    decide

end CliMessaging.Distributed
