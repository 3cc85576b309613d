import CliMessaging.Verification.Standalone.Requests

/-! # The inactivity scan

At one reading of the clock, the scan removes exactly the users that have not been seen for
more than 120 seconds, and every entry of its snapshot still leads to its record when the
loop comes to it. -/

namespace CliMessaging.Standalone

open State

variable {st st' : State} {t p : ℕ} {name : Uname}

/-- The user has been seen within the last 120 seconds. -/
def State.Recent (st : State) (t p : ℕ) : Prop :=
  ∀ u, st.users.cells p = some u → (t : ℤ) - u.lastSeen.toNat ≤ 120

theorem recent_iff : st.Recent t p ↔
    ∀ u, st.users.cells p = some u → isInactive t u = false := by
  simp only [Recent, isInactive, decide_eq_false_iff_not, Int.not_lt]

theorem spared_iff_recent (hp : p ∈ st.userList) :
    Spared st (fun _ => t) 0 st.userList p ↔ st.Recent t p := by
  rw [recent_iff]
  constructor
  · intro hspared
    obtain ⟨j, hj⟩ := List.mem_iff_getElem?.mp hp
    exact hspared j hj
  · exact fun hrecent j _ => hrecent

/-- The loop over a list of entries is the loop over its first part, then over the rest. -/
theorem removeInactive_append (clock : ℕ → ℕ) (i : ℕ) (done entries : List ℕ) (st : State) :
    removeInactive clock i (done ++ entries) st = (do
      let st₁ ← removeInactive clock i done st
      removeInactive clock (i + done.length) entries st₁) := by
  induction done generalizing i st with
  | nil => rfl
  | cons p done ih =>
      have hlen : i + (p :: done).length = i + 1 + done.length := by
        rw [List.length_cons]
        omega
      rw [List.cons_append, removeInactive, removeInactive, hlen]
      cases st.users.read p with
      | error e => rfl
      | ok u =>
          simp only [bind_ok]
          split
          · cases st.idempotentRemoveUser (some u.username) none with
            | error e => rfl
            | ok st₁ => exact ih (i + 1) st₁
          · exact ih (i + 1) st

/-- What the scan leaves: the recent users in the list and in both indexes, with their
records, and the channels as they were. -/
structure State.KeepsRecent (st : State) (t : ℕ) (st' : State) : Prop where
  nodup : st'.userList.Nodup
  list : ∀ p, p ∈ st'.userList ↔ p ∈ st.userList ∧ st.Recent t p
  byName : ∀ name p, st'.userByUsername.lookup name = some p ↔
    st.userByUsername.lookup name = some p ∧ st.Recent t p
  byIp : ∀ key p, st'.userByIp.lookup key = some p ↔
    st.userByIp.lookup key = some p ∧ st.Recent t p
  records : ∀ p ∈ st'.userList, st'.users.cells p = st.users.cells p
  channels : st'.channelUserLists = st.channelUserLists

/-- When the loop over the snapshot comes to an entry, it finds the record that was there
when the snapshot was taken. -/
def State.ReadsAll (st : State) (t : ℕ) : Prop :=
  ∀ done p entries, st.userList = done ++ p :: entries → ∃ st₁ u,
    removeInactive (fun _ => t) 0 done st = .ok st₁ ∧
    removeInactive (fun _ => t) 0 st.userList st =
      removeInactive (fun _ => t) done.length (p :: entries) st₁ ∧
    st.users.cells p = some u ∧ st₁.users.read p = .ok u

theorem State.Directory.readsAll (h : st.Directory) (t : ℕ) : st.ReadsAll t := by
  intro done p entries hlist
  have hnd : done.Nodup ∧ p ∉ done := by
    have hnodup := h.nodup
    rw [hlist, List.nodup_append] at hnodup
    exact ⟨hnodup.1, fun hp => hnodup.2.2 p hp p List.mem_cons_self rfl⟩
  have hsub : ∀ q ∈ done, q ∈ st.userList := fun q hq => by
    rw [hlist]
    exact List.mem_append_left _ hq
  have hp : p ∈ st.userList := by simp [hlist]
  obtain ⟨st₁, hok, -, -, hcells, hmem⟩ := removeInactive_spec (fun _ => t) h hnd.1 hsub 0
  have hspared : Spared st (fun _ => t) 0 done p := fun j hj =>
    absurd (List.mem_of_getElem? hj) hnd.2
  obtain ⟨u, hu⟩ := h.live p hp
  refine ⟨st₁, u, hok, ?_, hu, ?_⟩
  · rw [hlist, removeInactive_append, hok, bind_ok, Nat.zero_add]
  · rw [Heap.read_eq_ok, hcells p ((hmem p).mpr ⟨hp, hspared⟩), hu]

theorem State.Directory.keepsRecent (h : st.Directory) (t : ℕ) :
    ∃ st', removeInactive (fun _ => t) 0 st.userList st = .ok st' ∧ st.KeepsRecent t st' := by
  obtain ⟨st', hok, hdir, hch, hcells, hmem⟩ :=
    removeInactive_spec (fun _ => t) h h.nodup (fun _ hq => hq) 0
  have hlist : ∀ p, p ∈ st'.userList ↔ p ∈ st.userList ∧ st.Recent t p := fun p => by
    rw [hmem]
    exact and_congr_right spared_iff_recent
  have hkeys : ∀ {κ : Type} (field : User → κ) (k : κ) p,
      (p ∈ st'.userList ∧ (st'.users.cells p).map field = some k) ↔
        (p ∈ st.userList ∧ (st.users.cells p).map field = some k) ∧ st.Recent t p := by
    intro κ field k p
    rw [and_right_comm, ← hlist]
    exact and_congr_right fun hp => by rw [hcells p hp]
  refine ⟨st', hok, hdir.nodup, hlist, fun name p => ?_, fun key p => ?_, hcells, hch⟩
  · rw [hdir.byName, h.byName]
    exact hkeys User.username name p
  · rw [hdir.byIp, h.byIp]
    exact hkeys User.ipPort key p

/-- In every reachable state with a user, a scan at one reading `t` of the clock removes from
the list and from both indexes exactly the users with `t - last_seen > 120`, changes nothing
else, and reads no record that it has freed. -/
theorem inactivityScan_exact (hst : st.Reachable) (hne : st.userList ≠ []) (t : ℕ) (count : ℤ) :
    (∃ st', scanAndRemoveInactiveUsers st ⟨fun _ => t, count⟩ = .ok st' ∧ st.KeepsRecent t st') ∧
      st.ReadsAll t := by
  have h := hst.inv.directory
  obtain ⟨st', hok, hkeeps⟩ := h.keepsRecent t
  have hentries : arrayEntries (st.listUsers count).1 (st.listUsers count).2 =
      .ok st.userList := by
    rw [listUsers, arrayEntries_toArray, if_neg fun hempty => hne hempty.1]
  refine ⟨⟨st', ?_, hkeeps⟩, h.readsAll t⟩
  simp only [scanAndRemoveInactiveUsers, hentries, bind_ok, hok]

/-- At time 130, alice has been silent since time 0 and bob since time 100. -/
theorem inactivityScan_exact_late :
    ∃ st st', State.initial.replay [(.at 0, .recv (desk 1) (.login alice)),
        (.at 100, .recv (desk 2) (.login bob))] = some st ∧
      scanAndRemoveInactiveUsers st (.at 130) = .ok st' ∧ 0 ∉ st'.userList ∧ 1 ∈ st'.userList := by
  have hfacts : (State.initial.replay [(.at 0, .recv (desk 1) (.login alice)),
      (.at 100, .recv (desk 2) (.login bob))]).map (fun st => (st.userList,
        (st.users.cells 0).map User.lastSeen, (st.users.cells 1).map User.lastSeen)) =
      some ([0, 1], some 0, some 100) := by decide
  obtain ⟨st, hreplay, hfound⟩ := Option.map_eq_some_iff.mp hfacts
  simp only [Prod.mk.injEq, Option.map_eq_some_iff] at hfound
  obtain ⟨hlist, ⟨u, hu, huseen⟩, v, hv, hvseen⟩ := hfound
  have hst : st.Reachable := State.run_of_replay hreplay
  obtain ⟨⟨st', hok, hkeeps⟩, -⟩ := inactivityScan_exact hst (by simp [hlist]) 130 0
  refine ⟨st, st', hreplay, hok, ?_, ?_⟩
  · intro hmem
    have hrecent := ((hkeeps.list 0).mp hmem).2 u hu
    rw [huseen] at hrecent
    exact absurd hrecent (by decide)
  · refine (hkeeps.list 1).mpr ⟨by simp [hlist], fun w hw => ?_⟩
    rw [hv] at hw
    cases hw
    rw [hvseen]
    decide

end CliMessaging.Standalone
