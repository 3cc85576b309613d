import CliMessaging.Verification.Standalone.MemoryRuns
import CliMessaging.Verification.Standalone.SayFanOut

/-! # Says in memory

A say of a client that is logged in reads the bucket of its channel, wherever the index of
the channel lies. It fans out when the index is that of a bucket. -/

namespace CliMessaging.Standalone.Memory

open Heap LinkedList HashMap Transition State

variable {m m' : Memory} {st : State} {channels : Channels} {leaked : List (ℕ × Uname)}
  {mem : Malloc} {env : Env} {a : SockAddr} {ch : Cname} {name : Uname} {text : SayText}
  {nodes : Heap (LLNode ℕ)} {ll : LlData} {ns fs ps : List ℕ} {p : ℕ}

/-! ## What the memory holds -/

/-- The pointers on a linked list. -/
def pointers (nodes : Heap (LLNode ℕ)) (ll : LlData) : Set ℕ :=
  {p | ∃ elements len, llToArray true nodes ll 0 = .ok (some elements, len) ∧ some p ∈ elements}

/-- The names on the list of users, each with the address of its client. -/
def sessions (m : Memory) : Set (Uname × SockAddr) :=
  {s | ∃ p ∈ pointers m.nodes m.userList, ∃ user, m.users.read p = .ok user ∧
    user.username = s.1 ∧ user.cliaddr = s.2}

/-- The channels in the table, each with the names on its list. -/
def subscriptions (m : Memory) : Set (Cname × Uname) :=
  {s | ∃ p channel, m.getChannel s.1 = .ok (some (p, channel)) ∧
    ∃ e ∈ pointers m.nodes channel.userList, m.names.read e = .ok s.2}

/-- Nothing has changed but the time at which the user at an address was last seen. -/
structure Seen (m : Memory) (now : ℕ) (a : SockAddr) (m' : Memory) : Prop where
  frame : m' = { m with users := m'.users }
  users : ∀ p ∈ pointers m.nodes m.userList, m'.users.cells p = (m.users.cells p).map fun user =>
    if user.cliaddr = a then { user with lastSeen := UInt32.ofNat now } else user

theorem mem_pointers (hh : Holds nodes ll ns fs (ps.map some)) :
    p ∈ pointers nodes ll ↔ p ∈ ps := by
  simp only [pointers, llToArray_spec hh, Set.mem_ofPred_eq, Except.ok.injEq]
  constructor
  · rintro ⟨elements, len, heq, hp⟩
    split at heq
    · cases heq
      simpa using hp
    · cases heq
  · intro hp
    have hne : ps.map some ≠ [] := by simp [List.ne_nil_of_mem hp]
    exact ⟨_, _, if_pos ⟨hne, trivial⟩, List.mem_map_of_mem hp⟩

theorem Layout.mem_userList (hl : Layout m st channels leaked) :
    p ∈ pointers m.nodes m.userList ↔ p ∈ st.userList := by
  obtain ⟨ns, fs, hh, -⟩ := hl.userList
  exact mem_pointers hh

/-- A client that is logged in is found, and its user is written. -/
theorem Layout.heard (hl : Layout m st channels leaked) (hdir : st.Directory)
    (hget : st.getUser none (some (clientKey a)) = some p) (now : ℕ) :
    ∃ user m' st', st.users.cells p = some user ∧ user.cliaddr = a ∧
      m.updateLastSeen now (some user.username) none = .ok m' ∧ Layout m' st' channels leaked ∧
      m' = { m with users := m'.users } := by
  obtain ⟨user, st', hread, hok, hspeaks, -⟩ := hdir.speaks hget now
  have huser := read_eq_ok.mp hread
  have hstep : Lockstep _ (m.updateLastSeen now (some user.username) none)
      (st.updateLastSeen now (some user.username) none) :=
    updateLastSeen_lockstep hl now (by simpa using (hl.userKeys p user huser).1) none
  rw [hok] at hstep
  obtain ⟨m', hm', hl'⟩ := hstep.exists_left
  exact ⟨user, m', st', huser, hspeaks.addr, hm', hl', eq_of_updateLastSeen hm'⟩

/-- What the state says about the users is true in memory. -/
theorem Layout.seen (hl : Layout m st channels leaked) {st' : State} (hdir : st.Directory)
    {now : ℕ} (hframe : m' = { m with users := m'.users }) (husers : m'.users = st'.users)
    (hseen : st.Seen now a st') : m.Seen now a m' := by
  refine ⟨hframe, fun p hp => ?_⟩
  have hlisted := hl.mem_userList.mp hp
  obtain ⟨user, huser⟩ := hdir.live p hlisted
  rw [husers, hl.users]
  rcases hseen with ⟨hget, rfl⟩ | ⟨q, user', hspeaks⟩
  · have haddr : user.cliaddr ≠ a := by
      rintro rfl
      rw [hdir.getUser_client.mpr ⟨hlisted, user, huser, rfl⟩] at hget
      cases hget
    rw [huser, Option.map_some, if_neg haddr]
  · rw [hspeaks.touched.cells, huser, Option.map_some, Option.map_some]
    have hiff : p = q ↔ user.cliaddr = a := by
      constructor
      · rintro rfl
        rw [hspeaks.cell, Option.some.injEq] at huser
        rw [← huser, hspeaks.addr]
      · intro haddr
        have hp := hdir.getUser_client.mpr ⟨hlisted, user, huser, haddr⟩
        have hq := hdir.getUser_client.mpr ⟨hspeaks.listed, user', hspeaks.cell, hspeaks.addr⟩
        rw [hp, Option.some.injEq] at hq
        exact hq
    simp only [hiff]

end CliMessaging.Standalone.Memory
