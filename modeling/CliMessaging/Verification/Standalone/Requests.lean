import CliMessaging.Verification.Standalone.ChannelTable

/-! # What a pass has done

A pass that does not bring the server down has one of finitely many effects on the
directory of users and on the channels, and sends the datagrams that go with it. -/

namespace CliMessaging.Standalone

open State

variable {st st' st₁ : State} {env : Env} {p : ℕ} {u v : User} {a : SockAddr} {ch : Cname}
  {name : Uname} {text : SayText} {c : ChannelUsersList}

/-! ## The cleanup loop -/

theorem forall_getElem?_cons {α : Type} {x y : α} {l : List α} {P : ℕ → Prop} :
    (∀ j, (x :: l)[j]? = some y → P j) ↔ (x = y → P 0) ∧ ∀ j, l[j]? = some y → P (j + 1) := by
  constructor
  · intro h
    exact ⟨fun hxy => h 0 (by simp [hxy]), fun j hj => h (j + 1) (by simpa using hj)⟩
  · rintro ⟨hzero, hsucc⟩ j hj
    cases j with
    | zero => exact hzero (by simpa using hj)
    | succ j => exact hsucc j (by simpa using hj)

/-- No entry of the snapshot from `i` on finds the user `q` inactive. -/
def Spared (st : State) (clock : ℕ → ℕ) (i : ℕ) (entries : List ℕ) (q : ℕ) : Prop :=
  ∀ j, entries[j]? = some q → ∀ u, st.users.cells q = some u →
    isInactive (clock (i + j)) u = false

theorem spared_cons {clock : ℕ → ℕ} {i q : ℕ} {entries : List ℕ} :
    Spared st clock i (p :: entries) q ↔
      (p = q → ∀ u, st.users.cells q = some u → isInactive (clock i) u = false) ∧
        Spared st clock (i + 1) entries q := by
  simp only [Spared]
  rw [forall_getElem?_cons]
  simp only [Nat.add_zero, Nat.add_assoc, Nat.add_comm 1]

/-- The loop over a snapshot frees only the entry it is at, so every later entry is still
a user of the directory. -/
theorem removeInactive_spec (clock : ℕ → ℕ) {entries : List ℕ} (h : st.Directory)
    (hnd : entries.Nodup) (hsub : ∀ q ∈ entries, q ∈ st.userList) (i : ℕ) :
    ∃ st', removeInactive clock i entries st = .ok st' ∧ st'.Directory ∧
      st'.channelUserLists = st.channelUserLists ∧
      (∀ q ∈ st'.userList, st'.users.cells q = st.users.cells q) ∧
      ∀ q, q ∈ st'.userList ↔ q ∈ st.userList ∧ Spared st clock i entries q := by
  induction entries generalizing st i with
  | nil => exact ⟨st, rfl, h, rfl, fun _ _ => rfl, by simp [Spared]⟩
  | cons p entries ih =>
      obtain ⟨hp, hnd⟩ := List.nodup_cons.mp hnd
      have hpin := hsub p List.mem_cons_self
      obtain ⟨u, hu⟩ := h.live p hpin
      have hread := Heap.read_eq_ok.mpr hu
      cases hidle : isInactive (clock i) u with
      | false =>
          obtain ⟨st', hok, hdir, hch, hcells, hmem⟩ :=
            ih h hnd (fun q hq => hsub q (List.mem_cons_of_mem _ hq)) (i + 1)
          refine ⟨st', ?_, hdir, hch, hcells, fun q => ?_⟩
          · simp [removeInactive, hread, hidle, hok]
          · have hactive : p = q → ∀ v, st.users.cells q = some v →
                isInactive (clock i) v = false := by
              rintro rfl v hv
              rw [hu] at hv
              cases hv
              exact hidle
            rw [hmem, spared_cons, iff_true_intro hactive, true_and]
      | true =>
          obtain ⟨st₁, hok₁, h₁, hrm⟩ := h.removeUser_name hpin hu
          have hmem₁ : ∀ q, q ∈ st₁.userList ↔ q ≠ p ∧ q ∈ st.userList := fun q => by
            rw [hrm.list, h.nodup.mem_erase_iff]
          have hcells₁ : ∀ q, q ≠ p → st₁.users.cells q = st.users.cells q := fun q hq => by
            rw [hrm.cells, Function.update_of_ne hq]
          obtain ⟨st', hok, hdir, hch, hcells, hmem⟩ := ih h₁ hnd (fun q hq => by
            rw [hmem₁]
            refine ⟨?_, hsub q (List.mem_cons_of_mem _ hq)⟩
            rintro rfl
            exact hp hq) (i + 1)
          refine ⟨st', ?_, hdir, hch.trans hrm.channels, fun q hq => ?_, fun q => ?_⟩
          · simp [removeInactive, hread, hidle, hok₁, hok]
          · rw [hcells q hq, hcells₁ q ((hmem₁ q).mp ((hmem q).mp hq).1).1]
          · rw [hmem, hmem₁, spared_cons]
            by_cases hqp : q = p
            · subst hqp
              have hgone : ¬ ∀ v, st.users.cells q = some v →
                  isInactive (clock i) v = false := fun hall => by
                simp [hall u hu] at hidle
              simp [hgone]
            · simp [hqp, Ne.symm hqp, Spared, hcells₁ q hqp]

theorem listUsers_entries (st : State) (count : ℤ) :
    arrayEntries (st.listUsers count).1 (st.listUsers count).2 =
      if st.userList = [] ∧ 0 < count then .error .nullPointer else .ok st.userList :=
  arrayEntries_toArray st.userList count

theorem scan_spec (h : st.Directory) (hcount : ¬ (st.userList = [] ∧ 0 < env.count)) :
    ∃ st', scanAndRemoveInactiveUsers st env = .ok st' ∧ st'.Directory ∧
      st'.channelUserLists = st.channelUserLists ∧
      ∀ v, st'.Record v ↔ ∃ p ∈ st.userList, st.users.cells p = some v ∧
        Spared st env.clock 0 st.userList p := by
  obtain ⟨st', hok, hdir, hch, hcells, hmem⟩ :=
    removeInactive_spec env.clock h h.nodup (fun _ hq => hq) 0
  refine ⟨st', ?_, hdir, hch, fun v => ?_⟩
  · simp only [scanAndRemoveInactiveUsers, listUsers_entries, if_neg hcount, bind_ok, hok]
  · constructor
    · rintro ⟨p, hp, hv⟩
      obtain ⟨hp', hspared⟩ := (hmem p).mp hp
      exact ⟨p, hp', by rw [← hcells p hp, hv], hspared⟩
    · rintro ⟨p, hp, hv, hspared⟩
      have hp' := (hmem p).mpr ⟨hp, hspared⟩
      exact ⟨p, hp', by rw [hcells p hp', hv]⟩

/-! ## Clients -/

/-- The client at `a` is logged in as the user `p`, which has been touched. -/
structure State.Speaks (st : State) (now : ℕ) (a : SockAddr) (p : ℕ) (u : User) (st' : State) :
    Prop where
  listed : p ∈ st.userList
  cell : st.users.cells p = some u
  addr : u.cliaddr = a
  touched : st.Touched now p st'

theorem State.Directory.speaks (h : st.Directory)
    (hget : st.getUser none (some (clientKey a)) = some p) (now : ℕ) :
    ∃ u st', st.users.read p = .ok u ∧
      st.updateLastSeen now (some u.username) none = .ok st' ∧ st.Speaks now a p u st' ∧
      st'.channelUserLists = st.channelUserLists := by
  obtain ⟨hp, u, hu, haddr⟩ := h.getUser_client.mp hget
  have hname : st.getUser (some u.username) (Option.map clientKey none) = some p :=
    h.getUser_name.mpr ⟨hp, u, hu, rfl⟩
  obtain ⟨st', hok, htouched, hch⟩ :=
    h.updateLastSeen_of_getUser (some u.username) none hname hp now
  exact ⟨u, st', Heap.read_eq_ok.mpr hu, hok, ⟨hp, hu, haddr, htouched⟩, hch⟩

/-- A client that is logged in has been touched; nothing happens to another. -/
def State.Seen (st : State) (now : ℕ) (a : SockAddr) (st' : State) : Prop :=
  (st.getUser none (some (clientKey a)) = none ∧ st' = st) ∨ ∃ p u, st.Speaks now a p u st'

theorem State.Directory.seen (h : st.Directory) (now : ℕ) (a : SockAddr) :
    ∃ st', st.updateLastSeen now none (some a) = .ok st' ∧ st.Seen now a st' ∧
      st'.channelUserLists = st.channelUserLists := by
  cases hget : st.getUser none (some (clientKey a)) with
  | none => exact ⟨st, by simp [updateLastSeen, hget], Or.inl ⟨hget, rfl⟩, rfl⟩
  | some p =>
      obtain ⟨hp, u, hu, haddr⟩ := h.getUser_client.mp hget
      obtain ⟨st', hok, htouched, hch⟩ :=
        h.updateLastSeen_of_getUser none (some a) hget hp now
      exact ⟨st', hok, Or.inr ⟨p, u, hp, hu, haddr, htouched⟩, hch⟩

/-- Where the user of a name is reached. -/
def State.addressOf (st : State) (name : Uname) : Option SockAddr :=
  (st.getUser (some name) none).bind fun p => (st.users.cells p).map User.cliaddr

theorem State.Touched.addressOf_eq {now : ℕ} (ht : st.Touched now p st') (name : Uname) :
    st'.addressOf name = st.addressOf name := by
  have hget : st'.getUser (some name) none = st.getUser (some name) none := by
    rw [getUser, getUser, ht.byName]
  rw [addressOf, addressOf, hget]
  congr 1
  funext q
  exact ht.map_eq User.cliaddr (fun _ _ => rfl) q

theorem sendToUsers_eq (h : st.Directory) (text : SayText) (ch : Cname) (name : Uname)
    (names : List Uname) : sendToUsers st text ch name names =
      .ok (names.filterMap fun n => (st.addressOf n).map (sendMessage text ch name)) := by
  induction names with
  | nil => rfl
  | cons n names ih =>
      cases hget : st.getUser (some n) none with
      | none => simp [sendToUsers, hget, ih, addressOf]
      | some p =>
          obtain ⟨-, u, hu, -⟩ := h.getUser_name.mp hget
          simp [sendToUsers, hget, Heap.read_eq_ok.mpr hu, ih, addressOf, hu]

/-! ## Effects -/

/-- The answer to `handle_request_list`. -/
def State.listReply (st : State) (a : SockAddr) : List Datagram :=
  if st.channelUserLists.keys = [] then sendError "Error getting channels" a
  else sendChannelList st.channelUserLists.keys a

/-- The answer to `handle_request_who` for a channel that is never empty. -/
def State.whoReply (st : State) (ch : Cname) (a : SockAddr) : List Datagram :=
  (st.getChannel ch).elim (sendError "Channel does not exist" a) fun c =>
    sendUserList c.userList c.channelName a

/-- Requests that are refused to a client that is not logged in. -/
def needsUser : ClientRequest → Bool
  | .join _ | .leave _ | .say _ _ => true
  | _ => false

/-- What a pass has done that did not bring the server down, by the kind of its input. -/
inductive State.Effect (st : State) (env : Env) : Input → State → List Datagram → Prop where
  | login {a : SockAddr} {name : Uname} {st' : State} : st'.Directory →
      (∀ v, st'.Record v ↔ (st.Record v ∧ v.username ≠ name ∧ v.ipPort ≠ clientKey a) ∨
        v = ⟨name, clientKey a, a, UInt32.ofNat env.now⟩) →
      st'.channelUserLists = st.channelUserLists →
      Effect st env (.recv a (.login name)) st' []
  | logout {a : SockAddr} {st' : State} : st'.Directory →
      (∀ v, st'.Record v ↔ st.Record v ∧ v.ipPort ≠ clientKey a) →
      st'.channelUserLists = st.channelUserLists → Effect st env (.recv a .logout) st' []
  | stranger {a : SockAddr} {req : ClientRequest} : needsUser req →
      st.getUser none (some (clientKey a)) = none →
      Effect st env (.recv a req) st (sendError "User not currently logged in" a)
  | join {a : SockAddr} {ch : Cname} {p : ℕ} {u : User} {st' : State} :
      st.Speaks env.now a p u st' →
      st'.getChannel = Function.update st.getChannel ch
        (some (((st.getChannel ch).getD ⟨ch, []⟩).add u.username)) →
      Effect st env (.recv a (.join ch)) st' []
  | leave {a : SockAddr} {ch : Cname} {p : ℕ} {u : User} {st' : State} :
      st.Speaks env.now a p u st' →
      st'.getChannel = Function.update st.getChannel ch
        ((st.getChannel ch).bind fun c => c.remove u.username) →
      Effect st env (.recv a (.leave ch)) st' []
  | sayNowhere {a : SockAddr} {ch : Cname} {p : ℕ} {u : User} {st' : State} (text : SayText) :
      st.Speaks env.now a p u st' → st'.channelUserLists = st.channelUserLists →
      st.getChannel ch = none →
      Effect st env (.recv a (.say ch text)) st' (sendError "Channel does not exist" a)
  | sayOutside {a : SockAddr} {ch : Cname} {p : ℕ} {u : User} {c : ChannelUsersList}
      {st' : State} (text : SayText) :
      st.Speaks env.now a p u st' → st'.channelUserLists = st.channelUserLists →
      st.getChannel ch = some c → u.username ∉ c.userList →
      Effect st env (.recv a (.say ch text)) st' (sendError "User is not part of channel" a)
  | say {a : SockAddr} {ch : Cname} {p : ℕ} {u : User} {c : ChannelUsersList} {st' : State}
      (text : SayText) :
      st.Speaks env.now a p u st' → st'.channelUserLists = st.channelUserLists →
      st.getChannel ch = some c → u.username ∈ c.userList →
      Effect st env (.recv a (.say ch text)) st' (c.userList.filterMap fun n =>
        (st.addressOf n).map (sendMessage text ch u.username))
  | list {a : SockAddr} {st' : State} : st.Seen env.now a st' →
      st'.channelUserLists = st.channelUserLists →
      Effect st env (.recv a .list) st' (st.listReply a)
  | who {a : SockAddr} {st' : State} (ch : Cname) : st.Seen env.now a st' →
      st'.channelUserLists = st.channelUserLists →
      Effect st env (.recv a (.who ch)) st' (st.whoReply ch a)
  | keepAlive {a : SockAddr} {st' : State} : st.Seen env.now a st' →
      st'.channelUserLists = st.channelUserLists → Effect st env (.recv a .keepAlive) st' []
  | scan {st' : State} : st'.Directory → st'.channelUserLists = st.channelUserLists →
      (∀ v, st'.Record v ↔ ∃ p ∈ st.userList, st.users.cells p = some v ∧
        Spared st env.clock 0 st.userList p) →
      Effect st env .scan st' []

/-! ## Invariant -/

/-- Every channel is stored under its own name and has subscribers, each once. -/
def State.Rosters (st : State) : Prop :=
  ∀ ch c, st.getChannel ch = some c → c.channelName = ch ∧ c.userList ≠ [] ∧ c.userList.Nodup

structure State.Inv (st : State) : Prop where
  directory : st.Directory
  rosters : st.Rosters

/-- The pass runs a loop over the array of `list_users`. -/
def State.ListsUsers (st : State) : Input → Prop
  | .recv a (.join _) | .recv a (.leave _) => st.getUser none (some (clientKey a)) = none
  | .recv _ _ => False
  | .scan => True

/-- The loop over the users, with the entries that it reads from the array. -/
def State.overUsers (st : State) (env : Env) (entries : List ℕ) : Input → Result
  | .recv a _ => do
      let _ ← st.users.readAll entries
      return (st, sendError "User not currently logged in" a)
  | .scan => do
      let st ← removeInactive env.clock 0 entries st
      return (st, [])

/-- Such a pass is its loop, from 0 to the length that goes with the array. -/
theorem State.react_of_listsUsers (st : State) (env : Env) {input : Input}
    (hlists : st.ListsUsers input) : st.react env input =
      (arrayEntries (st.listUsers env.count).1 (st.listUsers env.count).2 >>= fun entries =>
        st.overUsers env entries input) := by
  cases input with
  | scan =>
      simp only [react, scanAndRemoveInactiveUsers, overUsers]
      cases arrayEntries (st.listUsers env.count).1 (st.listUsers env.count).2 <;> rfl
  | recv a req =>
      cases req with
      | join ch =>
          have hget : st.getUser none (some (clientKey a)) = none := hlists
          simp only [react, handleRequest, handleRequestJoin, hget]
          rfl
      | leave ch =>
          have hget : st.getUser none (some (clientKey a)) = none := hlists
          simp only [react, handleRequest, handleRequestLeave, hget]
          rfl
      | _ => exact hlists.elim

/-- The pass runs into the NULL array that `toArray` returns for an empty list, with a
positive number in the uninitialised length. -/
def State.Stumbles (st : State) (env : Env) (input : Input) : Prop :=
  st.ListsUsers input ∧ st.userList = [] ∧ 0 < env.count

/-- The server goes down in every pass that stumbles. -/
theorem State.react_of_stumbles {input : Input} (hs : st.Stumbles env input) :
    st.react env input = .error .nullPointer := by
  obtain ⟨hlists, hempty⟩ := hs
  rw [st.react_of_listsUsers env hlists, listUsers_entries, if_pos hempty, bind_error]

/-! ## Handlers -/

theorem rejectStranger_eq (h : st.Directory) (env : Env) (a : SockAddr) :
    rejectStranger st env a =
      if st.userList = [] ∧ 0 < env.count then .error .nullPointer
      else .ok (st, sendError "User not currently logged in" a) := by
  simp only [rejectStranger, listUsers_entries]
  split
  · rfl
  · simp [Heap.readAll_of_live h.live]

theorem State.Speaks.sameUsers {now : ℕ} (h : st.Speaks now a p u st₁)
    (hsame : st₁.SameUsers st') : st.Speaks now a p u st' where
  listed := h.listed
  cell := h.cell
  addr := h.addr
  touched := {
    list := hsame.list.trans h.touched.list
    byName := hsame.byName.trans h.touched.byName
    byIp := hsame.byIp.trans h.touched.byIp
    cells := fun q => by rw [hsame.users, h.touched.cells] }

theorem State.getChannel_congr (h : st'.channelUserLists = st.channelUserLists) :
    st'.getChannel = st.getChannel := by
  funext ch
  rw [State.getChannel, h, State.getChannel]

/-- A pass either stumbles over the empty list of users or has one of the effects. -/
def State.Outcome (st : State) (env : Env) (input : Input) (result : Result) : Prop :=
  (st.Stumbles env input ∧ result = .error .nullPointer) ∨
    ∃ st' sent, result = .ok (st', sent) ∧ st.Effect env input st' sent

theorem outcome_of_stranger (h : st.Directory) {req : ClientRequest} (env : Env)
    (hreq : needsUser req) (hlists : st.ListsUsers (.recv a req))
    (hget : st.getUser none (some (clientKey a)) = none) :
    st.Outcome env (.recv a req) (rejectStranger st env a) := by
  rw [rejectStranger_eq h]
  split
  · rename_i hempty
    exact Or.inl ⟨⟨hlists, hempty⟩, rfl⟩
  · exact Or.inr ⟨_, _, rfl, .stranger hreq hget⟩

theorem handleRequestJoin_outcome (h : st.Directory) (env : Env) (a : SockAddr) (ch : Cname) :
    st.Outcome env (.recv a (.join ch)) (handleRequestJoin st env a ch) := by
  cases hget : st.getUser none (some (clientKey a)) with
  | none =>
      simp only [handleRequestJoin, hget]
      exact outcome_of_stranger h env rfl hget hget
  | some p =>
      obtain ⟨u, st₁, hread, hseen, hspeaks, hch⟩ := h.speaks hget env.now
      obtain ⟨st', hadd, hsame, hchan⟩ := st₁.channelAddUser_spec ch u.username
      rw [getChannel_congr hch] at hchan
      refine Or.inr ⟨st', [], ?_, .join (hspeaks.sameUsers hsame) hchan⟩
      simp [handleRequestJoin, hget, hread, hseen, hadd]

theorem handleRequestLeave_outcome (h : st.Directory) (env : Env) (a : SockAddr) (ch : Cname) :
    st.Outcome env (.recv a (.leave ch)) (handleRequestLeave st env a ch) := by
  cases hget : st.getUser none (some (clientKey a)) with
  | none =>
      simp only [handleRequestLeave, hget]
      exact outcome_of_stranger h env rfl hget hget
  | some p =>
      obtain ⟨u, st₁, hread, hseen, hspeaks, hch⟩ := h.speaks hget env.now
      obtain ⟨st', hrm, hsame, hchan⟩ := st₁.channelRemoveUser_spec ch u.username
      rw [getChannel_congr hch] at hchan
      refine Or.inr ⟨_, [], ?_, .leave (hspeaks.sameUsers hsame) hchan⟩
      simp [handleRequestLeave, hget, hread, hseen, hrm]

theorem handleRequestSay_outcome (h : st.Inv) (env : Env) (a : SockAddr) (ch : Cname)
    (text : SayText) :
    st.Outcome env (.recv a (.say ch text)) (handleRequestSay st env a ch text) := by
  cases hget : st.getUser none (some (clientKey a)) with
  | none => exact Or.inr ⟨_, _, by simp only [handleRequestSay, hget], .stranger rfl hget⟩
  | some p =>
      obtain ⟨u, st', hread, hseen, hspeaks, hch⟩ := h.directory.speaks hget env.now
      have hchan : st'.getChannel = st.getChannel := getChannel_congr hch
      cases hc : st.getChannel ch with
      | none =>
          refine Or.inr ⟨st', _, ?_, .sayNowhere text hspeaks hch hc⟩
          simp [handleRequestSay, hget, hread, hseen, hchan, hc]
      | some c =>
          by_cases hmem : u.username ∈ c.userList
          · have hsend := sendToUsers_eq (h.directory.touched hspeaks.touched) text ch u.username
              c.userList
            simp only [hspeaks.touched.addressOf_eq] at hsend
            have harr : channelGetUserList c (-1) = (some c.userList, (c.userList.length : ℤ)) :=
              toArray_of_ne_nil (h.rosters ch c hc).2.1 (-1)
            refine Or.inr ⟨st', _, ?_, .say text hspeaks hch hc hmem⟩
            simp [handleRequestSay, hget, hread, hseen, hchan, hc, channelContainsUser_eq, hmem,
              harr, arrayEntries_self, hsend]
          · refine Or.inr ⟨st', _, ?_, .sayOutside text hspeaks hch hc hmem⟩
            simp [handleRequestSay, hget, hread, hseen, hchan, hc, channelContainsUser_eq, hmem]

theorem handleRequestList_outcome (h : st.Directory) (env : Env) (a : SockAddr) :
    st.Outcome env (.recv a .list) (handleRequestList st env a) := by
  obtain ⟨st', hok, hseen, hch⟩ := h.seen env.now a
  refine Or.inr ⟨st', st.listReply a, ?_, .list hseen hch⟩
  by_cases hkeys : st.channelUserLists.keys = []
  · simp [handleRequestList, hok, getChannelList, hch, State.listReply, hkeys, toArray_nil]
  · simp [handleRequestList, hok, getChannelList, hch, State.listReply, hkeys,
      toArray_of_ne_nil hkeys, arrayEntries_self]

theorem handleRequestWho_outcome (h : st.Inv) (env : Env) (a : SockAddr) (ch : Cname) :
    st.Outcome env (.recv a (.who ch)) (handleRequestWho st env a ch) := by
  obtain ⟨st', hok, hseen, hch⟩ := h.directory.seen env.now a
  have hchan : st'.getChannel = st.getChannel := getChannel_congr hch
  refine Or.inr ⟨st', st.whoReply ch a, ?_, .who ch hseen hch⟩
  cases hc : st.getChannel ch with
  | none => simp [handleRequestWho, hok, hchan, hc, State.whoReply]
  | some c =>
      have harr : channelGetUserList c 0 = (some c.userList, (c.userList.length : ℤ)) :=
        toArray_of_ne_nil (h.rosters ch c hc).2.1 0
      simp [handleRequestWho, hok, hchan, hc, State.whoReply, harr, arrayEntries_self]

theorem handleRequest_outcome (h : st.Inv) (env : Env) (a : SockAddr) (req : ClientRequest) :
    st.Outcome env (.recv a req) (handleRequest st env a req) := by
  cases req with
  | login name =>
      obtain ⟨st', hok, hdir, hrec, hch⟩ := h.directory.addUser_spec env.now name a
      refine Or.inr ⟨st', [], ?_, .login hdir hrec hch⟩
      simp [handleRequest, handleLogin, hok]
  | logout =>
      obtain ⟨st', hok, hdir, hrec, hch⟩ := h.directory.removeUserKey_spec (clientKey a)
      refine Or.inr ⟨st', [], ?_, .logout hdir hrec hch⟩
      simp [handleRequest, handleLogout, hok]
  | join ch => exact handleRequestJoin_outcome h.directory env a ch
  | leave ch => exact handleRequestLeave_outcome h.directory env a ch
  | say ch text => exact handleRequestSay_outcome h env a ch text
  | list => exact handleRequestList_outcome h.directory env a
  | who ch => exact handleRequestWho_outcome h env a ch
  | keepAlive =>
      obtain ⟨st', hok, hseen, hch⟩ := h.directory.seen env.now a
      refine Or.inr ⟨st', [], ?_, .keepAlive hseen hch⟩
      simp [handleRequest, handleRequestKeepAlive, hok]

theorem State.Inv.outcome (h : st.Inv) (env : Env) (input : Input) :
    st.Outcome env input (st.react env input) := by
  cases input with
  | recv a req => exact handleRequest_outcome h env a req
  | scan =>
      by_cases hempty : st.userList = [] ∧ 0 < env.count
      · have hstumbles : st.Stumbles env .scan := ⟨trivial, hempty⟩
        exact Or.inl ⟨hstumbles, react_of_stumbles hstumbles⟩
      · obtain ⟨st', hok, hdir, hch, hrec⟩ := scan_spec h.directory hempty
        refine Or.inr ⟨st', [], ?_, .scan hdir hch hrec⟩
        simp [State.react, hok]

/-- A pass that does not stumble completes. -/
theorem State.Inv.react_ok (h : st.Inv) {input : Input} (hnot : ¬ st.Stumbles env input) :
    ∃ st' sent, st.react env input = .ok (st', sent) := by
  rcases h.outcome env input with ⟨hstumbles, -⟩ | ⟨st', sent, hok, -⟩
  · exact absurd hstumbles hnot
  · exact ⟨st', sent, hok⟩

/-! ## Runs -/

theorem ChannelUsersList.add_userList_ne_nil (c : ChannelUsersList) (name : Uname) :
    (c.add name).userList ≠ [] := by
  unfold ChannelUsersList.add
  split
  · rename_i hmem
    exact List.ne_nil_of_mem hmem
  · simp

theorem ChannelUsersList.add_nodup (c : ChannelUsersList) (hnd : c.userList.Nodup)
    (name : Uname) : (c.add name).userList.Nodup := by
  unfold ChannelUsersList.add
  split
  · exact hnd
  · rename_i hmem
    exact hnd.append (List.nodup_singleton name) fun n hn hname => by
      rw [List.mem_singleton.mp hname] at hn
      exact hmem hn

theorem State.Rosters.congr (h : st.Rosters) (hchan : st'.getChannel = st.getChannel) :
    st'.Rosters := by
  intro ch c hc
  rw [hchan] at hc
  exact h ch c hc

theorem State.Inv.of_effect {input : Input} {sent : List Datagram} (h : st.Inv)
    (heff : st.Effect env input st' sent) : st'.Inv := by
  have hseen : ∀ {a}, st.Seen env.now a st' → st'.Directory := by
    rintro a (⟨-, rfl⟩ | ⟨p, u, hspeaks⟩)
    · exact h.directory
    · exact h.directory.touched hspeaks.touched
  cases heff with
  | login hdir hrec hch => exact ⟨hdir, h.rosters.congr (getChannel_congr hch)⟩
  | logout hdir hrec hch => exact ⟨hdir, h.rosters.congr (getChannel_congr hch)⟩
  | stranger hreq hget => exact h
  | @join a ch p u _ hspeaks hchan =>
      refine ⟨h.directory.touched hspeaks.touched, fun other c hc => ?_⟩
      rw [hchan] at hc
      by_cases hother : other = ch
      · subst hother
        rw [Function.update_self] at hc
        cases hc
        refine ⟨?_, ChannelUsersList.add_userList_ne_nil _ _, ChannelUsersList.add_nodup _ ?_ _⟩
        · cases hold : st.getChannel other with
          | none => rfl
          | some c => exact (h.rosters other c hold).1
        · cases hold : st.getChannel other with
          | none => exact List.nodup_nil
          | some c => exact (h.rosters other c hold).2.2
      · rw [Function.update_of_ne hother] at hc
        exact h.rosters other c hc
  | @leave a ch p u _ hspeaks hchan =>
      refine ⟨h.directory.touched hspeaks.touched, fun other c hc => ?_⟩
      rw [hchan] at hc
      by_cases hother : other = ch
      · subst hother
        rw [Function.update_self] at hc
        obtain ⟨c', hc', hrm⟩ := Option.bind_eq_some_iff.mp hc
        obtain ⟨hname, -, hnd⟩ := h.rosters other c' hc'
        unfold ChannelUsersList.remove at hrm
        split at hrm
        · cases hrm
        · rename_i hne
          cases hrm
          exact ⟨hname, hne, hnd.erase _⟩
      · rw [Function.update_of_ne hother] at hc
        exact h.rosters other c hc
  | sayNowhere text hspeaks hch hc =>
      exact ⟨h.directory.touched hspeaks.touched, h.rosters.congr (getChannel_congr hch)⟩
  | sayOutside text hspeaks hch hc hmem =>
      exact ⟨h.directory.touched hspeaks.touched, h.rosters.congr (getChannel_congr hch)⟩
  | say text hspeaks hch hc hmem =>
      exact ⟨h.directory.touched hspeaks.touched, h.rosters.congr (getChannel_congr hch)⟩
  | list hs hch => exact ⟨hseen hs, h.rosters.congr (getChannel_congr hch)⟩
  | who ch hs hch => exact ⟨hseen hs, h.rosters.congr (getChannel_congr hch)⟩
  | keepAlive hs hch => exact ⟨hseen hs, h.rosters.congr (getChannel_congr hch)⟩
  | scan hdir hch hrec => exact ⟨hdir, h.rosters.congr (getChannel_congr hch)⟩

theorem State.inv_initial : State.initial.Inv := by
  refine ⟨State.directory_initial, fun ch c hc => ?_⟩
  cases hc

theorem State.Inv.effect_of_ok {input : Input} {sent : List Datagram} (h : st.Inv)
    (hok : st.react env input = .ok (st', sent)) : st.Effect env input st' sent := by
  rcases h.outcome env input with ⟨-, hfault⟩ | ⟨st₁, sent₁, heq, heff⟩
  · rw [hok] at hfault
    cases hfault
  · rw [hok] at heq
    cases heq
    exact heff

theorem State.Reachable.inv (hst : st.Reachable) : st.Inv := by
  obtain ⟨ps, hrun⟩ := hst
  exact hrun.invariant (P := fun _ => True)
    (fun _ _ _ h _ hstep => h.of_effect (h.effect_of_ok hstep)) (fun _ _ => trivial)
    State.inv_initial

/-- The state after a list of inputs, unless one of them brings the server down. -/
def State.replay (st : State) : List (Env × Input) → Option State
  | [] => some st
  | (env, input) :: inputs =>
      match st.react env input with
      | .ok (st', _) => st'.replay inputs
      | .error _ => none

theorem State.run_of_replay {inputs : List (Env × Input)} (h : st.replay inputs = some st') :
    ∃ ps, Transition.Run State.Step st ps st' := by
  induction inputs generalizing st with
  | nil =>
      cases h
      exact ⟨[], .nil _⟩
  | cons first inputs ih =>
      obtain ⟨env, input⟩ := first
      rw [State.replay] at h
      split at h
      · rename_i st₁ sent hok
        obtain ⟨ps, hrun⟩ := ih h
        exact ⟨⟨env, input, sent⟩ :: ps, .cons hok hrun⟩
      · cases h

/-! ## Concrete runs -/

/-- A client on machine `n`. -/
def desk (n : UInt8) : SockAddr := ⟨⟨10, 0, 0, n⟩, 5000⟩

/-- The clock stands at `now`, and the uninitialised length is zero. -/
def Env.at (now : ℕ) : Env := ⟨fun _ => now, 0⟩

end CliMessaging.Standalone
