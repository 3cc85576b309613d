import CliMessaging.Verification.Standalone.UserTable

/-! # The table of channels

Channels appear with their first subscriber and disappear with their last. -/

namespace CliMessaging.Standalone

/-- The tables of users have not changed. -/
structure State.SameUsers (st st' : State) : Prop where
  users : st'.users = st.users
  list : st'.userList = st.userList
  byIp : st'.userByIp = st.userByIp
  byName : st'.userByUsername = st.userByUsername

/-- A channel with one more subscriber, unless it is one already. -/
def ChannelUsersList.add (c : ChannelUsersList) (username : Uname) : ChannelUsersList :=
  { c with userList := if username ∈ c.userList then c.userList else c.userList ++ [username] }

/-- A channel with one subscriber less, unless none is left. -/
def ChannelUsersList.remove (c : ChannelUsersList) (username : Uname) : Option ChannelUsersList :=
  if c.userList.erase username = [] then none
  else some { c with userList := c.userList.erase username }

variable {st st' : State} {ch other : Cname} {name : Uname} {c : ChannelUsersList}

/-! ## Lists of names -/

theorem charCompare_eq (name : Uname) (ll : List Uname) :
    ∀ e ∈ ll, charCompare e name = .ok ((fun e => decide (e = name)) e) := fun _ _ => rfl

theorem llIdempotentAdd_charCompare (name : Uname) (ll : List Uname) :
    llIdempotentAdd charCompare name ll = .ok (if name ∈ ll then ll else ll ++ [name]) := by
  rw [llIdempotentAdd_eq (charCompare_eq name ll)]
  simp

theorem llIdempotentRemove_charCompare (name : Uname) (ll : List Uname) :
    ∃ removed, llIdempotentRemove charCompare name ll = .ok (ll.erase name, removed) := by
  have herase : ll.eraseP (fun e => decide (e = name)) = ll.erase name := by
    rw [List.erase_eq_eraseP]
    congr 1
    funext e
    exact decide_eq_decide.mpr eq_comm
  refine ⟨ll.find? fun e => decide (e = name), ?_⟩
  rw [llIdempotentRemove_eq (charCompare_eq name ll), herase]

theorem channelContainsUser_eq (c : ChannelUsersList) (name : Uname) :
    channelContainsUser c name = .ok (decide (name ∈ c.userList)) := by
  rw [channelContainsUser, llIndexOf_eq (charCompare_eq name c.userList),
    bind_ok, List.findIdx?_isSome]
  congr 1
  rw [Bool.eq_iff_iff]
  simp

/-! ## Operations -/

namespace State

theorem getChannel_insert (st : State) (ch : Cname) (c : ChannelUsersList) :
    getChannel { st with channelUserLists := st.channelUserLists.insert ch c } =
      Function.update st.getChannel ch (some c) := by
  funext other
  by_cases hother : other = ch
  · rw [hother, Function.update_self]
    exact AList.lookup_insert _
  · rw [Function.update_of_ne hother]
    exact AList.lookup_insert_ne hother

theorem getChannel_erase (st : State) (ch : Cname) :
    (st.idempotentRemoveChannel ch).getChannel = Function.update st.getChannel ch none := by
  funext other
  by_cases hother : other = ch
  · rw [hother, Function.update_self]
    exact AList.lookup_erase _ _
  · rw [Function.update_of_ne hother]
    exact AList.lookup_erase_ne hother

theorem getChannel_addChannel (st : State) (ch : Cname) :
    (st.idempotentAddChannel ch).getChannel =
      Function.update st.getChannel ch (some ((st.getChannel ch).getD ⟨ch, []⟩)) := by
  unfold idempotentAddChannel
  split
  · rename_i hmem
    obtain ⟨c, hc⟩ := Option.isSome_iff_exists.mp (AList.lookup_isSome.mpr hmem)
    have hget : st.getChannel ch = some c := hc
    rw [hget, Option.getD_some, ← hget, Function.update_eq_self]
  · rename_i hmem
    have hnone : st.channelUserLists.lookup ch = none := AList.lookup_eq_none.mpr hmem
    have hget : st.getChannel ch = none := hnone
    rw [insertNew_of_lookup_none hnone, getChannel_insert, hget]
    rfl

theorem sameUsers_addChannel (st : State) (ch : Cname) :
    st.SameUsers (st.idempotentAddChannel ch) := by
  unfold idempotentAddChannel
  split <;> exact ⟨rfl, rfl, rfl, rfl⟩

theorem channelAddUser_spec (st : State) (ch : Cname) (name : Uname) :
    ∃ st', st.idempotentChannelAddUser ch name = .ok st' ∧ st.SameUsers st' ∧
      st'.getChannel = Function.update st.getChannel ch
        (some (((st.getChannel ch).getD ⟨ch, []⟩).add name)) := by
  have hadd := getChannel_addChannel st ch
  have hsame := sameUsers_addChannel st ch
  have hget : (st.idempotentAddChannel ch).getChannel ch =
      some ((st.getChannel ch).getD ⟨ch, []⟩) := by
    rw [hadd, Function.update_self]
  refine ⟨(st.idempotentAddChannel ch).setUserList ch ((st.getChannel ch).getD ⟨ch, []⟩)
    (((st.getChannel ch).getD ⟨ch, []⟩).add name).userList, ?_,
    ⟨hsame.users, hsame.list, hsame.byIp, hsame.byName⟩, ?_⟩
  · simp only [idempotentChannelAddUser, hget, deref_some, bind_ok, llIdempotentAdd_charCompare,
      pure_eq_ok, ChannelUsersList.add]
  · rw [setUserList, getChannel_insert, hadd, Function.update_idem]
    rfl

/-- Taking a name off a channel and dropping the channel if it is empty then. -/
theorem channelRemoveUser_spec (st : State) (ch : Cname) (name : Uname) :
    ∃ st', st.idempotentChannelRemoveUser ch name = .ok st' ∧
      st.SameUsers (st'.idempotentRemoveChannelIfEmpty ch) ∧
      (st'.idempotentRemoveChannelIfEmpty ch).getChannel = Function.update st.getChannel ch
        ((st.getChannel ch).bind fun c => c.remove name) := by
  cases hget : st.getChannel ch with
  | none =>
      refine ⟨st, by simp [idempotentChannelRemoveUser, hget], ?_, ?_⟩
      · simp only [idempotentRemoveChannelIfEmpty, getChannelUserCount, hget, Option.map_none]
        exact ⟨rfl, rfl, rfl, rfl⟩
      · simp only [idempotentRemoveChannelIfEmpty, getChannelUserCount, hget, Option.map_none,
          Option.bind_none]
        rw [← hget, Function.update_eq_self]
  | some c =>
      obtain ⟨removed, hrm⟩ := llIdempotentRemove_charCompare name c.userList
      have hset : (st.setUserList ch c (c.userList.erase name)).getChannel =
          Function.update st.getChannel ch (some { c with userList := c.userList.erase name }) := by
        rw [setUserList, getChannel_insert]
      have hcount : (st.setUserList ch c (c.userList.erase name)).getChannelUserCount ch =
          some (c.userList.erase name).length := by
        rw [getChannelUserCount, hset, Function.update_self]
        rfl
      refine ⟨st.setUserList ch c (c.userList.erase name), ?_, ?_, ?_⟩
      · simp [idempotentChannelRemoveUser, hget, hrm]
      · simp only [idempotentRemoveChannelIfEmpty, hcount]
        split <;> exact ⟨rfl, rfl, rfl, rfl⟩
      · simp only [idempotentRemoveChannelIfEmpty, hcount, Option.bind_some,
          ChannelUsersList.remove, List.length_eq_zero_iff]
        split
        · rw [getChannel_erase, hset, Function.update_idem]
        · exact hset

end State

end CliMessaging.Standalone
