import CliMessaging.Library.Heap
import CliMessaging.Library.Index
import CliMessaging.Model.Address
import CliMessaging.Model.Proto

/-! # State of the standalone server

The tables of `state.h` and the operations of `state.c` on them. A `struct user` is
reached through three tables and freed when it is removed, so the users live on a heap.
A hash map is a finite map and a linked list is a list. -/

namespace CliMessaging.Standalone

abbrev ipPortSize : ℕ := 22

/-- The text of an address and a port, `ip_port` in the source. -/
abbrev IpPort := CString ipPortSize

structure User where
  username : Uname
  ipPort : IpPort
  cliaddr : SockAddr
  lastSeen : UInt32
  deriving DecidableEq

/-- `struct channel_users_list` -/
structure ChannelUsersList where
  channelName : Cname
  userList : List Uname
  deriving DecidableEq

structure State where
  users : Heap User
  userList : List ℕ
  userByIp : AList fun _ : IpPort => ℕ
  userByUsername : AList fun _ : Uname => ℕ
  channelUserLists : AList fun _ : Cname => ChannelUsersList

/-- `alloc_state` -/
def State.initial : State := ⟨.empty, [], ∅, ∅, ∅⟩

/-! ## Linked lists -/

/-- `ll_index_of`, with `none` for -1. The elements are compared in the order of the
list, and a comparison may follow a bad pointer. -/
def llIndexOf {α : Type} (compare : α → α → Except Fault Bool) (target : α) :
    List α → Except Fault (Option ℕ)
  | [] => .ok none
  | cur :: ll => do
      if ← compare cur target then
        return some 0
      let idx ← llIndexOf compare target ll
      return idx.map (· + 1)

def llIdempotentAdd {α : Type} (compare : α → α → Except Fault Bool) (entry : α)
    (ll : List α) : Except Fault (List α) := do
  match ← llIndexOf compare entry ll with
  | some _ => return ll
  | none => return ll ++ [entry]

/-- `ll_idempotent_remove`. The second component is the element that is given to the
free function. -/
def llIdempotentRemove {α : Type} (compare : α → α → Except Fault Bool) (entry : α)
    (ll : List α) : Except Fault (List α × Option α) := do
  match ← llIndexOf compare entry ll with
  | some idx => return (ll.eraseIdx idx, ll[idx]?)
  | none => return (ll, none)

/-- `toArray` and `keyArray` of a table without entries return NULL and leave the length
as it was. -/
def toArray {α : Type} (ll : List α) (len : ℤ) : Option (List α) × ℤ :=
  if ll.length = 0 then (none, len) else (some ll, ll.length)

/-- The elements that a loop from 0 to `count` reads from an array. -/
def arrayEntries {α : Type} (arr : Option (List α)) (count : ℤ) : Except Fault (List α) :=
  if count ≤ 0 then .ok []
  else do
    let elements ← deref arr
    if count ≤ elements.length then return elements.take count.toNat
    else .error .outOfRange

/-- `char_compare` -/
def charCompare {n : ℕ} (e₁ e₂ : CString n) : Except Fault Bool := .ok (decide (e₁ = e₂))

/-- `construct_ip_port_key`, which swaps the bytes of its port. -/
def constructIpPortKey (ip : List UInt8) (port : UInt16) : IpPort :=
  .ofBuffer ipPortSize (by decide) (ip.take 15 ++ 58 :: decimal (ntohs port).toNat)

/-- The key of a client: the handlers pass its port in host order. -/
def clientKey (client : SockAddr) : IpPort :=
  constructIpPortKey (inetNtoa client.ip) client.port

namespace State

/-- `user_compare` -/
def userCompare (st : State) (e₁ e₂ : ℕ) : Except Fault Bool := do
  let u₁ ← st.users.read e₁
  let u₂ ← st.users.read e₂
  return decide (u₁.username = u₂.username ∧ u₁.ipPort = u₂.ipPort)

/-! ## Users -/

/-- Takes a user out of the list of users and frees it. -/
def removeFromList (st : State) (user : ℕ) : Except Fault State := do
  let (ll, removed) ← llIdempotentRemove st.userCompare user st.userList
  match removed with
  | some e => do
      let users ← st.users.free e
      return { st with users := users, userList := ll }
  | none => return { st with userList := ll }

def idempotentRemoveUser (st : State) (username : Option Uname) (ipPort : Option IpPort) :
    Except Fault State :=
  match username, ipPort with
  | some name, _ =>
      match st.userByUsername.lookup name with
      | some p => do
          let user ← st.users.read p
          removeFromList { st with
            userByUsername := st.userByUsername.erase name
            userByIp := st.userByIp.erase user.ipPort } p
      | none => .ok st
  | none, some key =>
      match st.userByIp.lookup key with
      | some p => do
          let user ← st.users.read p
          removeFromList { st with
            userByIp := st.userByIp.erase key
            userByUsername := st.userByUsername.erase user.username } p
      | none => .ok st
  | none, none => .ok st

def idempotentAddUser (st : State) (now : ℕ) (username : Uname) (ipPort : IpPort)
    (cliaddr : SockAddr) : Except Fault State := do
  let st ← st.idempotentRemoveUser (some username) none
  let st ← st.idempotentRemoveUser none (some ipPort)
  let user := st.users.next
  let st := { st with users := st.users.alloc ⟨username, ipPort, cliaddr, UInt32.ofNat now⟩ }
  let ll ← llIdempotentAdd st.userCompare user st.userList
  return { st with
    userList := ll
    userByIp := insertNew st.userByIp ipPort user
    userByUsername := insertNew st.userByUsername username user }

def listUsers (st : State) (count : ℤ) : Option (List ℕ) × ℤ := toArray st.userList count

def getUser (st : State) (username : Option Uname) (ipPort : Option IpPort) : Option ℕ :=
  match username, ipPort with
  | some name, _ => st.userByUsername.lookup name
  | none, some key => st.userByIp.lookup key
  | none, none => none

def updateLastSeen (st : State) (now : ℕ) (username : Option Uname) (cliaddr : Option SockAddr) :
    Except Fault State :=
  match st.getUser username (cliaddr.map clientKey) with
  | none => .ok st
  | some p => do
      let users ← st.users.modify p fun user => { user with lastSeen := UInt32.ofNat now }
      return { st with users := users }

/-! ## Channels -/

def idempotentRemoveChannel (st : State) (channelName : Cname) : State :=
  { st with channelUserLists := st.channelUserLists.erase channelName }

def idempotentAddChannel (st : State) (channelName : Cname) : State :=
  if channelName ∈ st.channelUserLists then st
  else { st with
    channelUserLists := insertNew st.channelUserLists channelName ⟨channelName, []⟩ }

def getChannel (st : State) (channelName : Cname) : Option ChannelUsersList :=
  st.channelUserLists.lookup channelName

/-- The list of a channel is changed in place. -/
def setUserList (st : State) (channelName : Cname) (channel : ChannelUsersList)
    (ll : List Uname) : State :=
  { st with
    channelUserLists := st.channelUserLists.insert channelName { channel with userList := ll } }

def idempotentChannelAddUser (st : State) (channelName : Cname) (username : Uname) :
    Except Fault State := do
  let st := st.idempotentAddChannel channelName
  let channel ← deref (st.getChannel channelName)
  let ll ← llIdempotentAdd charCompare username channel.userList
  return st.setUserList channelName channel ll

def idempotentChannelRemoveUser (st : State) (channelName : Cname) (username : Uname) :
    Except Fault State :=
  match st.getChannel channelName with
  | none => .ok st
  | some channel => do
      let (ll, _) ← llIdempotentRemove charCompare username channel.userList
      return st.setUserList channelName channel ll

/-- `get_channel_user_count`, with `none` for -1 -/
def getChannelUserCount (st : State) (channelName : Cname) : Option ℕ :=
  (st.getChannel channelName).map fun channel => channel.userList.length

def idempotentRemoveChannelIfEmpty (st : State) (channelName : Cname) : State :=
  match st.getChannelUserCount channelName with
  | none => st
  | some userCount => if userCount = 0 then st.idempotentRemoveChannel channelName else st

def getChannelList (st : State) (count : ℤ) : Option (List Cname) × ℤ :=
  toArray st.channelUserLists.keys count

end State

def channelContainsUser (channel : ChannelUsersList) (username : Uname) : Except Fault Bool := do
  let idx ← llIndexOf charCompare username channel.userList
  return idx.isSome

def channelGetUserList (channel : ChannelUsersList) (len : ℤ) : Option (List Uname) × ℤ :=
  toArray channel.userList len

end CliMessaging.Standalone
