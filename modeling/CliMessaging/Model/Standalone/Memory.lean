import CliMessaging.Model.Standalone.Handlers
import CliMessaging.Model.Standalone.HashMap
import CliMessaging.Model.Standalone.LinkedList

/-! # The standalone server in memory

The operations of `state.c` and the handlers of `server_helpers.h` on the linked lists and
hash maps of `adts`, where every object of the state is behind a pointer. Each kind of object
has a heap of its own, with one for the copies that `strdup` makes of names. -/

namespace CliMessaging.Standalone

open LinkedList (LLNode LlData linkedListCreate llAdd llGet llRemove llSize llToArray llDestroy)
open HashMap (HMEntry HmData Grants serverTable hmContainsKey hmDestroy hmGet hmKeyArray
  hmPutUnique hmRemove)

/-- `struct channel_users_list` -/
structure ChannelRecord where
  channelName : Cname
  userList : LlData

/-- `struct state` with what it leads to. -/
structure Memory where
  users : Heap User
  names : Heap Uname
  channels : Heap ChannelRecord
  nodes : Heap (LLNode ℕ)
  entries : Heap (HMEntry ℕ)
  userList : LlData
  userByIp : HmData
  userByUsername : HmData
  channelUserLists : HmData

/-- What `malloc` finds for the lists and tables during a pass. It always finds what
`state.c` asks for itself, which `state.c` does not check. -/
structure Malloc where
  blocks : List (LLNode ℕ)
  grants : Grants
  room : Bool

/-- `malloc` may only fail to find a larger array for a table. -/
structure Malloc.Ample (mem : Malloc) : Prop where
  blocks : 2 ≤ mem.blocks.length
  entry : mem.grants.entry = true
  key : mem.grants.key = true
  room : mem.room = true

/-- `alloc_state`. A list that is NULL is a fault where it is used. -/
def allocState (mem : Malloc) : Except Fault Memory := do
  let (nodes, userList) ← deref (linkedListCreate mem.blocks .empty)
  return {
    users := .empty
    names := .empty
    channels := .empty
    nodes := nodes
    entries := .empty
    userList := userList
    userByIp := serverTable
    userByUsername := serverTable
    channelUserLists := serverTable }

namespace Memory

/-! ## Linked lists of pointers -/

/-- `ll_index_of` from the index `i` with `n` elements to go, with `none` for -1. -/
def llIndexOf (nodes : Heap (LLNode ℕ)) (ll : LlData) (compare : ℕ → Except Fault Bool) :
    ℕ → ℤ → Except Fault (Option ℤ)
  | 0, _ => .ok none
  | n + 1, i => do
      let curElement ← deref (← llGet nodes ll i)
      if ← compare (← deref curElement) then
        return some i
      llIndexOf nodes ll compare n (i + 1)

def llIdempotentAdd (blocks : List (LLNode ℕ)) (nodes : Heap (LLNode ℕ)) (ll : LlData)
    (compare : ℕ → Except Fault Bool) (entry : ℕ) :
    Except Fault (Heap (LLNode ℕ) × LlData) := do
  match ← llIndexOf nodes ll compare (llSize ll).toNat 0 with
  | some _ => return (nodes, ll)
  | none => do
      let (nodes, ll, _) ← llAdd blocks nodes ll (some entry)
      return (nodes, ll)

/-- `ll_idempotent_remove`. The last component is what is given to the free function. -/
def llIdempotentRemove (nodes : Heap (LLNode ℕ)) (ll : LlData)
    (compare : ℕ → Except Fault Bool) :
    Except Fault (Heap (LLNode ℕ) × LlData × Option (Option ℕ)) := do
  match ← llIndexOf nodes ll compare (llSize ll).toNat 0 with
  | some idx => llRemove nodes ll idx
  | none => return (nodes, ll, none)

/-- `free`, or `free_user_f`, which frees the address of a user with it. -/
def freePointer {α : Type} (h : Heap α) : Option ℕ → Except Fault (Heap α)
  | none => .ok h
  | some e => h.free e

/-- What a list gives to the free function. -/
def freeAll {α : Type} : Heap α → List (Option ℕ) → Except Fault (Heap α)
  | h, [] => .ok h
  | h, e :: elements => do
      let h ← freePointer h e
      freeAll h elements

/-- The objects behind the pointers of an array. -/
def readEach {α : Type} (h : Heap α) : List (Option ℕ) → Except Fault (List α)
  | [] => .ok []
  | e :: elements => do
      let a ← h.read (← deref e)
      let rest ← readEach h elements
      return a :: rest

/-! ## Users -/

def userCompare (m : Memory) (e₁ e₂ : ℕ) : Except Fault Bool := do
  let u₁ ← m.users.read e₁
  let u₂ ← m.users.read e₂
  return decide (u₁.username = u₂.username ∧ u₁.ipPort = u₂.ipPort)

/-- Takes a user out of the list of users and frees it. -/
def removeFromList (m : Memory) (user : ℕ) : Except Fault Memory := do
  let (nodes, ll, removed) ← llIdempotentRemove m.nodes m.userList fun e => m.userCompare e user
  match removed with
  | some e => do
      let users ← freePointer m.users e
      return { m with users := users, nodes := nodes, userList := ll }
  | none => return { m with nodes := nodes, userList := ll }

def idempotentRemoveUser (m : Memory) (username : Option Uname) (ipPort : Option IpPort) :
    Except Fault Memory :=
  match username, ipPort with
  | some name, _ => do
      let (entries, table, found) ← hmRemove m.entries m.userByUsername name.bytes
      let m := { m with entries := entries, userByUsername := table }
      match found with
      | some p => do
          let user ← m.users.read p
          let (entries, table, _) ← hmRemove m.entries m.userByIp user.ipPort.bytes
          removeFromList { m with entries := entries, userByIp := table } p
      | none => return m
  | none, some key => do
      let (entries, table, found) ← hmRemove m.entries m.userByIp key.bytes
      let m := { m with entries := entries, userByIp := table }
      match found with
      | some p => do
          let user ← m.users.read p
          let (entries, table, _) ← hmRemove m.entries m.userByUsername user.username.bytes
          removeFromList { m with entries := entries, userByUsername := table } p
      | none => return m
  | none, none => .ok m

def idempotentAddUser (m : Memory) (mem : Malloc) (now : ℕ) (username : Uname)
    (ipPort : IpPort) (cliaddr : SockAddr) : Except Fault Memory := do
  let m ← m.idempotentRemoveUser (some username) none
  let m ← m.idempotentRemoveUser none (some ipPort)
  let user := m.users.next
  let m := { m with users := m.users.alloc ⟨username, ipPort, cliaddr, UInt32.ofNat now⟩ }
  let (nodes, ll) ← llIdempotentAdd mem.blocks m.nodes m.userList
    (fun e => m.userCompare e user) user
  let (entries, byIp, _) ← hmPutUnique mem.grants m.entries m.userByIp ipPort.bytes user
  let (entries, byUsername, _) ← hmPutUnique mem.grants entries m.userByUsername
    username.bytes user
  return { m with
    nodes := nodes
    userList := ll
    entries := entries
    userByIp := byIp
    userByUsername := byUsername }

def listUsers (m : Memory) (mem : Malloc) (count : ℤ) :
    Except Fault (Option (List (Option ℕ)) × ℤ) :=
  llToArray mem.room m.nodes m.userList count

def getUser (m : Memory) (username : Option Uname) (ipPort : Option IpPort) :
    Except Fault (Option ℕ) :=
  match username, ipPort with
  | some name, _ => hmGet m.entries m.userByUsername name.bytes
  | none, some key => hmGet m.entries m.userByIp key.bytes
  | none, none => .ok none

def updateLastSeen (m : Memory) (now : ℕ) (username : Option Uname)
    (cliaddr : Option SockAddr) : Except Fault Memory := do
  match ← m.getUser username (cliaddr.map clientKey) with
  | none => return m
  | some p => do
      let users ← m.users.modify p fun user => { user with lastSeen := UInt32.ofNat now }
      return { m with users := users }

/-! ## Channels -/

/-- `char_compare` of a copied name with another. -/
def charCompare (m : Memory) (username : Uname) (e : ℕ) : Except Fault Bool := do
  let name ← m.names.read e
  return decide (name = username)

def idempotentRemoveChannel (m : Memory) (channelName : Cname) : Except Fault Memory := do
  let (entries, table, found) ← hmRemove m.entries m.channelUserLists channelName.bytes
  let m := { m with entries := entries, channelUserLists := table }
  match found with
  | none => return m
  | some p => do
      let channel ← m.channels.read p
      let (nodes, elements) ← llDestroy m.nodes channel.userList
      let names ← freeAll m.names elements
      let channels ← m.channels.free p
      return { m with nodes := nodes, names := names, channels := channels }

def idempotentAddChannel (m : Memory) (mem : Malloc) (channelName : Cname) :
    Except Fault Memory := do
  if ← hmContainsKey m.entries m.channelUserLists channelName.bytes then
    return m
  let (nodes, ll) ← deref (linkedListCreate mem.blocks m.nodes)
  let channel := m.channels.next
  let (entries, table, _) ← hmPutUnique mem.grants m.entries m.channelUserLists
    channelName.bytes channel
  return { m with
    nodes := nodes
    channels := m.channels.alloc ⟨channelName, ll⟩
    entries := entries
    channelUserLists := table }

/-- The pointer and the record of a channel. -/
def getChannel (m : Memory) (channelName : Cname) :
    Except Fault (Option (ℕ × ChannelRecord)) := do
  match ← hmGet m.entries m.channelUserLists channelName.bytes with
  | none => return none
  | some p => do
      let channel ← m.channels.read p
      return some (p, channel)

/-- The list of a channel after a call on it. -/
def setUserList (m : Memory) (channel : ℕ) (nodes : Heap (LLNode ℕ)) (ll : LlData) :
    Except Fault Memory := do
  let channels ← m.channels.modify channel fun channel => { channel with userList := ll }
  return { m with nodes := nodes, channels := channels }

def idempotentChannelAddUser (m : Memory) (mem : Malloc) (channelName : Cname)
    (username : Uname) : Except Fault Memory := do
  let m ← m.idempotentAddChannel mem channelName
  let (p, channel) ← deref (← m.getChannel channelName)
  let usernameDup := m.names.next
  let m := { m with names := m.names.alloc username }
  let (nodes, ll) ← llIdempotentAdd mem.blocks m.nodes channel.userList
    (m.charCompare username) usernameDup
  m.setUserList p nodes ll

def idempotentChannelRemoveUser (m : Memory) (channelName : Cname) (username : Uname) :
    Except Fault Memory := do
  match ← m.getChannel channelName with
  | none => return m
  | some (p, channel) => do
      let (nodes, ll, removed) ← llIdempotentRemove m.nodes channel.userList
        (m.charCompare username)
      let m ← m.setUserList p nodes ll
      match removed with
      | some e => do
          let names ← freePointer m.names e
          return { m with names := names }
      | none => return m

/-- `get_channel_user_count`, with `none` for -1 -/
def getChannelUserCount (m : Memory) (channelName : Cname) : Except Fault (Option ℤ) := do
  match ← m.getChannel channelName with
  | none => return none
  | some (_, channel) => return some (llSize channel.userList)

def idempotentRemoveChannelIfEmpty (m : Memory) (channelName : Cname) :
    Except Fault Memory := do
  match ← m.getChannelUserCount channelName with
  | none => return m
  | some userCount =>
      if userCount = 0 then m.idempotentRemoveChannel channelName else return m

def channelContainsUser (m : Memory) (channel : ChannelRecord) (username : Uname) :
    Except Fault Bool := do
  let idx ← llIndexOf m.nodes channel.userList (m.charCompare username)
    (llSize channel.userList).toNat 0
  return idx.isSome

def channelGetUserList (m : Memory) (mem : Malloc) (channel : ChannelRecord) (len : ℤ) :
    Except Fault (Option (List (Option ℕ)) × ℤ) :=
  llToArray mem.room m.nodes channel.userList len

/-- The keys are copied into the fields of a reply, each up to its NUL. -/
def getChannelList (m : Memory) (mem : Malloc) (count : ℤ) :
    Except Fault (Option (List Cname) × ℤ) := do
  let (keys, count) ← hmKeyArray mem.room m.entries m.channelUserLists count
  return (keys.map fun keys => keys.map (CString.ofBuffer channelMax channelMax_pos), count)

/-- What `free_channel_f` does for the channels of a table. -/
def freeChannels : Memory → List ℕ → Except Fault Memory
  | m, [] => .ok m
  | m, p :: channels => do
      let channel ← m.channels.read p
      let (nodes, elements) ← llDestroy m.nodes channel.userList
      let names ← freeAll m.names elements
      let freed ← m.channels.free p
      freeChannels { m with nodes := nodes, names := names, channels := freed } channels

def freeState (m : Memory) : Except Fault Memory := do
  let (nodes, elements) ← llDestroy m.nodes m.userList
  let users ← freeAll m.users elements
  let (entries, _) ← hmDestroy m.entries m.userByIp
  let (entries, _) ← hmDestroy entries m.userByUsername
  let (entries, channels) ← hmDestroy entries m.channelUserLists
  freeChannels { m with nodes := nodes, users := users, entries := entries } channels

end Memory

end CliMessaging.Standalone
