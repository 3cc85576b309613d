import CliMessaging.Library.Heap
import CliMessaging.Library.Index
import CliMessaging.Model.Address
import CliMessaging.Model.Proto

/-! # State of a distributed server

The sets of `state.h` and their operations. `User` objects are never deleted while
the server runs and only their `last_seen` changes, so a user is its pointer with its
fixed fields, and the times are kept apart. `Channel` objects are changed in place
and deleted, so they live on a heap. -/

namespace CliMessaging.Distributed

/-- Two endpoints compare equal when their address texts and their ports do;
`inet_ntoa` gives distinct addresses distinct texts. -/
abbrev Addressable := SockAddr

abbrev Server := Addressable

abbrev MsgUid := UInt64

def Addressable.compareAddrs (x y : Addressable) : Bool := decide (x = y)

structure User where
  ptr : ℕ
  name : Uname
  addr : Addressable
  deriving DecidableEq

def User.compareNames (u v : User) : Bool := decide (u.name = v.name)

/-! ## `UserSet` -/

structure UserSet where
  userList : List User
  userNameMap : AList fun _ : Uname => User
  userIpMap : AList fun _ : Addressable => User

namespace UserSet

def empty : UserSet := ⟨[], ∅, ∅⟩

def removeUser (s : UserSet) (user : User) : UserSet where
  userNameMap := s.userNameMap.erase user.name
  userIpMap := s.userIpMap.erase user.addr
  userList := s.userList.eraseP fun u =>
    u.compareNames user && Addressable.compareAddrs u.addr user.addr

def getUserByName (s : UserSet) (name : Uname) : Option User := s.userNameMap.lookup name

def getUserByIp (s : UserSet) (a : Addressable) : Option User := s.userIpMap.lookup a

def removeUserByName (s : UserSet) (name : Uname) : UserSet :=
  match s.getUserByName name with
  | none => s
  | some user => s.removeUser user

def removeUserByIp (s : UserSet) (a : Addressable) : UserSet :=
  match s.getUserByIp a with
  | none => s
  | some user => s.removeUser user

def addUser (s : UserSet) (user : User) : UserSet :=
  let s := (s.removeUserByName user.name).removeUserByIp user.addr
  { userList := s.userList ++ [user]
    userIpMap := insertNew s.userIpMap user.addr user
    userNameMap := insertNew s.userNameMap user.name user }

def size (s : UserSet) : ℕ := s.userList.length

end UserSet

/-! ## `ServerSet` -/

structure ServerSet where
  serverList : List Server
  serverMap : AList fun _ : Addressable => Server

namespace ServerSet

def empty : ServerSet := ⟨[], ∅⟩

def removeServer (s : ServerSet) (server : Server) : ServerSet where
  serverMap := s.serverMap.erase server
  serverList := s.serverList.eraseP fun t => Addressable.compareAddrs t server

/-- `get_server(ip, port)` -/
def getServer (s : ServerSet) (a : Addressable) : Option Server := s.serverMap.lookup a

/-- `get_server(addr, len)`, which searches the list instead of the map -/
def getServerByAddr (s : ServerSet) (a : Addressable) : Option Server :=
  s.serverList.find? fun t => Addressable.compareAddrs a t

def removeServerByIp (s : ServerSet) (a : Addressable) : ServerSet :=
  match s.getServer a with
  | none => s
  | some server => s.removeServer server

def removeServerByAddr (s : ServerSet) (a : Addressable) : ServerSet :=
  match s.getServerByAddr a with
  | none => s
  | some server => s.removeServer server

def addServer (s : ServerSet) (server : Server) : ServerSet :=
  let s := (s.removeServerByAddr server).removeServerByIp server
  { serverList := s.serverList ++ [server]
    serverMap := insertNew s.serverMap server server }

def size (s : ServerSet) : ℕ := s.serverList.length

end ServerSet

/-! ## `Channel` -/

structure Channel where
  name : Cname
  uset : UserSet
  sset : ServerSet
  uidSet : Finset MsgUid
  lastSeen : AList fun _ : Addressable => UInt32

namespace Channel

def new (name : Cname) : Channel := ⟨name, .empty, .empty, ∅, ∅⟩

def userList (c : Channel) : List User := c.uset.userList

def serverList (c : Channel) : List Server := c.sset.serverList

def addUser (c : Channel) (user : User) : Channel :=
  { c with uset := ((c.uset.removeUserByName user.name).removeUserByIp user.addr).addUser user }

def removeUser (c : Channel) (user : User) : Channel :=
  { c with uset := c.uset.removeUser user }

def containsUser (c : Channel) (user : User) : Bool := (c.uset.getUserByName user.name).isSome

def removeServer (c : Channel) (server : Server) : Channel :=
  { c with
    sset := c.sset.removeServerByIp server
    lastSeen := c.lastSeen.erase server }

def addServer (c : Channel) (now : ℕ) (server : Server) : Channel :=
  let c := c.removeServer server
  { c with
    sset := c.sset.addServer server
    lastSeen := insertNew c.lastSeen server (UInt32.ofNat now) }

def containsServer (c : Channel) (server : Server) : Bool := (c.sset.getServer server).isSome

def serverHeartbeat (c : Channel) (now : ℕ) (server : Server) : Channel :=
  if c.containsServer server then
    { c with lastSeen := c.lastSeen.insert server (UInt32.ofNat now) }
  else c

/-- `last_seen.at` throws for a server without an entry, and the subtraction is unsigned. -/
def deadServers (lastSeen : AList fun _ : Addressable => UInt32) (curtime timeout : UInt32) :
    List Server → Except Fault (List Server)
  | [] => .ok []
  | s :: servers => do
      let prevTime ← (lastSeen.lookup s).elim (.error .outOfRange) .ok
      let rest ← deadServers lastSeen curtime timeout servers
      return if timeout < curtime - prevTime then s :: rest else rest

def getDeadServers (c : Channel) (curtime timeout : UInt32) : Except Fault (List Server) :=
  deadServers c.lastSeen curtime timeout c.serverList

def containsId (c : Channel) (uid : MsgUid) : Bool := decide (uid ∈ c.uidSet)

def shouldPrune (c : Channel) : Bool := decide (c.uset.size = 0 ∧ c.sset.size ≤ 1)

end Channel

/-! ## `ChannelSet` -/

/-- The list and the map hold pointers to the channels on the heap. -/
structure ChannelSet where
  channelList : List ℕ
  channelMap : AList fun _ : Cname => ℕ

namespace ChannelSet

def empty : ChannelSet := ⟨[], ∅⟩

def containsChannel (s : ChannelSet) (name : Cname) : Bool := (s.channelMap.lookup name).isSome

def getChannel (s : ChannelSet) (name : Cname) : Option ℕ := s.channelMap.lookup name

def addChannel (s : ChannelSet) (p : ℕ) (name : Cname) : ChannelSet :=
  if s.containsChannel name then s
  else
    { channelList := s.channelList ++ [p]
      channelMap := insertNew s.channelMap name p }

/-- The loop of `remove_channel` over the vector: drop the first channel of that name. -/
def eraseNamed (heap : Heap Channel) (name : Cname) : List ℕ → Except Fault (List ℕ)
  | [] => .ok []
  | p :: ps => do
      let c ← heap.read p
      if c.name = name then return ps
      let rest ← eraseNamed heap name ps
      return p :: rest

/-- `remove_channel(Channel*)` -/
def removeChannel (s : ChannelSet) (heap : Heap Channel) (p : ℕ) :
    Except Fault ChannelSet := do
  let c ← heap.read p
  let channelList ← eraseNamed heap c.name s.channelList
  return { channelList, channelMap := s.channelMap.erase c.name }

end ChannelSet

/-! ## `State` -/

structure State where
  uset : UserSet
  cset : ChannelSet
  sset : ServerSet
  chans : Heap Channel
  /-- `last_seen` of each `User` object -/
  lastSeen : ℕ → UInt32
  nextUser : ℕ

namespace State

/-- The state after `main` has added the adjacent servers of the command line. -/
def initial (adj : List Server) : State where
  uset := .empty
  cset := .empty
  sset := adj.foldl ServerSet.addServer .empty
  chans := .empty
  lastSeen := fun _ => 0
  nextUser := 0

def updateLastSeen (st : State) (now : ℕ) (user : User) : State :=
  { st with lastSeen := Function.update st.lastSeen user.ptr (UInt32.ofNat now) }

def modifyChannel (st : State) (p : ℕ) (f : Channel → Channel) : Except Fault State := do
  let chans ← st.chans.modify p f
  return { st with chans }

/-- `cset.add_channel(c)` for a channel `c` that has just been allocated. -/
def addChannel (st : State) (c : Channel) : State :=
  { st with
    chans := st.chans.alloc c
    cset := st.cset.addChannel st.chans.next c.name }

/-- The channel found under a name, read through its pointer. -/
def channel? (st : State) (name : Cname) : Except Fault (Option Channel) :=
  match st.cset.getChannel name with
  | none => .ok none
  | some p => do
      let c ← st.chans.read p
      return some c

def getUsername (st : State) (cur : Addressable) : Except Fault Uname := do
  let user ← deref (st.uset.getUserByIp cur)
  return user.name

def cliLogin (st : State) (now : ℕ) (uname : Uname) (cur : Addressable) : State :=
  let newuser : User := ⟨st.nextUser, uname, cur⟩
  { st.updateLastSeen now newuser with
    uset := st.uset.addUser newuser
    nextUser := st.nextUser + 1 }

def removeUser (st : State) (user : User) : Except Fault State := do
  let chans ← st.chans.modifyAll (·.removeUser user) st.cset.channelList
  return { st with chans, uset := st.uset.removeUser user }

def cliLogout (st : State) (cur : Addressable) : Except Fault State :=
  match st.uset.getUserByIp cur with
  | none => .ok st
  | some user => st.removeUser user

def cliJoin (st : State) (now : ℕ) (cur : Addressable) (chanName : Cname) :
    Except Fault State :=
  match st.uset.getUserByIp cur with
  | none => .ok st
  | some user =>
      let st := st.updateLastSeen now user
      match st.cset.getChannel chanName with
      | some p => st.modifyChannel p (·.addUser user)
      | none => .ok (st.addChannel ((Channel.new chanName).addUser user))

def cliLeave (st : State) (now : ℕ) (cur : Addressable) (chanName : Cname) :
    Except Fault State :=
  match st.uset.getUserByIp cur with
  | none => .ok st
  | some user =>
      let st := st.updateLastSeen now user
      match st.cset.getChannel chanName with
      | some p => st.modifyChannel p (·.removeUser user)
      | none => .ok st

/-- Null unless the client is logged in. -/
def cliGetChannels (st : State) (now : ℕ) (cur : Addressable) : State × Option (List ℕ) :=
  match st.uset.getUserByIp cur with
  | none => (st, none)
  | some user => (st.updateLastSeen now user, some st.cset.channelList)

/-- Null unless the client is logged in and the channel exists. -/
def cliGetChannelUsers (st : State) (now : ℕ) (cur : Addressable) (chanName : Cname) :
    Except Fault (State × Option (List User)) :=
  match st.uset.getUserByIp cur with
  | none => .ok (st, none)
  | some user => do
      let st := st.updateLastSeen now user
      let c ← st.channel? chanName
      return (st, c.map Channel.userList)

def cliKeepAlive (st : State) (now : ℕ) (cur : Addressable) : State :=
  match st.uset.getUserByIp cur with
  | none => st
  | some user => st.updateLastSeen now user

/-- The error branch reads the address of the server that was not found. The result
says whether the channel was found locally. -/
def s2sJoin (st : State) (now : ℕ) (cur : Addressable) (chanName : Cname) :
    Except Fault (State × Bool) := do
  let srvr ← deref (st.sset.getServerByAddr cur)
  match st.cset.getChannel chanName with
  | some p =>
      let st ← st.modifyChannel p fun chan =>
        if chan.containsServer srvr then chan.serverHeartbeat now srvr
        else (chan.addServer now srvr).serverHeartbeat now srvr
      return (st, true)
  | none => return (st.addChannel ((Channel.new chanName).addServer now srvr), false)

def s2sLeave (st : State) (cur : Addressable) (chanName : Cname) : Except Fault State := do
  let srvr ← deref (st.sset.getServerByAddr cur)
  match st.cset.getChannel chanName with
  | none => return st
  | some p => st.modifyChannel p (·.removeServer srvr)

def s2sChannelGetServers (st : State) (chanName : Cname) :
    Except Fault (Option (List Server)) := do
  let c ← st.channel? chanName
  return c.map Channel.serverList

def s2sGetServers (st : State) : List Server := st.sset.serverList

def s2sChannelGetUsers (st : State) (chanName : Cname) : Except Fault (Option (List User)) := do
  let c ← st.channel? chanName
  return c.map Channel.userList

def s2sGetChannels (st : State) : Option (List ℕ) := some st.cset.channelList

/-- A missing channel counts as one that has not seen the message. -/
def channelAlreadyGotMessage (st : State) (chanName : Cname) (uid : MsgUid) :
    Except Fault Bool := do
  let c ← st.channel? chanName
  return (c.map (·.containsId uid)).getD false

end State

end CliMessaging.Distributed
