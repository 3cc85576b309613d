import CliMessaging.Library.Transition
import CliMessaging.Model.Standalone.State

/-! # The standalone server

The request handlers of `server_helpers.h` and the messages of `send.h`. The receive loop
and the cleanup loop take the lock in turn, so the server does one pass of one loop at a
time. A handler returns the state it leaves and the datagrams it sends, in order, unless
it follows a bad pointer. -/

namespace CliMessaging.Standalone

structure Datagram where
  dst : SockAddr
  msg : Text
  deriving DecidableEq

/-- What a pass reads from outside: the clock, once for each entry of a scan, and the number
that happens to be in an uninitialised `long count`. -/
structure Env where
  clock : ℕ → ℕ
  count : ℤ

def Env.now (env : Env) : ℕ := env.clock 0

abbrev Result := Except Fault (State × List Datagram)

/-! ## Sending -/

/-- A text that is too long for the message is not sent. -/
def sendError (text : String) (cliaddr : SockAddr) : List Datagram :=
  if text.utf8ByteSize < sayMax then [⟨cliaddr, .error text⟩] else []

def sendMessage (text : SayText) (channel : Cname) (username : Uname) (cliaddr : SockAddr) :
    Datagram :=
  ⟨cliaddr, .say channel username text⟩

def sendChannelList (channels : List Cname) (cliaddr : SockAddr) : List Datagram :=
  [⟨cliaddr, .list channels⟩]

def sendUserList (users : List Uname) (channel : Cname) (cliaddr : SockAddr) : List Datagram :=
  [⟨cliaddr, .who channel users⟩]

/-! ## Handlers -/

def handleLogin (st : State) (env : Env) (client : SockAddr) (username : Uname) : Result := do
  let st ← st.idempotentAddUser env.now username (clientKey client) client
  return (st, [])

def handleLogout (st : State) (client : SockAddr) : Result := do
  let st ← st.idempotentRemoveUser none (some (clientKey client))
  return (st, [])

/-- The answer to a client that is not logged in. The users that are logged in are
printed. -/
def rejectStranger (st : State) (env : Env) (client : SockAddr) : Result := do
  let (users, count) := st.listUsers env.count
  let entries ← arrayEntries users count
  let _ ← st.users.readAll entries
  return (st, sendError "User not currently logged in" client)

def handleRequestJoin (st : State) (env : Env) (client : SockAddr) (channel : Cname) : Result :=
  match st.getUser none (some (clientKey client)) with
  | none => rejectStranger st env client
  | some p => do
      let user ← st.users.read p
      let st ← st.updateLastSeen env.now (some user.username) none
      let st ← st.idempotentChannelAddUser channel user.username
      return (st, [])

def handleRequestLeave (st : State) (env : Env) (client : SockAddr) (channel : Cname) : Result :=
  match st.getUser none (some (clientKey client)) with
  | none => rejectStranger st env client
  | some p => do
      let user ← st.users.read p
      let st ← st.updateLastSeen env.now (some user.username) none
      let st ← st.idempotentChannelRemoveUser channel user.username
      return (st.idempotentRemoveChannelIfEmpty channel, [])

/-- The messages to the users among `names` that are logged in. -/
def sendToUsers (st : State) (text : SayText) (channel : Cname) (username : Uname) :
    List Uname → Except Fault (List Datagram)
  | [] => .ok []
  | name :: names => do
      match st.getUser (some name) none with
      | none => sendToUsers st text channel username names
      | some p => do
          let curUsr ← st.users.read p
          let rest ← sendToUsers st text channel username names
          return sendMessage text channel username curUsr.cliaddr :: rest

def handleRequestSay (st : State) (env : Env) (client : SockAddr) (channelName : Cname)
    (text : SayText) : Result :=
  match st.getUser none (some (clientKey client)) with
  | none => .ok (st, sendError "User not currently logged in" client)
  | some p => do
      let user ← st.users.read p
      let st ← st.updateLastSeen env.now (some user.username) none
      match st.getChannel channelName with
      | none => return (st, sendError "Channel does not exist" client)
      | some channel => do
          if !(← channelContainsUser channel user.username) then
            return (st, sendError "User is not part of channel" client)
          match channelGetUserList channel (-1) with
          | (none, _) => return (st, sendError "Error sending message" client)
          | (some userArr, entries) => do
              let names ← arrayEntries (some userArr) entries
              let sent ← sendToUsers st text channelName user.username names
              return (st, sent)

def handleRequestList (st : State) (env : Env) (client : SockAddr) : Result := do
  let st ← st.updateLastSeen env.now none (some client)
  match st.getChannelList 0 with
  | (none, _) => return (st, sendError "Error getting channels" client)
  | (some channels, count) => do
      let names ← arrayEntries (some channels) count
      return (st, sendChannelList names client)

def handleRequestWho (st : State) (env : Env) (client : SockAddr) (channelName : Cname) :
    Result := do
  let st ← st.updateLastSeen env.now none (some client)
  match st.getChannel channelName with
  | none => return (st, sendError "Channel does not exist" client)
  | some channel =>
      match channelGetUserList channel 0 with
      | (none, _) =>
          return (st, sendError "Internal server error while getting users in channel" client)
      | (some users, size) => do
          let names ← arrayEntries (some users) size
          return (st, sendUserList names channel.channelName client)

def handleRequestKeepAlive (st : State) (env : Env) (client : SockAddr) : Result := do
  let st ← st.updateLastSeen env.now none (some client)
  return (st, [])

/-- The switch of `handle_request` for a datagram that `test_valid` accepts. -/
def handleRequest (st : State) (env : Env) (client : SockAddr) : ClientRequest → Result
  | .login username => handleLogin st env client username
  | .logout => handleLogout st client
  | .join channel => handleRequestJoin st env client channel
  | .leave channel => handleRequestLeave st env client channel
  | .say channel text => handleRequestSay st env client channel text
  | .list => handleRequestList st env client
  | .who channel => handleRequestWho st env client channel
  | .keepAlive => handleRequestKeepAlive st env client

/-! ## The cleanup loop -/

/-- `time(NULL) - last_seen > 120`, computed in the signed type `time_t`. -/
def isInactive (now : ℕ) (user : User) : Bool :=
  decide ((120 : ℤ) < (now : ℤ) - user.lastSeen.toNat)

/-- The loop over the snapshot of the users, from its entry `i`. -/
def removeInactive (clock : ℕ → ℕ) (i : ℕ) : List ℕ → State → Except Fault State
  | [], st => .ok st
  | p :: users, st => do
      let curUser ← st.users.read p
      let st ← if isInactive (clock i) curUser then
          st.idempotentRemoveUser (some curUser.username) none
        else pure st
      removeInactive clock (i + 1) users st

def scanAndRemoveInactiveUsers (st : State) (env : Env) : Except Fault State := do
  let (users, count) := st.listUsers env.count
  let entries ← arrayEntries users count
  removeInactive env.clock 0 entries st

/-! ## Passes of the server -/

inductive Input where
  | recv (client : SockAddr) (req : ClientRequest)
  | scan
  deriving DecidableEq

def State.react (st : State) (env : Env) : Input → Result
  | .recv client req => handleRequest st env client req
  | .scan => do
      let st ← scanAndRemoveInactiveUsers st env
      return (st, [])

/-- What a pass was given and what it sent. -/
structure Pass where
  env : Env
  input : Input
  sent : List Datagram

/-- A pass that does not bring the server down. -/
def State.Step (st : State) (p : Pass) (st' : State) : Prop :=
  st.react p.env p.input = .ok (st', p.sent)

def State.Reachable (st : State) : Prop :=
  ∃ ps, Transition.Run State.Step State.initial ps st

end CliMessaging.Standalone
