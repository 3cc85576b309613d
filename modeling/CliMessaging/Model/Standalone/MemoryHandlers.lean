import CliMessaging.Model.Standalone.Memory
import CliMessaging.Model.Standalone.Server

/-! # The handlers in memory

`server_helpers.h` on the state in memory, and the passes of the two loops. -/

namespace CliMessaging.Standalone.Memory

abbrev Result := Except Fault (Memory × List Datagram)

/-! ## Handlers -/

def handleLogin (m : Memory) (mem : Malloc) (env : Env) (client : SockAddr)
    (username : Uname) : Result := do
  let m ← m.idempotentAddUser mem env.now username (clientKey client) client
  return (m, [])

def handleLogout (m : Memory) (client : SockAddr) : Result := do
  let m ← m.idempotentRemoveUser none (some (clientKey client))
  return (m, [])

/-- The answer to a client that is not logged in. The users that are logged in are
printed. -/
def rejectStranger (m : Memory) (mem : Malloc) (env : Env) (client : SockAddr) : Result := do
  let (users, count) ← m.listUsers mem env.count
  let entries ← arrayEntries users count
  let _ ← readEach m.users entries
  return (m, sendError "User not currently logged in" client)

def handleRequestJoin (m : Memory) (mem : Malloc) (env : Env) (client : SockAddr)
    (channel : Cname) : Result := do
  match ← m.getUser none (some (clientKey client)) with
  | none => m.rejectStranger mem env client
  | some p => do
      let user ← m.users.read p
      let m ← m.updateLastSeen env.now (some user.username) none
      let m ← m.idempotentChannelAddUser mem channel user.username
      return (m, [])

def handleRequestLeave (m : Memory) (mem : Malloc) (env : Env) (client : SockAddr)
    (channel : Cname) : Result := do
  match ← m.getUser none (some (clientKey client)) with
  | none => m.rejectStranger mem env client
  | some p => do
      let user ← m.users.read p
      let m ← m.updateLastSeen env.now (some user.username) none
      let m ← m.idempotentChannelRemoveUser channel user.username
      let m ← m.idempotentRemoveChannelIfEmpty channel
      return (m, [])

/-- The messages to the users among the names that are logged in. -/
def sendToUsers (m : Memory) (text : SayText) (channel : Cname) (username : Uname) :
    List (Option ℕ) → Except Fault (List Datagram)
  | [] => .ok []
  | e :: userArr => do
      let name ← m.names.read (← deref e)
      match ← m.getUser (some name) none with
      | none => sendToUsers m text channel username userArr
      | some p => do
          let curUsr ← m.users.read p
          let rest ← sendToUsers m text channel username userArr
          return sendMessage text channel username curUsr.cliaddr :: rest

def handleRequestSay (m : Memory) (mem : Malloc) (env : Env) (client : SockAddr)
    (channelName : Cname) (text : SayText) : Result := do
  match ← m.getUser none (some (clientKey client)) with
  | none => return (m, sendError "User not currently logged in" client)
  | some p => do
      let user ← m.users.read p
      let m ← m.updateLastSeen env.now (some user.username) none
      match ← m.getChannel channelName with
      | none => return (m, sendError "Channel does not exist" client)
      | some (_, channel) => do
          if !(← m.channelContainsUser channel user.username) then
            return (m, sendError "User is not part of channel" client)
          match ← m.channelGetUserList mem channel (-1) with
          | (none, _) => return (m, sendError "Error sending message" client)
          | (some userArr, entries) => do
              let names ← arrayEntries (some userArr) entries
              let sent ← m.sendToUsers text channelName user.username names
              return (m, sent)

def handleRequestList (m : Memory) (mem : Malloc) (env : Env) (client : SockAddr) : Result := do
  let m ← m.updateLastSeen env.now none (some client)
  match ← m.getChannelList mem 0 with
  | (none, _) => return (m, sendError "Error getting channels" client)
  | (some channels, count) => do
      let names ← arrayEntries (some channels) count
      return (m, sendChannelList names client)

def handleRequestWho (m : Memory) (mem : Malloc) (env : Env) (client : SockAddr)
    (channelName : Cname) : Result := do
  let m ← m.updateLastSeen env.now none (some client)
  match ← m.getChannel channelName with
  | none => return (m, sendError "Channel does not exist" client)
  | some (_, channel) => do
      match ← m.channelGetUserList mem channel 0 with
      | (none, _) =>
          return (m, sendError "Internal server error while getting users in channel" client)
      | (some users, size) => do
          let names ← arrayEntries (some users) size
          let names ← readEach m.names names
          return (m, sendUserList names channel.channelName client)

def handleRequestKeepAlive (m : Memory) (env : Env) (client : SockAddr) : Result := do
  let m ← m.updateLastSeen env.now none (some client)
  return (m, [])

/-- The switch of `handle_request` for a datagram that `test_valid` accepts. -/
def handleRequest (m : Memory) (mem : Malloc) (env : Env) (client : SockAddr) :
    ClientRequest → Result
  | .login username => m.handleLogin mem env client username
  | .logout => m.handleLogout client
  | .join channel => m.handleRequestJoin mem env client channel
  | .leave channel => m.handleRequestLeave mem env client channel
  | .say channel text => m.handleRequestSay mem env client channel text
  | .list => m.handleRequestList mem env client
  | .who channel => m.handleRequestWho mem env client channel
  | .keepAlive => m.handleRequestKeepAlive env client

/-! ## The cleanup loop -/

/-- The loop over the snapshot of the users, from its entry `i`. -/
def removeInactive (clock : ℕ → ℕ) (i : ℕ) : List (Option ℕ) → Memory → Except Fault Memory
  | [], m => .ok m
  | e :: users, m => do
      let curUser ← m.users.read (← deref e)
      let m ← if isInactive (clock i) curUser then
          m.idempotentRemoveUser (some curUser.username) none
        else pure m
      removeInactive clock (i + 1) users m

def scanAndRemoveInactiveUsers (m : Memory) (mem : Malloc) (env : Env) : Except Fault Memory := do
  let (users, count) ← m.listUsers mem env.count
  let entries ← arrayEntries users count
  removeInactive env.clock 0 entries m

/-! ## Passes of the server -/

def react (m : Memory) (mem : Malloc) (env : Env) : Input → Result
  | .recv client req => m.handleRequest mem env client req
  | .scan => do
      let m ← m.scanAndRemoveInactiveUsers mem env
      return (m, [])

/-- A pass with what `malloc` finds for it. -/
structure StoredPass where
  mem : Malloc
  pass : Pass

def Step (m : Memory) (p : StoredPass) (m' : Memory) : Prop :=
  m.react p.mem p.pass.env p.pass.input = .ok (m', p.pass.sent)

/-! ## Rounds of the server -/

def bubbleUpError (m : Memory) (errMsg : String) (client : SockAddr) : Result :=
  .ok (m, sendError errMsg client)

/-- One round of `server_loop`. -/
def serverLoop (m : Memory) (mem : Malloc) (env : Env) (client : SockAddr) (data : List UInt8) :
    Result :=
  let (buffer, bytesReceived) := recvfrom bufSize data
  if testValid buffer bytesReceived then
    match readRequest buffer with
    | some req => m.handleRequest mem env client req
    | none => .ok (m, [])
  else
    m.bubbleUpError "actual packet size differs from size indicated by req_type" client

def serve (m : Memory) (mem : Malloc) (env : Env) : Event → Result
  | .datagram client data => m.serverLoop mem env client data
  | .cleanup => m.react mem env .scan

/-- A round with what `malloc` finds for it. -/
structure StoredTurn where
  mem : Malloc
  turn : Turn

/-- A round that does not bring the server down. -/
def Serves (m : Memory) (t : StoredTurn) (m' : Memory) : Prop :=
  m.serve t.mem t.turn.env t.turn.event = .ok (m', t.turn.sent)

end CliMessaging.Standalone.Memory
