import CliMessaging.Library.Transition
import CliMessaging.Model.Distributed.Handlers

/-! # One distributed server

The receive loop and the three timer loops take the lock in turn, so a server is a
machine that does one pass of one loop at a time. -/

namespace CliMessaging.Distributed

def joinTimeout : UInt32 := 120

def userTimeoutLimit : ℤ := 120

/-- The loop of `server_timeout_loop` over the channels of the list. -/
def removeDeadServers (now : ℕ) : List ℕ → State → Except Fault State
  | [], st => .ok st
  | p :: ps, st => do
      let c ← st.chans.read p
      let servers ← c.getDeadServers (UInt32.ofNat now) joinTimeout
      let st ← st.modifyChannel p fun c => servers.foldl Channel.removeServer c
      removeDeadServers now ps st

/-- A pass of `server_timeout_loop`, at one reading of the clock. -/
def serverTimeoutPass (st : State) (now : ℕ) : Except Fault State :=
  removeDeadServers now st.cset.channelList st

/-- A pass of `join_send_loop`. -/
def joinSendPass (st : State) : Result := do
  let objects ← st.chans.readAll st.cset.channelList
  return (st, objects.flatMap fun c => broadcastS2sJoin c.2.serverList c.2.name)

/-- `time(NULL) - last_seen` is computed in the signed type `time_t`. -/
def isIdle (st : State) (now : ℕ) (user : User) : Bool :=
  decide (userTimeoutLimit < (now : ℤ) - (st.lastSeen user.ptr).toNat)

/-- The loop of `user_timeout_loop` over a copy of the user list. -/
def removeIdleUsers (now : ℕ) : List User → State → Except Fault State
  | [], st => .ok st
  | u :: users, st => do
      let st ← if isIdle st now u then st.removeUser u else pure st
      removeIdleUsers now users st

/-- A pass of `user_timeout_loop`, at one reading of the clock. -/
def userTimeoutPass (st : State) (now : ℕ) : Except Fault State :=
  removeIdleUsers now st.uset.userList st

inductive Input where
  | recv (src : Addressable) (req : Request)
  | serverTimeout
  | joinSend
  | userTimeout
  deriving DecidableEq

def State.react (st : State) (env : Env) : Input → Result
  | .recv src req => handler st env src req
  | .serverTimeout => do
      let st ← serverTimeoutPass st env.now
      return (st, [])
  | .joinSend => joinSendPass st
  | .userTimeout => do
      let st ← userTimeoutPass st env.now
      return (st, [])

/-- What a server was given and what became of it: a fault brings the server down. -/
structure Reaction where
  before : State
  env : Env
  input : Input
  result : Result

namespace Reaction

/-- The datagrams that left the server. -/
def sent (r : Reaction) : List Datagram :=
  match r.result with
  | .ok (_, sent) => sent
  | .error _ => []

/-- The state of the server afterwards, unless it went down. -/
def after (r : Reaction) : Option State :=
  match r.result with
  | .ok (st, _) => some st
  | .error _ => none

end Reaction

/-- `r` is what a server in state `st` does with the input of `r`. -/
def State.Reacts (st : State) (r : Reaction) : Prop :=
  r.before = st ∧ r.result = st.react r.env r.input

/-- One pass of one loop of a running server. -/
def State.Step (st : State) (r : Reaction) (st' : State) : Prop :=
  st.Reacts r ∧ r.after = some st'

/-- The states of a server with the given adjacent servers after passes that all
satisfy `P`. -/
def State.Reaches (P : Reaction → Prop) (adj : List Server) (st : State) : Prop :=
  ∃ rs, Transition.Run State.Step (State.initial adj) rs st ∧ ∀ r ∈ rs, P r

def State.Reachable (adj : List Server) (st : State) : Prop :=
  State.Reaches (fun _ => True) adj st

end CliMessaging.Distributed
