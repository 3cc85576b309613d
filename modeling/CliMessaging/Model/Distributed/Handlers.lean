import CliMessaging.Model.Distributed.State

/-! # Request handlers of a distributed server

A handler returns the state it leaves and the datagrams it sends, in order, unless it
follows a bad pointer. Every such fault of the source precedes the first send. -/

namespace CliMessaging.Distributed

/-- The server-to-server messages. -/
inductive S2sMsg where
  | join (channel : Cname)
  | leave (channel : Cname)
  | say (uid : MsgUid) (username : Uname) (channel : Cname) (text : SayText)
  deriving DecidableEq

inductive Request where
  | client (req : ClientRequest)
  | s2s (msg : S2sMsg)
  deriving DecidableEq

inductive Msg where
  | text (text : Text)
  | s2s (msg : S2sMsg)
  deriving DecidableEq

structure Datagram where
  dst : Addressable
  msg : Msg
  deriving DecidableEq

/-- What a handler reads from outside: the clock and the next random uid. -/
structure Env where
  now : ℕ
  uid : MsgUid

abbrev Result := Except Fault (State × List Datagram)

/-! ## Sending -/

def sendMessage (targets : List Addressable) (msg : Msg) : List Datagram :=
  targets.map fun target => ⟨target, msg⟩

def broadcastSay (targets : List Addressable) (channelName : Cname) (userName : Uname)
    (msg : SayText) : List Datagram :=
  sendMessage targets (.text (.say channelName userName msg))

def broadcastChannelList (targets : List Addressable) (channels : List Cname) : List Datagram :=
  sendMessage targets (.text (.list channels))

def broadcastWho (targets : List Addressable) (cname : Cname) (names : List Uname) :
    List Datagram :=
  sendMessage targets (.text (.who cname names))

def broadcastS2sJoin (targets : List Addressable) (chanName : Cname) : List Datagram :=
  sendMessage targets (.s2s (.join chanName))

def broadcastS2sLeave (targets : List Addressable) (chanName : Cname) : List Datagram :=
  sendMessage targets (.s2s (.leave chanName))

def broadcastS2sSay (targets : List Addressable) (uid : MsgUid) (uname : Uname)
    (cname : Cname) (msg : SayText) : List Datagram :=
  sendMessage targets (.s2s (.say uid uname cname msg))

/-! ## Pruning -/

/-- `remove_channel(c); delete c;` -/
def deleteChannel (st : State) (p : ℕ) : Except Fault State := do
  let cset ← st.cset.removeChannel st.chans p
  let chans ← st.chans.free p
  return { st with cset, chans }

def deleteChannels (st : State) : List ℕ → Except Fault State
  | [] => .ok st
  | p :: ps => do
      let st ← deleteChannel st p
      deleteChannels st ps

/-- The three loops: collect the prunable channels, send their leaves, delete them. -/
def channelPruningProcedure (st : State) (channels : Option (List ℕ)) : Result := do
  let channels ← deref channels
  let objects ← st.chans.readAll channels
  let toPrune := objects.filter fun c => c.2.shouldPrune
  let sent := toPrune.flatMap fun c => broadcastS2sLeave c.2.serverList c.2.name
  let st ← deleteChannels st (toPrune.map Prod.fst)
  return (st, sent)

/-! ## Client requests -/

def handleLogin (st : State) (env : Env) (cur : Addressable) (username : Uname) : Result :=
  .ok (st.cliLogin env.now username cur, [])

def handleLogout (st : State) (cur : Addressable) : Result := do
  let st ← st.cliLogout cur
  channelPruningProcedure st st.s2sGetChannels

/-- The join is broadcast whether or not the client is logged in. -/
def handleJoin (st : State) (env : Env) (cur : Addressable) (channel : Cname) : Result := do
  let st ← st.cliJoin env.now cur channel
  return (st, broadcastS2sJoin st.s2sGetServers channel)

def handleLeave (st : State) (env : Env) (cur : Addressable) (channel : Cname) : Result := do
  let st ← st.cliLeave env.now cur channel
  let (st, channels) := st.cliGetChannels env.now cur
  channelPruningProcedure st channels

def handleSay (st : State) (env : Env) (cur : Addressable) (channel : Cname)
    (text : SayText) : Result := do
  let username ← st.getUsername cur
  let (st, targets) ← st.cliGetChannelUsers env.now cur channel
  let targets ← deref targets
  let said := broadcastSay (targets.map User.addr) channel username text
  let stargets ← deref (← st.s2sChannelGetServers channel)
  return (st, said ++ broadcastS2sSay stargets env.uid username channel text)

def handleList (st : State) (env : Env) (cur : Addressable) : Result := do
  let (st, channels) := st.cliGetChannels env.now cur
  let channels ← deref channels
  let objects ← st.chans.readAll channels
  return (st, broadcastChannelList [cur] (objects.map fun c => c.2.name))

def handleWho (st : State) (env : Env) (cur : Addressable) (channel : Cname) : Result := do
  let (st, users) ← st.cliGetChannelUsers env.now cur channel
  let users ← deref users
  return (st, broadcastWho [cur] channel (users.map User.name))

def handleKeepAlive (st : State) (env : Env) (cur : Addressable) : Result :=
  .ok (st.cliKeepAlive env.now cur, [])

/-! ## Server-to-server messages -/

def handleS2sJoin (st : State) (env : Env) (cur : Addressable) (channel : Cname) : Result := do
  let (st, isTerminal) ← st.s2sJoin env.now cur channel
  return (st, if isTerminal then [] else broadcastS2sJoin st.s2sGetServers channel)

/-- The part of `handle_s2s_say` behind the duplicate check: forward the message to the
servers of the channel other than its sender, deliver it to the users, prune. -/
def forwardAndDeliver (st : State) (cur : Addressable) (uid : MsgUid) (username : Uname)
    (channel : Cname) (text : SayText) : Result := do
  let servers ← deref (← st.s2sChannelGetServers channel)
  let tvec := servers.filter fun s => !Addressable.compareAddrs cur s
  let users ← deref (← st.s2sChannelGetUsers channel)
  let (st', left) ← channelPruningProcedure st st.s2sGetChannels
  return (st', broadcastS2sSay tvec uid username channel text ++
    broadcastSay (users.map User.addr) channel username text ++ left)

def handleS2sSay (st : State) (cur : Addressable) (uid : MsgUid) (username : Uname)
    (channel : Cname) (text : SayText) : Result := do
  if ← st.channelAlreadyGotMessage channel uid then
    return (st, broadcastS2sLeave [cur] channel)
  forwardAndDeliver st cur uid username channel text

def handleS2sLeave (st : State) (cur : Addressable) (channel : Cname) : Result := do
  let st ← st.s2sLeave cur channel
  return (st, [])

/-- The switch of `handler` for a datagram of the right size. -/
def handler (st : State) (env : Env) (cur : Addressable) : Request → Result
  | .client (.login username) => handleLogin st env cur username
  | .client .logout => handleLogout st cur
  | .client (.join channel) => handleJoin st env cur channel
  | .client (.leave channel) => handleLeave st env cur channel
  | .client (.say channel text) => handleSay st env cur channel text
  | .client .list => handleList st env cur
  | .client (.who channel) => handleWho st env cur channel
  | .client .keepAlive => handleKeepAlive st env cur
  | .s2s (.join channel) => handleS2sJoin st env cur channel
  | .s2s (.leave channel) => handleS2sLeave st cur channel
  | .s2s (.say uid username channel text) => handleS2sSay st cur uid username channel text

end CliMessaging.Distributed
