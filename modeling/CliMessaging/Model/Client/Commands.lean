import CliMessaging.Model.Address
import CliMessaging.Model.Client.Messages

/-! # The client

The main loop of `client.c`, its commands and the wake-ups of its keep-alive thread. What
is echoed to the terminal while a line is typed is left out. -/

namespace CliMessaging.Client

structure Datagram where
  dst : SockAddr
  data : List UInt8
  deriving DecidableEq

/-! ## The line that is typed -/

/-- `stdinbuf[256]`: the bytes before `stdinbuf_cur_idx`. The rest of the array is zero. -/
structure StdinBuf where
  typed : List UInt8
  length_lt : typed.length < 256
  deriving DecidableEq

namespace StdinBuf

def empty : StdinBuf := ⟨[], by decide⟩

def backspace (s : StdinBuf) : StdinBuf where
  typed := s.typed.dropLast
  length_lt := by
    have hlen := s.length_lt
    rw [List.length_dropLast]
    omega

/-- A byte beyond the room of the line is dropped. -/
def push (s : StdinBuf) (cur : UInt8) : StdinBuf :=
  if h : s.typed.length < 255 then
    { typed := s.typed ++ [cur]
      length_lt := by
        rw [List.length_append, List.length_singleton]
        omega }
  else s

/-- The whole array. -/
def array (s : StdinBuf) : List UInt8 := s.typed ++ zeros (256 - s.typed.length)

theorem length_array (s : StdinBuf) : s.array.length = 256 := by
  have hlen := s.length_lt
  rw [array, List.length_append, length_zeros]
  omega

/-- The string in the array. -/
def str (s : StdinBuf) : List UInt8 := s.typed.takeWhile (· ≠ 0)

/-- The bytes that `memcpy` takes from the start of the array. -/
def first (s : StdinBuf) (n : ℕ) (h : n ≤ 256) : Field n where
  bytes := s.array.take n
  length_eq := by rw [List.length_take, length_array, Nat.min_eq_left h]

end StdinBuf

/-! ## Commands -/

/-- The `CMD_` constants. -/
inductive Command where
  | say
  | list
  | who
  | join
  | leave
  | exit
  | switch
  deriving DecidableEq

def startswith (string start : List UInt8) : Bool := start.isPrefixOf string

/-- The bytes after the first space. -/
def getArg : List UInt8 → Option (List UInt8)
  | [] => none
  | b :: str => if b = 32 then some str else getArg str

/-- `check_if_is_command`, with `none` for -1 -/
def checkIfIsCommand (curLine : List UInt8) : Option Command :=
  if curLine.head? ≠ some 47 then some .say
  else if startswith curLine (ascii "/join") then some .join
  else if startswith curLine (ascii "/switch") then some .switch
  else if startswith curLine (ascii "/leave") then some .leave
  else if startswith curLine (ascii "/exit") then some .exit
  else if startswith curLine (ascii "/list") then some .list
  else if startswith curLine (ascii "/who") then some .who
  else none

end Client

open Client in
/-- What the threads of a client share and what its main loop keeps. -/
structure Client where
  serverInfo : SockAddr
  curChannel : Field channelMax
  stdinbuf : StdinBuf
  activityLastMinute : Bool
  deriving DecidableEq

namespace Client

/-- What a pass leaves of the client, if it goes on, with the datagrams that it sends and
what it prints. -/
structure Outcome where
  client : Option Client
  sent : List Datagram
  printed : List UInt8

/-- Sends a message to `server_info`, if `sendto` succeeds. -/
def sendMsg (c : Client) (sendOk : Bool) (req : List UInt8) : Client × List Datagram :=
  ({ c with activityLastMinute := sendOk }, if sendOk then [⟨c.serverInfo, req⟩] else [])

def handleCmdSay (c : Client) (sendOk : Bool) : Client × List Datagram :=
  c.sendMsg sendOk
    (requestSay c.curChannel.terminate (c.stdinbuf.first sayMax (by decide)).terminate)

def handleCmdSwitch (c : Client) (curLine : List UInt8) : Client :=
  match getArg curLine with
  | none => c
  | some channel => { c with curChannel := .ofText channelMax channel }

/-- The commands that send the argument of the line, or nothing when there is none. -/
def handleCmdArg (request : Field channelMax → List UInt8) (c : Client) (sendOk : Bool)
    (curLine : List UInt8) : Client × List Datagram :=
  match getArg curLine with
  | none => (c, [])
  | some channel => c.sendMsg sendOk (request (.ofText channelMax channel))

def handleCmdJoin : Client → Bool → List UInt8 → Client × List Datagram :=
  handleCmdArg requestJoin

def handleCmdLeave : Client → Bool → List UInt8 → Client × List Datagram :=
  handleCmdArg requestLeave

def handleCmdWho : Client → Bool → List UInt8 → Client × List Datagram :=
  handleCmdArg requestWho

def handleCmdList (c : Client) (sendOk : Bool) : Client × List Datagram :=
  c.sendMsg sendOk requestList

def handleCmdLogin (c : Client) (sendOk : Bool) (username : List UInt8) :
    Client × List Datagram :=
  c.sendMsg sendOk (requestLogin (.ofText usernameMax username))

def handleCmdLogout (c : Client) (sendOk : Bool) : Client × List Datagram :=
  c.sendMsg sendOk requestLogout

/-- The client after a command, unless the command is to exit. -/
def handleChat (c : Client) (sendOk : Bool) (curLine : List UInt8) :
    Option Client × List Datagram :=
  let goOn := fun (r : Client × List Datagram) => (some r.1, r.2)
  match checkIfIsCommand curLine with
  | some .say => goOn (c.handleCmdSay sendOk)
  | some .who => goOn (c.handleCmdWho sendOk curLine)
  | some .list => goOn (c.handleCmdList sendOk)
  | some .leave => goOn (c.handleCmdLeave sendOk curLine)
  | some .switch => (some (c.handleCmdSwitch curLine), [])
  | some .join => goOn (c.handleCmdJoin sendOk curLine)
  | some .exit => (none, (c.handleCmdLogout sendOk).2)
  | none => (some c, [])

/-! ## Passes -/

inductive Input where
  /-- A byte from the terminal. -/
  | key (cur : UInt8)
  /-- A datagram on the socket. -/
  | recv (src : SockAddr) (data : List UInt8)
  /-- The keep-alive thread wakes up. -/
  | tick
  deriving DecidableEq

/-- The line is cleared. -/
def clearLine (c : Client) : Client := { c with stdinbuf := .empty }

/-- The end of a line: the line is handled, if it is not empty, and cleared. -/
def endLine (c : Client) (sendOk : Bool) : Option Client × List Datagram :=
  if c.stdinbuf.str = [] then (some c.clearLine, [])
  else
    let (client, sent) := c.handleChat sendOk c.stdinbuf.str
    (client.map clearLine, sent)

/-- A new minute begins. -/
def clearActivity (c : Client) : Client := { c with activityLastMinute := false }

/-- A round of `keep_alive_loop`. -/
def keepAlive (c : Client) (sendOk : Bool) : Client × List Datagram :=
  if c.activityLastMinute then (c.clearActivity, [])
  else
    let (client, sent) := c.sendMsg sendOk requestKeepAlive
    (client.clearActivity, sent)

/-- One pass of the main loop or of the keep-alive thread. `recvfrom` writes the source of
the datagram into `server_info`. -/
def react (c : Client) (sendOk : Bool) : Input → Except Fault Outcome
  | .key cur =>
      if cur = 10 then
        let (client, sent) := c.endLine sendOk
        .ok ⟨client, sent, []⟩
      else if cur = 127 then
        .ok ⟨some { c with stdinbuf := c.stdinbuf.backspace }, [], []⟩
      else .ok ⟨some { c with stdinbuf := c.stdinbuf.push cur }, [], []⟩
  | .recv src data => do
      let printed ← readFromServer data
      return ⟨some { c with serverInfo := src }, [], printed⟩
  | .tick =>
      let (client, sent) := c.keepAlive sendOk
      .ok ⟨some client, sent, []⟩

/-- The client that `main` sets up for a server before it sends anything. -/
def setup (server : SockAddr) : Client where
  serverInfo := server
  curChannel := .ofString (.ofBuffer channelMax channelMax_pos (ascii "Common"))
  stdinbuf := .empty
  activityLastMinute := false

/-- What `main` sends before its loop: it logs in and joins a first channel. -/
def start (server : SockAddr) (username : List UInt8) (sendOk : ℕ → Bool) :
    Client × List Datagram :=
  let (c, login) := (setup server).handleCmdLogin (sendOk 0) username
  let (c, join) := c.handleCmdJoin (sendOk 1) (ascii "/join Common")
  (c, login ++ join)

/-- What a pass was given and what came of it. -/
structure Pass where
  input : Input
  sendOk : Bool
  sent : List Datagram
  printed : List UInt8

/-- A pass of a running client that does not bring it down. -/
def Step (s : Option Client) (p : Pass) (s' : Option Client) : Prop :=
  ∃ c, s = some c ∧ c.react p.sendOk p.input = .ok ⟨s', p.sent, p.printed⟩

end Client

end CliMessaging
