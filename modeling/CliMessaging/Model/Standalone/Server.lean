import CliMessaging.Model.Standalone.Handlers
import CliMessaging.Model.Wire

/-! # The receive loop of the standalone server

`server_loop` and `test_valid` of `server.c`, which decide what the bytes of a datagram
ask for. -/

namespace CliMessaging.Standalone

/-- `BUF_SIZE` -/
def bufSize : ℕ := 4 + channelMax + sayMax

def testValid (buffer : List UInt8) (nbytes : ℕ) : Bool :=
  let targetSize := match RequestType.ofCode (decodeInt buffer) with
    | none => 0
    | some t => t.size
  decide (nbytes = targetSize)

/-- The request that a handler reads from the buffer. -/
def readRequest (buffer : List UInt8) : Option ClientRequest :=
  (RequestType.ofCode (decodeInt buffer)).map fun
    | .login => .login (.ofBuffer usernameMax usernameMax_pos (buffer.drop 4))
    | .logout => .logout
    | .join => .join (.ofBuffer channelMax channelMax_pos (buffer.drop 4))
    | .leave => .leave (.ofBuffer channelMax channelMax_pos (buffer.drop 4))
    | .say => .say (.ofBuffer channelMax channelMax_pos (buffer.drop 4))
        (.ofBuffer sayMax sayMax_pos (buffer.drop (4 + channelMax)))
    | .list => .list
    | .who => .who (.ofBuffer channelMax channelMax_pos (buffer.drop 4))
    | .keepAlive => .keepAlive

def bubbleUpError (st : State) (errMsg : String) (client : SockAddr) : Result :=
  .ok (st, sendError errMsg client)

/-- One round of `server_loop`. -/
def serverLoop (st : State) (env : Env) (client : SockAddr) (data : List UInt8) : Result :=
  let (buffer, bytesReceived) := recvfrom bufSize data
  if testValid buffer bytesReceived then
    match readRequest buffer with
    | some req => handleRequest st env client req
    | none => .ok (st, [])
  else
    bubbleUpError st "actual packet size differs from size indicated by req_type" client

/-- `Accepts data req`: `test_valid` lets the datagram pass, and its handler reads `req`. -/
def Accepts (data : List UInt8) (req : ClientRequest) : Prop :=
  testValid (recvfrom bufSize data).1 (recvfrom bufSize data).2 = true ∧
    readRequest (recvfrom bufSize data).1 = some req

instance (data : List UInt8) (req : ClientRequest) : Decidable (Accepts data req) :=
  inferInstanceAs (Decidable (_ ∧ _))

theorem Accepts.serverLoop {data : List UInt8} {req : ClientRequest} (h : Accepts data req)
    (st : State) (env : Env) (client : SockAddr) :
    serverLoop st env client data = handleRequest st env client req := by
  obtain ⟨hvalid, hread⟩ := h
  simp only [Standalone.serverLoop, hvalid, hread, if_true]

/-! ## Turns of the server -/

/-- What makes one of the two loops go round. -/
inductive Event where
  | datagram (client : SockAddr) (data : List UInt8)
  | cleanup
  deriving DecidableEq

def State.serve (st : State) (env : Env) : Event → Result
  | .datagram client data => serverLoop st env client data
  | .cleanup => st.react env .scan

/-- What a round was given and what it sent. -/
structure Turn where
  env : Env
  event : Event
  sent : List Datagram

/-- A round that does not bring the server down. -/
def State.Serves (st : State) (t : Turn) (st' : State) : Prop :=
  st.serve t.env t.event = .ok (st', t.sent)

end CliMessaging.Standalone
