import CliMessaging.Model.Distributed.Handlers
import CliMessaging.Model.Wire

/-! # The receive loop of a distributed server

`server_loop` and the checks of `handler` in `server.cxx`, which decide what the bytes of a
datagram ask for. -/

namespace CliMessaging.Distributed

/-- The `REQ_` constants of a distributed server. -/
inductive PacketType where
  | client (t : RequestType)
  | s2sJoin
  | s2sLeave
  | s2sSay
  deriving DecidableEq

namespace PacketType

def code : PacketType → UInt32
  | client t => t.code
  | s2sJoin => 8
  | s2sLeave => 9
  | s2sSay => 10

/-- The constant that a word equals. -/
def ofCode (w : UInt32) : Option PacketType :=
  match RequestType.ofCode w with
  | some t => some (client t)
  | none => [s2sJoin, s2sLeave, s2sSay].find? (·.code = w)

/-- `sizeof` of the structure of a request. -/
def size : PacketType → ℕ
  | client t => t.size
  | s2sJoin => 4 + channelMax
  | s2sLeave => 4 + channelMax
  | s2sSay => 4 + 8 + usernameMax + channelMax + sayMax

end PacketType

/-- `BUF_SIZE` -/
def bufSize : ℕ := PacketType.s2sSay.size

/-- The request that a handler reads from the buffer. -/
def readRequest (buffer : List UInt8) : PacketType → Request
  | .client .login => .client (.login (.ofBuffer usernameMax usernameMax_pos (buffer.drop 4)))
  | .client .logout => .client .logout
  | .client .join => .client (.join (.ofBuffer channelMax channelMax_pos (buffer.drop 4)))
  | .client .leave => .client (.leave (.ofBuffer channelMax channelMax_pos (buffer.drop 4)))
  | .client .say => .client (.say (.ofBuffer channelMax channelMax_pos (buffer.drop 4))
      (.ofBuffer sayMax sayMax_pos (buffer.drop (4 + channelMax))))
  | .client .list => .client .list
  | .client .who => .client (.who (.ofBuffer channelMax channelMax_pos (buffer.drop 4)))
  | .client .keepAlive => .client .keepAlive
  | .s2sJoin => .s2s (.join (.ofBuffer channelMax channelMax_pos (buffer.drop 4)))
  | .s2sLeave => .s2s (.leave (.ofBuffer channelMax channelMax_pos (buffer.drop 4)))
  | .s2sSay => .s2s (.say (decodeLong (buffer.drop 4))
      (.ofBuffer usernameMax usernameMax_pos (buffer.drop (4 + 8)))
      (.ofBuffer channelMax channelMax_pos (buffer.drop (4 + 8 + usernameMax)))
      (.ofBuffer sayMax sayMax_pos (buffer.drop (4 + 8 + usernameMax + channelMax))))

/-- The checks of `handler`, and what the handler reads that it selects. -/
def checkRequest (buffer : List UInt8) (buflen : ℕ) : Option Request :=
  if buflen < 4 then none
  else match PacketType.ofCode (decodeInt buffer) with
    | none => none
    | some t => if t.size ≠ buflen then none else some (readRequest buffer t)

/-- One round of `server_loop`. -/
def serverLoop (st : State) (env : Env) (cur : Addressable) (data : List UInt8) : Result :=
  let (buffer, bytesRec) := recvfrom bufSize data
  match checkRequest buffer bytesRec with
  | some req => handler st env cur req
  | none => .ok (st, [])

/-- `Accepts data req`: the datagram passes the checks, and its handler reads `req`. -/
def Accepts (data : List UInt8) (req : Request) : Prop :=
  checkRequest (recvfrom bufSize data).1 (recvfrom bufSize data).2 = some req

theorem Accepts.serverLoop {data : List UInt8} {req : Request} (h : Accepts data req)
    (st : State) (env : Env) (cur : Addressable) :
    serverLoop st env cur data = handler st env cur req := by
  rw [Accepts] at h
  simp only [Distributed.serverLoop, h]

end CliMessaging.Distributed
