import CliMessaging.Library.Heap
import CliMessaging.Model.Wire

/-! # Messages from the server

The receive path of `client.c`: the length check, and what is printed for each kind of
text. -/

namespace CliMessaging.Client

/-- `BUFFER_MAX` -/
def bufferMax : ℕ := 32776

/-- The announced number of entries. -/
def entryCount (req : List UInt8) : UInt32 := decodeInt (req.drop 4)

/-- The products of `int` are taken modulo 2^32. -/
def checkServerMessage (req : List UInt8) (providedLen : ℕ) : Bool :=
  match TextType.ofCode (decodeInt req) with
  | some .say => decide (4 + channelMax + usernameMax + sayMax = providedLen)
  | some .list =>
      decide (UInt32.ofNat providedLen = 4 + 4 + UInt32.ofNat channelMax * entryCount req)
  | some .who =>
      decide (UInt32.ofNat providedLen =
        4 + 4 + UInt32.ofNat channelMax + UInt32.ofNat usernameMax * entryCount req)
  | some .error => decide (providedLen = 4 + sayMax)
  | none => false

/-! ## Handlers -/

def handleTxtSay (req : List UInt8) : List UInt8 :=
  let channel := CString.ofBuffer channelMax channelMax_pos (req.drop 4)
  let username := CString.ofBuffer usernameMax usernameMax_pos (req.drop (4 + channelMax))
  let text := CString.ofBuffer sayMax sayMax_pos (req.drop (4 + channelMax + usernameMax))
  ascii "[" ++ channel.bytes ++ ascii "][" ++ username.bytes ++ ascii "]: " ++ text.bytes ++
    ascii "\n"

/-- The loop over the entries from the start of `buffer`. An entry that is not wholly inside
the buffer is written to outside it. -/
def printEntries (buffer : List UInt8) : ℕ → Except Fault (List UInt8)
  | 0 => .ok []
  | n + 1 =>
      if buffer.length < usernameMax then .error .outOfRange
      else do
        let entry := CString.ofBuffer usernameMax usernameMax_pos buffer
        let rest ← printEntries (buffer.drop usernameMax) n
        return ascii " " ++ entry.bytes ++ ascii "\n" ++ rest

/-- The number of rounds of a loop from 0 below an `int`. -/
def rounds (n : UInt32) : ℕ := if n.toNat < 2 ^ 31 then n.toNat else 0

def handleTxtList (req : List UInt8) : Except Fault (List UInt8) := do
  let entries ← printEntries (req.drop 8) (rounds (entryCount req))
  return ascii "Existing Channels:\n" ++ entries

def handleTxtWho (req : List UInt8) : Except Fault (List UInt8) := do
  let channel := CString.ofBuffer channelMax channelMax_pos (req.drop 8)
  let entries ← printEntries (req.drop (8 + channelMax)) (rounds (entryCount req))
  return ascii "Users on channel " ++ channel.bytes ++ ascii ":\n" ++ entries

def handleTxtError (req : List UInt8) : List UInt8 :=
  let error := CString.ofBuffer sayMax sayMax_pos (req.drop 4)
  ascii "SERVER_ERROR::" ++ error.bytes ++ ascii "\n"

/-- What is printed for a message that `check_server_message` refuses. -/
def rejectMessage (req : List UInt8) (providedLen : ℕ) : List UInt8 :=
  let reqType := formatInt (decodeInt req)
  let unknown := match TextType.ofCode (decodeInt req) with
    | none => ascii "Server sent unknonw txt type (type=" ++ reqType ++ ascii ")\n"
    | some _ => []
  unknown ++ ascii "Server message (type=" ++ reqType ++ ascii ") length (" ++
    decimal providedLen ++ ascii " bytes), did not match expected length\n"

def handleServerMessage (req : List UInt8) (providedLen : ℕ) : Except Fault (List UInt8) :=
  if !checkServerMessage req providedLen then .ok (rejectMessage req providedLen)
  else match TextType.ofCode (decodeInt req) with
    | some .say => .ok (handleTxtSay req)
    | some .list => handleTxtList req
    | some .who => handleTxtWho req
    | some .error => .ok (handleTxtError req)
    | none => .ok (ascii "Server sent unknonw txt type (type = " ++ formatInt (decodeInt req) ++
        ascii ")\n")

/-- What `read_from_server` prints for a datagram. -/
def readFromServer (data : List UInt8) : Except Fault (List UInt8) :=
  let (req, n) := recvfrom bufferMax data
  handleServerMessage req n

end CliMessaging.Client
