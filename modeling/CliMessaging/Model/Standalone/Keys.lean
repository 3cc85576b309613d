import CliMessaging.Library.CFunctions
import CliMessaging.Model.Standalone.State

/-! # Keys in memory

The functions of `state.c` that write the key of a client to a buffer and read its parts
back from there. What the stack holds before they write to it is a parameter. -/

namespace CliMessaging.Standalone

/-- `construct_ip_port_key`, byte by byte. Here `dest` is the buffer as it was before. -/
def constructIpPortKeyInto (dest ip : List UInt8) (port : UInt16) :
    Except Fault (List UInt8) := do
  let dest ← store dest 0 (zeros ipPortSize)
  let dest ← strncpy dest ip 15
  let dest ← strcat dest [58]
  let portChars ← sprintfUnsigned (zeros 6) (ntohs port).toNat
  let dest ← strcat dest (← cstr portChars)
  store dest 21 [0]

/-- The loops of the decoders that copy bytes to `dest`, from its offset `i` on, up to a
byte `stop`. -/
def copyUntil (stop : UInt8) : List UInt8 → List UInt8 → ℕ → Except Fault (List UInt8)
  | [], _, _ => .error .outOfRange
  | b :: src, dest, i =>
      if b = stop then .ok dest
      else do
        let dest ← store dest i [b]
        copyUntil stop src dest (i + 1)

/-- What follows the first byte `stop`. -/
def skipPast (stop : UInt8) : List UInt8 → Except Fault (List UInt8)
  | [] => .error .outOfRange
  | b :: src => if b = stop then .ok src else skipPast stop src

/-- `extract_ip_from_combo` -/
def extractIpFromCombo (ipPort dest : List UInt8) : Except Fault (List UInt8) := do
  let dest ← store dest 0 (zeros 16)
  copyUntil 58 ipPort dest 0

/-- `extract_port_from_combo`. Here `buf` is the local array as it was before, and `beyond`
are the bytes that follow it on the stack. -/
def extractPortFromCombo (ipPort buf beyond : List UInt8) : Except Fault UInt16 := do
  let digits ← skipPast 58 ipPort
  let buf ← copyUntil 0 digits buf 0
  let port ← atoi (buf ++ beyond)
  return UInt16.ofInt port.toInt

end CliMessaging.Standalone
