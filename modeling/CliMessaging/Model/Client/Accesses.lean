import CliMessaging.Model.Client.Messages

/-! # What the handlers of the client touch

The offsets, from the start of the receive buffer, of the bytes that a handler reads or
overwrites. The handlers do not know how long the message is, so `memory` goes on after the
buffer. -/

namespace CliMessaging.Client

/-- The buffer and the memory `beyond` it. -/
def memoryAt (req : List UInt8) (beyond : ℕ → UInt8) (i : ℕ) : UInt8 :=
  if h : i < req.length then req.get ⟨i, h⟩ else beyond (i - req.length)

/-- A field of `size` bytes at `offset` is printed after its last byte has been overwritten:
this byte and those of the string up to its NUL. -/
def fieldOffsets (memory : ℕ → UInt8) (offset size : ℕ) : List ℕ :=
  let bytes := (List.range (size - 1)).map fun i => memory (offset + i)
  let strlen := (bytes.takeWhile (· ≠ 0)).length
  (offset + size - 1) :: (List.range (strlen + 1)).map fun i => offset + i

/-- An `int` at `offset`. -/
def intOffsets (offset : ℕ) : List ℕ := (List.range 4).map fun i => offset + i

/-- The loop over the entries that start at `offset`. -/
def entryOffsets (memory : ℕ → UInt8) (offset : ℕ) (entries : ℕ) : List ℕ :=
  (List.range entries).flatMap fun i => fieldOffsets memory (offset + usernameMax * i) usernameMax

def handleTxtSayOffsets (memory : ℕ → UInt8) : List ℕ :=
  fieldOffsets memory 4 channelMax ++ fieldOffsets memory (4 + channelMax) usernameMax ++
    fieldOffsets memory (4 + channelMax + usernameMax) sayMax

def handleTxtListOffsets (memory : ℕ → UInt8) (count : UInt32) : List ℕ :=
  intOffsets 4 ++ entryOffsets memory 8 (rounds count)

def handleTxtWhoOffsets (memory : ℕ → UInt8) (count : UInt32) : List ℕ :=
  fieldOffsets memory 8 channelMax ++ intOffsets 4 ++
    entryOffsets memory (8 + channelMax) (rounds count)

def handleTxtErrorOffsets (memory : ℕ → UInt8) : List ℕ := fieldOffsets memory 4 sayMax

/-- The offsets that the handler touches which `handle_server_message` selects. -/
def handlerOffsets (req : List UInt8) (beyond : ℕ → UInt8) : List ℕ :=
  let memory := memoryAt req beyond
  match TextType.ofCode (decodeInt req) with
  | some .say => handleTxtSayOffsets memory
  | some .list => handleTxtListOffsets memory (entryCount req)
  | some .who => handleTxtWhoOffsets memory (entryCount req)
  | some .error => handleTxtErrorOffsets memory
  | none => []

end CliMessaging.Client
