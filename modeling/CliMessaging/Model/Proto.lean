import CliMessaging.Library.CString

/-! # The chat protocol

The requests and texts of `proto.h`. A field is the string that the receiver reads
from it after overwriting its last byte by NUL. -/

namespace CliMessaging

abbrev usernameMax : ℕ := 32

abbrev channelMax : ℕ := 32

abbrev sayMax : ℕ := 64

theorem usernameMax_pos : 0 < usernameMax := by decide

theorem channelMax_pos : 0 < channelMax := by decide

theorem sayMax_pos : 0 < sayMax := by decide

abbrev Uname := CString usernameMax

abbrev Cname := CString channelMax

abbrev SayText := CString sayMax

/-- The requests that both servers accept from a client. -/
inductive ClientRequest where
  | login (username : Uname)
  | logout
  | join (channel : Cname)
  | leave (channel : Cname)
  | say (channel : Cname) (text : SayText)
  | list
  | who (channel : Cname)
  | keepAlive
  deriving DecidableEq

/-- The messages sent to a client. -/
inductive Text where
  | say (channel : Cname) (username : Uname) (text : SayText)
  | list (channels : List Cname)
  | who (channel : Cname) (usernames : List Uname)
  | error (text : String)
  deriving DecidableEq

/-! ## Names for concrete runs -/

def alice : Uname := ⟨[97], by decide, by decide⟩

def bob : Uname := ⟨[98], by decide, by decide⟩

def chat : Cname := ⟨[99], by decide, by decide⟩

def hello : SayText := ⟨[104, 105], by decide, by decide⟩

end CliMessaging
