import CliMessaging.Library.Bytes
import CliMessaging.Model.Proto

/-! # Datagrams

The packed structures of `proto.h` as the bytes that are sent, and how the two servers
fill the texts. -/

namespace CliMessaging

/-! ## Types of messages -/

/-- The `REQ_` constants. -/
inductive RequestType where
  | login
  | logout
  | join
  | leave
  | say
  | list
  | who
  | keepAlive
  deriving DecidableEq

/-- The `TXT_` constants. -/
inductive TextType where
  | say
  | list
  | who
  | error
  deriving DecidableEq

namespace RequestType

def code : RequestType → UInt32
  | login => 0
  | logout => 1
  | join => 2
  | leave => 3
  | say => 4
  | list => 5
  | who => 6
  | keepAlive => 7

/-- The constant that a word equals. -/
def ofCode (w : UInt32) : Option RequestType :=
  [login, logout, join, leave, say, list, who, keepAlive].find? (·.code = w)

@[simp] theorem ofCode_code (t : RequestType) : ofCode t.code = some t := by
  cases t <;> rfl

/-- `sizeof` of the structure of a request. -/
def size : RequestType → ℕ
  | login => 4 + usernameMax
  | logout => 4
  | join => 4 + channelMax
  | leave => 4 + channelMax
  | say => 4 + channelMax + sayMax
  | list => 4
  | who => 4 + channelMax
  | keepAlive => 4

end RequestType

namespace TextType

def code : TextType → UInt32
  | say => 0
  | list => 1
  | who => 2
  | error => 3

def ofCode (w : UInt32) : Option TextType := [say, list, who, error].find? (·.code = w)

@[simp] theorem ofCode_code (t : TextType) : ofCode t.code = some t := by
  cases t <;> rfl

end TextType

/-! ## Requests -/

def requestLogin (username : Field usernameMax) : List UInt8 :=
  encodeInt RequestType.login.code ++ username.bytes

def requestLogout : List UInt8 := encodeInt RequestType.logout.code

def requestJoin (channel : Field channelMax) : List UInt8 :=
  encodeInt RequestType.join.code ++ channel.bytes

def requestLeave (channel : Field channelMax) : List UInt8 :=
  encodeInt RequestType.leave.code ++ channel.bytes

def requestSay (channel : Field channelMax) (text : Field sayMax) : List UInt8 :=
  encodeInt RequestType.say.code ++ (channel.bytes ++ text.bytes)

def requestList : List UInt8 := encodeInt RequestType.list.code

def requestWho (channel : Field channelMax) : List UInt8 :=
  encodeInt RequestType.who.code ++ channel.bytes

def requestKeepAlive : List UInt8 := encodeInt RequestType.keepAlive.code

/-! ## Texts -/

def textSay (channel : Field channelMax) (username : Field usernameMax) (text : Field sayMax) :
    List UInt8 :=
  encodeInt TextType.say.code ++ (channel.bytes ++ (username.bytes ++ text.bytes))

def textList (channels : List (Field channelMax)) : List UInt8 :=
  encodeInt TextType.list.code ++ (encodeInt (UInt32.ofNat channels.length) ++
    channels.flatMap Field.bytes)

def textWho (channel : Field channelMax) (users : List (Field usernameMax)) : List UInt8 :=
  encodeInt TextType.who.code ++ (encodeInt (UInt32.ofNat users.length) ++
    (channel.bytes ++ users.flatMap Field.bytes))

def textError (error : Field sayMax) : List UInt8 :=
  encodeInt TextType.error.code ++ error.bytes

/-! ## The standalone server

`send.h` clears every field and copies the string into it. -/

namespace Standalone

/-- The datagram of `send_channel_list`. -/
def encodeChannelList (channels : List Cname) : List UInt8 :=
  textList (channels.map Field.ofString)

/-- The datagram of `send_user_list`. -/
def encodeUserList (users : List Uname) (channel : Cname) : List UInt8 :=
  textWho (Field.ofString channel) (users.map Field.ofString)

/-- The datagram of a text. An error text that does not fit is never sent. -/
def encodeText : Text → List UInt8
  | .say channel username text =>
      textSay (Field.ofString channel) (Field.ofString username) (Field.ofString text)
  | .list channels => encodeChannelList channels
  | .who channel users => encodeUserList users channel
  | .error text =>
      textError (Field.ofString (CString.ofBuffer sayMax sayMax_pos (ascii text)))

end Standalone

/-! ## The distributed server

`network.cxx` copies the fixed number of bytes that stand at the pointer of each name and
overwrites the last one. -/

namespace Distributed

/-- The datagram of `broadcast_channel_list`. -/
def encodeChannelList (channels : List (Field channelMax)) : List UInt8 :=
  textList (channels.map Field.terminate)

/-- The datagram of `broadcast_who`. -/
def encodeWho (cname : Field channelMax) (names : List (Field usernameMax)) : List UInt8 :=
  textWho cname.terminate (names.map Field.terminate)

end Distributed

end CliMessaging
