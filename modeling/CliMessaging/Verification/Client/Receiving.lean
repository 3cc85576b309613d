import CliMessaging.Model.Client.Messages

/-! # Receiving a text

A text survives when the client accepts its datagram and prints what it says. -/

namespace CliMessaging.Client

variable {channel : Cname} {username : Uname} {text : SayText} {f : Field channelMax}
  {g : Field usernameMax} {k : Field sayMax}

/-- The client accepts the datagram and prints `out` for it. -/
def Survives (data out : List UInt8) : Prop :=
  checkServerMessage (recvfrom bufferMax data).1 (recvfrom bufferMax data).2 = true ∧
    readFromServer data = .ok out

theorem survives_of_handled {data req out : List UInt8} {n : ℕ}
    (hrecv : recvfrom bufferMax data = (req, n)) (hcheck : checkServerMessage req n = true)
    (hout : handleServerMessage req n = .ok out) : Survives data out := by
  rw [Survives, readFromServer, hrecv]
  exact ⟨hcheck, hout⟩

/-- The line that is printed for a say. -/
def sayLine (channel username text : List UInt8) : List UInt8 :=
  ascii "[" ++ channel ++ ascii "][" ++ username ++ ascii "]: " ++ text ++ ascii "\n"

/-- The three fields of a say, whatever follows them in the buffer. -/
theorem handleTxtSay_fields (hf : f.Holds channel) (hg : g.Holds username) (hk : k.Holds text)
    (rest : List UInt8) :
    handleTxtSay (encodeInt TextType.say.code ++ (f.bytes ++ (g.bytes ++ (k.bytes ++ rest)))) =
      sayLine channel.bytes username.bytes text.bytes := by
  have hcode : ∀ buffer, (encodeInt TextType.say.code ++ buffer).drop 4 = buffer := fun _ => rfl
  have hchannel : ∀ buffer, (f.bytes ++ buffer).drop channelMax = buffer := fun _ =>
    List.drop_left' f.length_eq
  have husername : ∀ buffer, (g.bytes ++ buffer).drop usernameMax = buffer := fun _ =>
    List.drop_left' g.length_eq
  simp only [handleTxtSay, ← List.drop_drop, hcode, hchannel, husername, hf.ofBuffer,
    hg.ofBuffer, hk.ofBuffer, sayLine]

theorem textSay_survives (hf : f.Holds channel) (hg : g.Holds username) (hk : k.Holds text) :
    Survives (textSay f g k) (sayLine channel.bytes username.bytes text.bytes) := by
  have hsize : (textSay f g k).length = 4 + channelMax + usernameMax + sayMax := by
    simp only [textSay, List.length_append, length_encodeInt, f.length_eq, g.length_eq,
      k.length_eq, Nat.add_assoc]
  have hfit : (textSay f g k).length ≤ bufferMax := by
    rw [hsize]
    decide
  have hrecv := recvfrom_of_le hfit
  rw [hsize, textSay, List.append_assoc, List.append_assoc, List.append_assoc] at hrecv
  have hcheck : checkServerMessage (encodeInt TextType.say.code ++ (f.bytes ++ (g.bytes ++
      (k.bytes ++ zeros (bufferMax - (4 + channelMax + usernameMax + sayMax))))))
      (4 + channelMax + usernameMax + sayMax) = true := by
    rw [checkServerMessage, decodeInt_encodeInt, TextType.ofCode_code]
    exact decide_eq_true rfl
  apply survives_of_handled hrecv hcheck
  rw [handleServerMessage, hcheck, decodeInt_encodeInt, TextType.ofCode_code]
  exact congrArg Except.ok (handleTxtSay_fields hf hg hk _)

/-- The line that is printed for an error. -/
def errorLine (error : List UInt8) : List UInt8 :=
  ascii "SERVER_ERROR::" ++ error ++ ascii "\n"

theorem textError_survives (hk : k.Holds text) : Survives (textError k) (errorLine text.bytes) := by
  have hsize : (textError k).length = 4 + sayMax := by
    rw [textError, List.length_append, length_encodeInt, k.length_eq]
  have hfit : (textError k).length ≤ bufferMax := by
    rw [hsize]
    decide
  have hrecv := recvfrom_of_le hfit
  rw [hsize, textError, List.append_assoc] at hrecv
  have hcheck : checkServerMessage (encodeInt TextType.error.code ++ (k.bytes ++
      zeros (bufferMax - (4 + sayMax)))) (4 + sayMax) = true := by
    rw [checkServerMessage, decodeInt_encodeInt, TextType.ofCode_code]
    exact decide_eq_true rfl
  have hread : CString.ofBuffer sayMax sayMax_pos ((encodeInt TextType.error.code ++ (k.bytes ++
      zeros (bufferMax - (4 + sayMax)))).drop 4) = text := hk.ofBuffer sayMax_pos _
  apply survives_of_handled hrecv hcheck
  rw [handleServerMessage, hcheck, decodeInt_encodeInt, TextType.ofCode_code]
  change Except.ok (handleTxtError _) = _
  rw [handleTxtError, hread]
  rfl

end CliMessaging.Client
