import CliMessaging.Verification.Client.Typing

/-! # Where the client sends

The client sends to the source of the last datagram it received, whoever sent that. -/

namespace CliMessaging.Client

open Transition

variable {c c₀ c' : Client} {sendOk : Bool} {input : Input} {o : Outcome} {ps : List Pass}
  {s : Option Client} {server : SockAddr} {line : List UInt8}

/-- The line makes the client send a message. -/
def Asks (line : List UInt8) : Prop :=
  match checkIfIsCommand line with
  | some .say => True
  | some .list => True
  | some .exit => True
  | some .join => (getArg line).isSome
  | some .leave => (getArg line).isSome
  | some .who => (getArg line).isSome
  | some .switch => False
  | none => False

/-- On this input the client sends a datagram. -/
def Sends (c : Client) (sendOk : Bool) : Input → Prop
  | .key cur => sendOk = true ∧ cur = 10 ∧ c.stdinbuf.str ≠ [] ∧ Asks c.stdinbuf.str
  | .recv _ _ => False
  | .tick => sendOk = true ∧ c.activityLastMinute = false

/-- The source of a datagram that comes in. -/
def Input.source? : Input → Option SockAddr
  | .recv src _ => some src
  | _ => none

/-- The source of the last datagram that came in, or else the server. -/
def lastSource (server : SockAddr) (ps : List Pass) : SockAddr :=
  ps.foldl (fun src p => p.input.source?.getD src) server

/-- Whenever the client sends in the run, the last datagram it has received, if any, came
from the server. -/
def HearsServerLast (server : SockAddr) (c₀ : Client) (ps : List Pass) : Prop :=
  ∀ past p future c, ps = past ++ p :: future → Run Step (some c₀) past (some c) →
    c.Sends p.sendOk p.input → lastSource server past = server

/-! ## One pass -/

/-- What is sent goes to `server_info`, which stays as it is, and something is sent
exactly under `sends`. -/
structure Addressed (c : Client) (sends : Prop) (client : Option Client)
    (sent : List Datagram) : Prop where
  dst : ∀ d ∈ sent, d.dst = c.serverInfo
  kept : ∀ c', client = some c' → c'.serverInfo = c.serverInfo
  sent_iff : sent ≠ [] ↔ sends

theorem Addressed.congr {P Q : Prop} {client : Option Client} {sent : List Datagram}
    (h : Addressed c P client sent) (hPQ : P ↔ Q) : Addressed c Q client sent :=
  ⟨h.dst, h.kept, h.sent_iff.trans hPQ⟩

theorem Addressed.exit {P : Prop} {client : Option Client} {sent : List Datagram}
    (h : Addressed c P client sent) : Addressed c P none sent :=
  ⟨h.dst, by simp, h.sent_iff⟩

/-- What a pass does afterwards to the other fields does not matter. -/
theorem Addressed.map {P : Prop} {client : Option Client} {sent : List Datagram}
    (h : Addressed c P client sent) (f : Client → Client)
    (hf : ∀ c, (f c).serverInfo = c.serverInfo) : Addressed c P (client.map f) sent where
  dst := h.dst
  kept c' hc' := by
    obtain ⟨c₁, hc₁, rfl⟩ := Option.map_eq_some_iff.mp hc'
    exact (hf c₁).trans (h.kept c₁ hc₁)
  sent_iff := h.sent_iff

theorem addressed_nothing (h : c'.serverInfo = c.serverInfo) :
    Addressed c False (some c') [] where
  dst _ hd := by cases hd
  kept _ hc := by
    cases hc
    exact h
  sent_iff := by simp

theorem addressed_sendMsg (c : Client) (sendOk : Bool) (req : List UInt8) :
    Addressed c (sendOk = true) (some (c.sendMsg sendOk req).1) (c.sendMsg sendOk req).2 where
  dst d hd := by
    cases sendOk with
    | true => rw [List.mem_singleton.mp hd]
    | false => cases hd
  kept _ hc := by
    cases hc
    rfl
  sent_iff := by cases sendOk <;> simp [sendMsg]

theorem addressed_handleCmdArg (request : Field channelMax → List UInt8) (c : Client)
    (sendOk : Bool) (line : List UInt8) :
    Addressed c (sendOk = true ∧ (getArg line).isSome) (some (handleCmdArg request c sendOk line).1)
      (handleCmdArg request c sendOk line).2 := by
  unfold handleCmdArg
  cases hget : getArg line with
  | none => exact (addressed_nothing rfl).congr (by simp)
  | some channel => exact (addressed_sendMsg c sendOk _).congr (by simp)

theorem addressed_handleChat (c : Client) (sendOk : Bool) (line : List UInt8) :
    Addressed c (sendOk = true ∧ Asks line) (c.handleChat sendOk line).1
      (c.handleChat sendOk line).2 := by
  unfold handleChat Asks
  cases checkIfIsCommand line with
  | none => exact (addressed_nothing rfl).congr (by simp)
  | some command =>
      cases command with
      | say => exact (addressed_sendMsg c sendOk _).congr (by simp)
      | list => exact (addressed_sendMsg c sendOk _).congr (by simp)
      | exit => exact (addressed_sendMsg c sendOk _).exit.congr (by simp)
      | join => exact addressed_handleCmdArg _ c sendOk line
      | leave => exact addressed_handleCmdArg _ c sendOk line
      | who => exact addressed_handleCmdArg _ c sendOk line
      | switch =>
          have hkept : (c.handleCmdSwitch line).serverInfo = c.serverInfo := by
            unfold handleCmdSwitch
            cases getArg line <;> rfl
          exact (addressed_nothing hkept).congr (by simp)

theorem addressed_endLine (c : Client) (sendOk : Bool) :
    Addressed c (c.Sends sendOk (.key 10)) (c.endLine sendOk).1 (c.endLine sendOk).2 := by
  unfold endLine
  by_cases hempty : c.stdinbuf.str = []
  · have hsends : False ↔ c.Sends sendOk (.key 10) := by simp [Sends, hempty]
    have hkept : c.clearLine.serverInfo = c.serverInfo := rfl
    rw [if_pos hempty]
    exact (addressed_nothing hkept).congr hsends
  · have hsends : sendOk = true ∧ Asks c.stdinbuf.str ↔ c.Sends sendOk (.key 10) := by
      simp [Sends, hempty]
    have hchat := addressed_handleChat c sendOk c.stdinbuf.str
    rw [if_neg hempty]
    exact (hchat.map clearLine fun _ => rfl).congr hsends

theorem addressed_keepAlive (c : Client) (sendOk : Bool) :
    Addressed c (c.Sends sendOk .tick) (some (c.keepAlive sendOk).1) (c.keepAlive sendOk).2 := by
  unfold keepAlive
  cases hactive : c.activityLastMinute with
  | true =>
      have hsends : False ↔ c.Sends sendOk .tick := by simp [Sends, hactive]
      have hkept : c.clearActivity.serverInfo = c.serverInfo := rfl
      exact (addressed_nothing hkept).congr hsends
  | false =>
      have hsends : sendOk = true ↔ c.Sends sendOk .tick := by simp [Sends, hactive]
      have hmsg := addressed_sendMsg c sendOk requestKeepAlive
      exact (hmsg.map clearActivity fun _ => rfl).congr hsends

/-- What a pass sends and where, and the address that it leaves. -/
theorem react_addressed (h : c.react sendOk input = .ok o) :
    (∀ d ∈ o.sent, d.dst = c.serverInfo) ∧ (o.sent ≠ [] ↔ c.Sends sendOk input) ∧
      ∀ c', o.client = some c' → c'.serverInfo = input.source?.getD c.serverInfo := by
  cases input with
  | key cur =>
      by_cases hend : cur = 10
      · subst hend
        cases h
        have ha := addressed_endLine c sendOk
        exact ⟨ha.dst, ha.sent_iff, ha.kept⟩
      · rw [react, if_neg hend] at h
        split at h
        · cases h
          simp [Sends, hend, Input.source?]
        · cases h
          simp [Sends, hend, Input.source?]
  | recv src data =>
      obtain ⟨printed, -, hok⟩ := bind_eq_ok.mp h
      cases hok
      simp [Sends, Input.source?]
  | tick =>
      cases h
      have ha := addressed_keepAlive c sendOk
      exact ⟨ha.dst, ha.sent_iff, ha.kept⟩

/-! ## Runs -/

theorem lastSource_snoc (server : SockAddr) (ps : List Pass) (p : Pass) :
    lastSource server (ps ++ [p]) = p.input.source?.getD (lastSource server ps) := by
  simp [lastSource]

theorem step_deterministic (s : Option Client) (p : Pass) (t t' : Option Client)
    (h : Step s p t) (h' : Step s p t') : t = t' := by
  obtain ⟨c, rfl, hreact⟩ := h
  obtain ⟨c', hc', hreact'⟩ := h'
  cases hc'
  rw [hreact] at hreact'
  cases hreact'
  rfl

theorem serverInfo_of_run (hrun : Run Step (some c₀) ps (some c)) :
    c.serverInfo = lastSource c₀.serverInfo ps := by
  have hstep : ∀ past s p t, (∀ c, s = some c → c.serverInfo = lastSource c₀.serverInfo past) →
      True → Step s p t →
      ∀ c, t = some c → c.serverInfo = lastSource c₀.serverInfo (past ++ [p]) := by
    intro past s p t hs _ ⟨c, hc, hreact⟩ c' hc'
    obtain ⟨-, -, hkept⟩ := react_addressed hreact
    rw [lastSource_snoc, hkept c' hc', hs c hc]
  have hall := hrun.history hstep (fun _ _ => trivial) []
    fun c hc => congrArg serverInfo (Option.some.inj hc).symm
  exact hall c rfl

/-- The datagrams of start-up go to the server. -/
theorem start_addressed (server : SockAddr) (username : List UInt8) (sendOk : ℕ → Bool) :
    (∀ d ∈ (start server username sendOk).2, d.dst = server) ∧
      (start server username sendOk).1.serverInfo = server := by
  have hlogin := addressed_sendMsg (setup server) (sendOk 0)
    (requestLogin (.ofText usernameMax username))
  have hjoin := addressed_handleCmdArg requestJoin ((setup server).handleCmdLogin (sendOk 0)
    username).1 (sendOk 1) (ascii "/join Common")
  have hserver : ((setup server).handleCmdLogin (sendOk 0) username).1.serverInfo = server :=
    hlogin.kept _ rfl
  constructor
  · intro d hd
    rcases List.mem_append.mp hd with hd | hd
    · exact hlogin.dst d hd
    · exact (hjoin.dst d hd).trans hserver
  · exact (hjoin.kept _ rfl).trans hserver

/-- In every run of the client, everything it sends is addressed to the server that it was
started for, exactly when it has heard from nobody else last whenever it sends. -/
theorem sends_to_server_iff (server : SockAddr) (username : List UInt8) (sendOk : ℕ → Bool)
    (hrun : Run Step (some (start server username sendOk).1) ps s) :
    (∀ d ∈ (start server username sendOk).2 ++ ps.flatMap Pass.sent, d.dst = server) ↔
      HearsServerLast server (start server username sendOk).1 ps := by
  obtain ⟨hstart, hserver⟩ := start_addressed server username sendOk
  constructor
  · intro hall past p future c hsplit hpast hsends
    rw [hsplit] at hrun
    obtain ⟨t, hpast', hrest⟩ := hrun.of_append
    obtain rfl : some c = t := hpast.unique step_deterministic hpast'
    cases hrest with
    | cons hstep _ =>
        obtain ⟨c₁, hc₁, hreact⟩ := hstep
        cases hc₁
        obtain ⟨hdst, hsent, -⟩ := react_addressed hreact
        obtain ⟨d, hd⟩ := List.exists_mem_of_ne_nil _ (hsent.mpr hsends)
        have hto : d.dst = server := hall d (List.mem_append_right _
          (List.mem_flatMap.mpr ⟨p, by simp [hsplit], hd⟩))
        have hinfo : c.serverInfo = lastSource server past := by
          rw [serverInfo_of_run hpast, hserver]
        exact hinfo.symm.trans ((hdst d hd).symm.trans hto)
  · intro hheard d hd
    rcases List.mem_append.mp hd with hd | hd
    · exact hstart d hd
    · obtain ⟨p, hp, hd⟩ := List.mem_flatMap.mp hd
      obtain ⟨past, s₁, s₂, future, hsplit, hpast, ⟨c, rfl, hreact⟩, -⟩ := hrun.split_of_mem hp
      obtain ⟨hdst, hsends, -⟩ := react_addressed hreact
      rw [hdst d hd, serverInfo_of_run hpast, hserver]
      exact hheard past p future c hsplit hpast (hsends.mp (List.ne_nil_of_mem hd))

/-- The address of a server. -/
def home : SockAddr := ⟨⟨10, 0, 0, 9⟩, 4000⟩

/-- The address of somebody else. -/
def stranger : SockAddr := ⟨⟨10, 0, 0, 8⟩, 4001⟩

/-- What a client sends that is told to say `h`. -/
def sayH (dst : SockAddr) : Datagram :=
  ⟨dst, requestSay (.ofText channelMax (ascii "Common")) (.ofText sayMax (ascii "h"))⟩

/-- A datagram from somebody else and one from the server come in before a line is ended. -/
theorem sends_to_server_iff_interrupted :
    ∃ s p q, Run Step (some (start home (ascii "alice") fun _ => true).1)
        [typing 104 [], ⟨.recv stranger [], true, [], p⟩, ⟨.recv home [], true, [], q⟩,
          typing 10 [sayH home]] s ∧
      HearsServerLast home (start home (ascii "alice") fun _ => true).1
        [typing 104 [], ⟨.recv stranger [], true, [], p⟩, ⟨.recv home [], true, [], q⟩,
          typing 10 [sayH home]] := by
  obtain ⟨s, p, q, hrun⟩ : ∃ s p q, Run Step (some (start home (ascii "alice") fun _ => true).1)
      [typing 104 [], ⟨.recv stranger [], true, [], p⟩, ⟨.recv home [], true, [], q⟩,
        typing 10 [sayH home]] s :=
    ⟨_, _, _, .cons ⟨_, rfl, rfl⟩ (.cons ⟨_, rfl, rfl⟩ (.cons ⟨_, rfl, rfl⟩
      (.cons ⟨_, rfl, rfl⟩ (.nil _))))⟩
  refine ⟨s, p, q, hrun, (sends_to_server_iff home (ascii "alice") (fun _ => true) hrun).mp ?_⟩
  change ∀ d ∈ (start home (ascii "alice") fun _ => true).2 ++ [sayH home], d.dst = home
  decide

/-- After an empty datagram from somebody else the next line goes there. -/
theorem sends_to_stranger :
    ∃ s printed, Run Step (some (start home (ascii "alice") fun _ => true).1)
        [⟨.recv stranger [], true, [], printed⟩, typing 104 [], typing 10 [sayH stranger]] s ∧
      (sayH stranger).dst ≠ home :=
  ⟨_, _, .cons ⟨_, rfl, rfl⟩ (.cons ⟨_, rfl, rfl⟩ (.cons ⟨_, rfl, rfl⟩ (.nil _))), by decide⟩

end CliMessaging.Client
