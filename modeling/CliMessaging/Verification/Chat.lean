import CliMessaging.Verification.Client.Receiving
import CliMessaging.Verification.Client.Typing
import CliMessaging.Verification.Standalone.Datagrams

/-! # Chat

A line from the keyboard of one client through the standalone server to the terminal of
another. -/

namespace CliMessaging

open Transition Client Standalone

variable {X L U V : List UInt8} {c₀ c sender : Client} {sendOk : Bool} {d : Client.Datagram}
  {ts : List Turn} {st : State} {a b : SockAddr} {req : ClientRequest}

/-! ## Names -/

/-- The first 31 bytes of a name. -/
def shortName (name : List UInt8) (hnul : 0 ∉ name) : CString 32 :=
  .truncate 32 (by decide) name hnul

/-- The first 63 bytes of a text. -/
def shortText (text : List UInt8) (hnul : 0 ∉ text) : SayText :=
  .truncate sayMax sayMax_pos text hnul

/-! ## Requests of a line -/

/-- A client that ends the line sends one datagram, which the server reads as `req`. -/
def Requests (line : List UInt8) (req : ClientRequest) : Prop :=
  ∀ (c : Client) (sendOk : Bool), c.stdinbuf.typed = line →
    ∃ c' data, c.react sendOk (.key 10) =
        .ok ⟨some c', if sendOk then [⟨c.serverInfo, data⟩] else [], []⟩ ∧
      Accepts data req

/-- A line that is handled by sending one message. -/
theorem requests_of_handleChat {line data : List UInt8} (hnul : 0 ∉ line) (hne : line ≠ [])
    (hchat : ∀ c sendOk, handleChat c sendOk line =
      (some (c.sendMsg sendOk data).1, (c.sendMsg sendOk data).2))
    (hacc : Accepts data req) : Requests line req := by
  intro c sendOk htyped
  have hstr := StdinBuf.str_of_typed htyped hnul
  refine ⟨(c.sendMsg sendOk data).1.clearLine, data, ?_, hacc⟩
  rw [react_line hstr hne, hchat]
  rfl

/-- A command whose argument is sent in a field. -/
theorem requests_of_command {word : List UInt8} {request : Field channelMax → List UInt8}
    {mk : Cname → ClientRequest} (hword : 0 ∉ word) (hne : word ≠ []) (hX : 0 ∉ X)
    (hchat : ∀ c sendOk, handleChat c sendOk (word ++ X) =
      (some (c.sendMsg sendOk (request (.ofText channelMax X))).1,
        (c.sendMsg sendOk (request (.ofText channelMax X))).2))
    (hacc : ∀ {f : Field channelMax} {ch : Cname}, f.Holds ch → Accepts (request f) (mk ch)) :
    Requests (word ++ X) (mk (shortName X hX)) := by
  have hnul : 0 ∉ word ++ X := by
    rw [List.mem_append, not_or]
    exact ⟨hword, hX⟩
  have hline : word ++ X ≠ [] := List.append_ne_nil_of_left_ne_nil hne X
  exact requests_of_handleChat hnul hline hchat (hacc (Field.holds_ofText _ X hX))

theorem requests_join (hX : 0 ∉ X) :
    Requests (ascii "/join " ++ X) (.join (shortName X hX)) :=
  requests_of_command (by decide) (by decide) hX (fun c sendOk => handleChat_join c sendOk X)
    accepts_requestJoin

theorem requests_leave (hX : 0 ∉ X) :
    Requests (ascii "/leave " ++ X) (.leave (shortName X hX)) :=
  requests_of_command (by decide) (by decide) hX (fun c sendOk => handleChat_leave c sendOk X)
    accepts_requestLeave

theorem requests_who (hX : 0 ∉ X) :
    Requests (ascii "/who " ++ X) (.who (shortName X hX)) :=
  requests_of_command (by decide) (by decide) hX (fun c sendOk => handleChat_who c sendOk X)
    accepts_requestWho

/-- A line that does not start with a slash is said on the current channel. -/
theorem requests_say (hL : 0 ∉ L) (hne : L ≠ []) (hslash : L.head? ≠ some 47) (hX : 0 ∉ X)
    (htyped : c.stdinbuf.typed = L) (hchannel : c.curChannel = .ofText channelMax X) :
    ∃ c' data, c.react true (.key 10) = .ok ⟨some c', [⟨c.serverInfo, data⟩], []⟩ ∧
      Accepts data (.say (shortName X hX) (shortText L hL)) := by
  have hstr := StdinBuf.str_of_typed htyped hL
  have hname : c.curChannel.terminate.Holds (shortName X hX) := by
    rw [hchannel]
    exact (Field.holds_ofText _ X hX).terminate
  have htext : (c.stdinbuf.first sayMax (by decide)).terminate.Holds (shortText L hL) := by
    rw [StdinBuf.first_eq_copyText, htyped]
    exact Field.holds_ofText _ L hL
  refine ⟨(c.handleCmdSay true).1.clearLine, _, ?_, accepts_requestSay hname htext⟩
  rw [react_line hstr hne, handleChat_say hslash]
  rfl

/-! ## Passes that send -/

/-- In the passes `ps` of the client it sent `d` at the end of the line. -/
def SentFor (c₀ : Client) (ps : List Client.Pass) (line : List UInt8) (d : Client.Datagram) :
    Prop :=
  ∃ past p later c s, ps = past ++ p :: later ∧ Run Client.Step (some c₀) past (some c) ∧
    Client.Step (some c) p s ∧ c.stdinbuf.typed = line ∧ p.input = .key 10 ∧ d ∈ p.sent

theorem SentFor.accepts {ps : List Client.Pass} {line : List UInt8} (h : SentFor c₀ ps line d)
    (hreq : Requests line req) : Accepts d.data req := by
  obtain ⟨past, p, later, c, s, -, -, ⟨c₁, hc₁, hreact⟩, htyped, hinput, hd⟩ := h
  cases hc₁
  obtain ⟨c', data, hok, hacc⟩ := hreq c p.sendOk htyped
  rw [hinput, hok] at hreact
  have hsent : p.sent = if p.sendOk then [⟨c.serverInfo, data⟩] else [] :=
    (congrArg Outcome.sent (Except.ok.inj hreact)).symm
  rw [hsent] at hd
  split at hd
  · rw [List.mem_singleton.mp hd]
    exact hacc
  · cases hd

/-- What a client that is started as `username` sends first, the server reads as a login of
`user`. -/
def LogsIn (username : List UInt8) (user : Uname) : Prop :=
  ∀ (server : SockAddr) (sendOk : ℕ → Bool), ∃ data rest,
    (start server username sendOk).2 = (if sendOk 0 then [⟨server, data⟩] else []) ++ rest ∧
      Accepts data (.login user)

theorem logsIn_shortName (hU : 0 ∉ U) : LogsIn U (shortName U hU) := fun _ _ =>
  ⟨requestLogin (.ofText usernameMax U), _, rfl, accepts_requestLogin (Field.holds_ofText _ U hU)⟩

/-! ## Conversations -/

/-- Two clients, started as `U` and `V`, are logged in under these names at `a` and `b` when
the server has gone through the rounds `ts`. Both have typed `/join X`, and the server has
processed that and no leave of the channel since. The last switch of the sender is
`/switch X`. -/
structure Conversation (X U V : List UInt8) (hX : 0 ∉ X) (hU : 0 ∉ U) (hV : 0 ∉ V)
    (a b : SockAddr) (sender : Client) (ts : List Turn) (st : State) : Prop where
  served : Run State.Serves State.initial ts st
  sender_session : (shortName U hU, a) ∈ st.sessions
  receiver_session : (shortName V hV, b) ∈ st.sessions
  sender_run : ∃ server ok ps join,
    Run Client.Step (some (start server U ok).1) ps (some sender) ∧
    (∃ before after, typedLines ps = before ++ (ascii "/switch " ++ X) :: after ∧
      ∀ line ∈ after, switchArg line = none) ∧
    SentFor (start server U ok).1 ps (ascii "/join " ++ X) join ∧
    ProcessedFor ts st (shortName U hU) a (shortName X hX) join.data
  receiver_run : ∃ server ok ps join,
    SentFor (start server V ok).1 ps (ascii "/join " ++ X) join ∧
    ProcessedFor ts st (shortName V hV) b (shortName X hX) join.data

namespace Conversation

variable {hX : 0 ∉ X} {hU : 0 ∉ U} {hV : 0 ∉ V}

theorem curChannel (h : Conversation X U V hX hU hV a b sender ts st) :
    sender.curChannel = .ofText channelMax X := by
  obtain ⟨server, ok, ps, join, hrun, ⟨before, after, hlines, hlast⟩, -, -⟩ := h.sender_run
  have hstart : (start server U ok).1.stdinbuf = .empty := rfl
  obtain ⟨-, hchannel⟩ := history_of_run hstart hrun
  rw [hchannel, hlines]
  exact foldl_channelAfter _ (switchArg_switch X) hlast

theorem sender_subscribed (h : Conversation X U V hX hU hV a b sender ts st) :
    (shortName X hX, shortName U hU) ∈ st.subscriptions := by
  obtain ⟨server, ok, ps, join, -, -, hsent, hprocessed⟩ := h.sender_run
  exact hprocessed.subscribed (hsent.accepts (requests_join hX))

theorem receiver_subscribed (h : Conversation X U V hX hU hV a b sender ts st) :
    (shortName X hX, shortName V hV) ∈ st.subscriptions := by
  obtain ⟨server, ok, ps, join, hsent, hprocessed⟩ := h.receiver_run
  exact hprocessed.subscribed (hsent.accepts (requests_join hX))

/-- A say of the sender reaches the receiver once. -/
theorem delivered (h : Conversation X U V hX hU hV a b sender ts st)
    {data : List UInt8} {text : SayText} (hacc : Accepts data (.say (shortName X hX) text))
    (env : Env) :
    ∃ st' sent, serverLoop st env a data = .ok (st', sent) ∧ sent.filter (·.dst = b) =
      [⟨b, .say (shortName X hX) (shortName U hU) text⟩] := by
  have hinv := inv_of_run h.served
  rcases hinv.outcome env (.recv a (.say (shortName X hX) text)) with
    ⟨hstumbles, -⟩ | ⟨st', sent, hok, heff⟩
  · exact absurd hstumbles.1 id
  have hserved : serverLoop st env a data = .ok (st', sent) := (hacc.serverLoop st env a).trans hok
  obtain ⟨hnodup, hmem⟩ := hinv.say_of_subscriber heff h.sender_session h.sender_subscribed
  have honly : ∀ d, d ∈ sent.filter (·.dst = b) ↔
      d ∈ [(⟨b, .say (shortName X hX) (shortName U hU) text⟩ : Standalone.Datagram)] := by
    rintro ⟨dst, msg⟩
    simp only [List.mem_filter, hmem, decide_eq_true_eq, List.mem_singleton,
      Standalone.Datagram.mk.injEq]
    constructor
    · rintro ⟨⟨hmsg, -⟩, hdst⟩
      exact ⟨hdst, hmsg⟩
    · rintro ⟨rfl, rfl⟩
      exact ⟨⟨rfl, shortName V hV, h.receiver_subscribed, h.receiver_session⟩, rfl⟩
  have hperm := (List.perm_ext_iff_of_nodup (hnodup.filter _) (List.nodup_singleton _)).mpr honly
  exact ⟨st', sent, hserved, List.perm_singleton.mp hperm⟩

end Conversation

/-! ## Conversations take place -/

/-- From an empty line, a line that asks for a request can be typed and ended. -/
theorem run_request {line : List UInt8} (hreq : Requests line req)
    (hline : ∀ b ∈ line, IsText b) (hfit : line.length < 256) (hempty : c.stdinbuf.typed = []) :
    ∃ c₁ c' p d, Run Client.Step (some c) (typingLine line) (some c₁) ∧
      c₁.stdinbuf.typed = line ∧ Client.Step (some c₁) p (some c') ∧ p.input = .key 10 ∧
      d ∈ p.sent ∧ c'.stdinbuf.typed = [] := by
  have hroom : c.stdinbuf.typed.length + line.length < 256 := by
    rw [hempty]
    simpa using hfit
  obtain ⟨c₁, hrun, htyped⟩ := run_typingLine hline hroom
  rw [hempty, List.nil_append] at htyped
  obtain ⟨c', data, hok, -⟩ := hreq c₁ true htyped
  have hstep : Client.Step (some c₁) ⟨.key 10, true, [⟨c₁.serverInfo, data⟩], []⟩ (some c') :=
    ⟨c₁, rfl, hok⟩
  exact ⟨c₁, c', _, _, hrun, htyped, hstep, rfl, List.mem_singleton.mpr rfl, typed_end hok rfl⟩

theorem isText_append {word : List UInt8} (hword : ∀ b ∈ word, IsText b)
    (hX : ∀ b ∈ X, IsText b) : ∀ b ∈ word ++ X, IsText b := by
  intro b hb
  rcases List.mem_append.mp hb with hb | hb
  · exact hword b hb
  · exact hX b hb

theorem notMem_of_isText (hX : ∀ b ∈ X, IsText b) : 0 ∉ X := fun h => (hX 0 h).1 rfl

section Existence

variable (hX : ∀ b ∈ X, IsText b) (hfit : X.length + 8 < 256) (h₀ : c₀.stdinbuf = .empty)

include hX hfit h₀

/-- A client can come to send its join. -/
theorem exists_joined : ∃ c₁ c' p d,
    Run Client.Step (some c₀) (typingLine (ascii "/join " ++ X)) (some c₁) ∧
      c₁.stdinbuf.typed = ascii "/join " ++ X ∧ Client.Step (some c₁) p (some c') ∧
      p.input = .key 10 ∧ d ∈ p.sent ∧ c'.stdinbuf.typed = [] := by
  have hline : ∀ b ∈ ascii "/join " ++ X, IsText b := isText_append (by decide) hX
  have hlength : (ascii "/join " ++ X).length < 256 := by
    rw [List.length_append]
    change 6 + X.length < 256
    omega
  have hempty : c₀.stdinbuf.typed = [] := by
    rw [h₀]
    rfl
  exact run_request (requests_join (notMem_of_isText hX)) hline hlength hempty

/-- A client can come to have joined and switched to the channel and typed a line. -/
theorem exists_switched (hL : ∀ b ∈ L, IsText b) (hfitL : L.length < 256) :
    ∃ ps c d, Run Client.Step (some c₀) ps (some c) ∧
      typedLines ps = [ascii "/join " ++ X] ++ (ascii "/switch " ++ X) :: [] ∧
      SentFor c₀ ps (ascii "/join " ++ X) d ∧ c.stdinbuf.typed = L := by
  obtain ⟨c₁, c₂, p, d, hrun₁, htyped₁, hstep₁, hinput₁, hd, hempty₂⟩ :=
    exists_joined hX hfit h₀
  have hline : ∀ b ∈ ascii "/switch " ++ X, IsText b := isText_append (by decide) hX
  have hlength : (ascii "/switch " ++ X).length = 8 + X.length := List.length_append
  have hnul := notMem_of_isText hline
  have hroom : c₂.stdinbuf.typed.length + (ascii "/switch " ++ X).length < 256 := by
    rw [hempty₂, hlength, List.length_nil]
    omega
  obtain ⟨c₃, hrun₃, htyped₃⟩ := run_typingLine hline hroom
  rw [hempty₂, List.nil_append] at htyped₃
  have hreact := react_line (StdinBuf.str_of_typed htyped₃ hnul) (by simp [ascii]) true
  rw [handleChat_switch] at hreact
  have hstep₃ : Client.Step (some c₃) (typing 10 []) _ := ⟨c₃, rfl, hreact⟩
  have hempty₄ := typed_end hreact rfl
  obtain ⟨c₅, hrun₅, htyped₅⟩ := run_typingLine hL (by rw [hempty₄]; simpa using hfitL)
  rw [hempty₄, List.nil_append] at htyped₅
  have hjoined := hrun₁.snoc hstep₁
  have hswitched := hjoined.append hrun₃
  refine ⟨_, c₅, d, (hswitched.snoc hstep₃).append hrun₅, ?_, ?_, htyped₅⟩
  · have hjoinLine : ∀ b ∈ ascii "/join " ++ X, IsText b := isText_append (by decide) hX
    have hjoinNul := notMem_of_isText hjoinLine
    have hfirst : typedLines (typingLine (ascii "/join " ++ X)) = [] :=
      typedLines_typingLine hjoinLine []
    rw [typedLines_typingLine hL, typedLines_end h₀ hswitched htyped₃ hnul (by simp [ascii]) rfl,
      typedLines_typingLine hline,
      typedLines_end h₀ hrun₁ htyped₁ hjoinNul (by simp [ascii]) hinput₁, hfirst]
    rfl
  · refine ⟨typingLine (ascii "/join " ++ X), p,
      typingLine (ascii "/switch " ++ X) ++ ([typing 10 []] ++ typingLine L), c₁, some c₂, ?_,
      hrun₁, hstep₁, htyped₁, hinput₁, hd⟩
    simp only [List.append_assoc, List.cons_append, List.nil_append]

end Existence

/-- Whatever the names and the line are, as long as the lines fit and the names and the
addresses differ, the sender can come to have typed the line in a conversation. -/
theorem exists_conversation (hX : ∀ b ∈ X, IsText b) (hfit : X.length + 8 < 256)
    (hL : ∀ b ∈ L, IsText b) (hfitL : L.length < 256) (hU : 0 ∉ U) (hV : 0 ∉ V)
    (huv : shortName U hU ≠ shortName V hV) (hab : a ≠ b) (server : SockAddr) :
    ∃ sender ts st, Conversation X U V (notMem_of_isText hX) hU hV a b sender ts st ∧
      sender.stdinbuf.typed = L := by
  have hname := notMem_of_isText hX
  have hstart : ∀ username, (start server username fun _ => true).1.stdinbuf = .empty :=
    fun _ => rfl
  obtain ⟨ps, sender, join, hrun, hlines, hsent, htyped⟩ :=
    exists_switched hX hfit (hstart U) hL hfitL
  obtain ⟨c₁, c', p, join', hrun', htyped', hstep', hinput', hd', -⟩ :=
    exists_joined hX hfit (hstart V)
  have hsent' : SentFor (start server V fun _ => true).1
      (typingLine (ascii "/join " ++ X) ++ [p]) (ascii "/join " ++ X) join' :=
    ⟨_, p, [], c₁, some c', rfl, hrun', hstep', htyped', hinput', hd'⟩
  obtain ⟨ts, st, hserved, hua, hvb, hprocessed, hprocessed'⟩ := exists_rounds
    (accepts_requestLogin (Field.holds_ofText (by decide) U hU))
    (accepts_requestLogin (Field.holds_ofText (by decide) V hV))
    (hsent.accepts (requests_join hname)) (hsent'.accepts (requests_join hname)) huv hab
  exact ⟨sender, ts, st, ⟨hserved, hua, hvb,
    ⟨server, fun _ => true, ps, join, hrun, ⟨_, [], hlines, by simp⟩, hsent, hprocessed⟩,
    ⟨server, fun _ => true, _, join', hsent', hprocessed'⟩⟩, htyped⟩

/-- In a conversation, every line `L` that the sender types shows up once at the receiver,
under the first 31 bytes of the channel and of the sender's name and with the first 63
bytes of the line. The sender logs in under these 31 bytes, and the commands that name the
channel all name the one of these 31 bytes. -/
theorem chat_fidelity {X L U V : List UInt8} {hX : 0 ∉ X} {hU : 0 ∉ U} {hV : 0 ∉ V}
    (hL : 0 ∉ L) (hne : L ≠ []) (hslash : L.head? ≠ some 47)
    (h : Conversation X U V hX hU hV a b sender ts st) (htyped : sender.stdinbuf.typed = L)
    (env : Env) :
    (∃ sender' say, sender.react true (.key 10) = .ok ⟨some sender', [say], []⟩ ∧
      ∃ st' sent d, serverLoop st env a say.data = .ok (st', sent) ∧
        sent.filter (·.dst = b) = [d] ∧
        Survives (encodeText d.msg) (sayLine (X.take 31) (U.take 31) (L.take 63))) ∧
      LogsIn U (shortName U hU) ∧
      Requests (ascii "/join " ++ X) (.join (shortName X hX)) ∧
      Requests (ascii "/leave " ++ X) (.leave (shortName X hX)) ∧
      Requests (ascii "/who " ++ X) (.who (shortName X hX)) := by
  refine ⟨?_, logsIn_shortName hU, requests_join hX, requests_leave hX, requests_who hX⟩
  obtain ⟨sender', data, hreact, hacc⟩ := requests_say hL hne hslash hX htyped h.curChannel
  obtain ⟨st', sent, hserved, hsent⟩ := h.delivered hacc env
  exact ⟨sender', _, hreact, st', sent, _, hserved, hsent,
    textSay_survives (Field.holds_ofString _) (Field.holds_ofString _) (Field.holds_ofString _)⟩

/-- alice says hi to bob on channel c. -/
theorem chat_fidelity_hi :
    ∃ (sender : Client) (ts : List Turn) (st : State) (sender' : Client) (say : Client.Datagram),
      Run State.Serves State.initial ts st ∧
      sender.react true (.key 10) = .ok ⟨some sender', [say], []⟩ ∧
      ∃ st' sent d, serverLoop st (Env.at 0) (desk 1) say.data = .ok (st', sent) ∧
        sent.filter (·.dst = desk 2) = [d] ∧
        Survives (encodeText d.msg) (sayLine (ascii "c") (ascii "alice") (ascii "hi")) := by
  obtain ⟨sender, ts, st, h, htyped⟩ := exists_conversation (X := ascii "c") (L := ascii "hi")
    (U := ascii "alice") (V := ascii "bob") (a := desk 1) (b := desk 2) (by decide) (by decide)
    (by decide) (by decide) (by decide) (by decide) (by decide) (by decide) (desk 9)
  obtain ⟨⟨sender', say, hreact, hdelivered⟩, -⟩ :=
    chat_fidelity (by decide) (by decide) (by decide) h htyped (Env.at 0)
  exact ⟨sender, ts, st, sender', say, h.served, hreact, hdelivered⟩

end CliMessaging
