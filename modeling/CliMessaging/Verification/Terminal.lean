import CliMessaging.Verification.Client.ListReplies
import CliMessaging.Verification.Client.Typing
import CliMessaging.Verification.Standalone.Datagrams
import CliMessaging.Verification.Standalone.MemorySays
import CliMessaging.Verification.Standalone.Service

/-! # From the keyboard to the terminals

A line that is typed at a client asks the service for something, and what the service sends
is shown at other clients. In between there are the bytes of the datagrams and the loops of
the server. -/

namespace CliMessaging

open Transition Client Standalone Standalone.Memory
open LinkedList (llSize)

namespace Standalone

/-! ## Rounds and passes -/

/-- What the receive loop reads from a datagram, unless it refuses it. -/
def readDatagram (data : List UInt8) : Option ClientRequest :=
  if testValid (recvfrom bufSize data).1 (recvfrom bufSize data).2 then
    readRequest (recvfrom bufSize data).1
  else none

variable {data : List UInt8} {req : ClientRequest}

theorem accepts_iff : Accepts data req ↔ readDatagram data = some req := by
  unfold Accepts readDatagram
  by_cases hvalid : testValid (recvfrom bufSize data).1 (recvfrom bufSize data).2 = true
  · rw [if_pos hvalid]
    exact and_iff_right hvalid
  · rw [if_neg hvalid]
    simp [hvalid]

namespace Memory

/-- The pass that a round amounts to, unless it refuses its datagram. -/
def StoredTurn.pass (t : StoredTurn) : Option StoredPass :=
  match t.turn.event with
  | .cleanup => some ⟨t.mem, t.turn.env, .scan, t.turn.sent⟩
  | .datagram client data =>
      (readDatagram data).map fun req => ⟨t.mem, t.turn.env, .recv client req, t.turn.sent⟩

/-- The round finds its memory, and the name in its request is within the tables. -/
def StoredTurn.Sound (t : StoredTurn) : Prop := ∀ p ∈ t.pass, p.Sound

variable {m m' : Memory} {t : StoredTurn} {ts : List StoredTurn} {mem : Malloc} {env : Env}
  {client : SockAddr}

theorem serverLoop_of_accepts (h : Accepts data req) (m : Memory) (mem : Malloc) (env : Env)
    (client : SockAddr) :
    m.serverLoop mem env client data = m.react mem env (.recv client req) := by
  obtain ⟨hvalid, hread⟩ := h
  simp only [serverLoop, react, hvalid, hread, if_true]

theorem serverLoop_of_refused (h : readDatagram data = none) (m : Memory) (mem : Malloc)
    (env : Env) (client : SockAddr) : ∃ sent, m.serverLoop mem env client data = .ok (m, sent) := by
  by_cases hvalid : testValid (recvfrom bufSize data).1 (recvfrom bufSize data).2 = true
  · rw [readDatagram, if_pos hvalid] at h
    exact ⟨[], by simp only [serverLoop, hvalid, h, if_true]⟩
  · exact ⟨_, by simp only [serverLoop, hvalid]; rfl⟩

theorem serves_of_step {sent : List Datagram} (hacc : Accepts data req)
    (h : m.Step ⟨mem, env, .recv client req, sent⟩ m') :
    m.Serves ⟨mem, env, .datagram client data, sent⟩ m' :=
  (serverLoop_of_accepts hacc m mem env client).trans h

theorem pass_datagram (mem : Malloc) (env : Env) (client : SockAddr) (data : List UInt8)
    (sent : List Datagram) : StoredTurn.pass ⟨mem, env, .datagram client data, sent⟩ =
      (readDatagram data).map fun req => ⟨mem, env, .recv client req, sent⟩ := rfl

theorem sound_of_accepts {sent : List Datagram} (hacc : Accepts data req) (hmem : mem.Ample)
    (hinput : HashableInput (.recv client req)) :
    StoredTurn.Sound ⟨mem, env, .datagram client data, sent⟩ := by
  intro p hp
  rw [pass_datagram, accepts_iff.mp hacc] at hp
  cases hp
  exact ⟨hmem, hinput⟩

theorem Serves.run_pass (h : m.Serves t m') : Run Memory.Step m t.pass.toList m' := by
  obtain ⟨mem, env, event, sent⟩ := t
  cases event with
  | cleanup => exact .single h
  | datagram client data =>
      rw [pass_datagram]
      cases hread : readDatagram data with
      | some req =>
          have hacc := accepts_iff.mpr hread
          exact .single ((serverLoop_of_accepts hacc m mem env client).symm.trans h)
      | none =>
          obtain ⟨sent', hok⟩ := serverLoop_of_refused hread m mem env client
          cases hok.symm.trans h
          exact .nil m

/-- The rounds that were not refused are a run of the server on requests. -/
theorem run_passes (hrun : Run Memory.Serves m ts m') :
    Run Memory.Step m (ts.filterMap StoredTurn.pass) m' := by
  obtain ⟨m'', hpasses, rfl⟩ := hrun.stuttering (R := Eq)
    (fun m t m' _ hm hserves => ⟨m', hm ▸ hserves.run_pass, rfl⟩) rfl
  exact hpasses

theorem sound_passes (hts : ∀ t ∈ ts, t.Sound) : ∀ p ∈ ts.filterMap StoredTurn.pass, p.Sound := by
  intro p hp
  obtain ⟨t, ht, hpass⟩ := List.mem_filterMap.mp hp
  exact hts t ht p hpass

end Memory

end Standalone

variable {c : Client} {line data : List UInt8} {req : ClientRequest} {m m' : Memory}
  {ts : List StoredTurn} {mem : Malloc} {env : Env} {a : SockAddr}

/-! ## Lines -/

/-- What a line asks for when `channel` is the current channel. -/
def asked (channel : Field channelMax) (line : List UInt8) : Option ClientRequest :=
  match checkIfIsCommand line with
  | some .say => some (.say (.ofBuffer channelMax channelMax_pos channel.bytes)
      (.ofBuffer sayMax sayMax_pos line))
  | some .join => (getArg line).map fun name => .join (.ofBuffer channelMax channelMax_pos name)
  | some .leave => (getArg line).map fun name => .leave (.ofBuffer channelMax channelMax_pos name)
  | some .who => (getArg line).map fun name => .who (.ofBuffer channelMax channelMax_pos name)
  | some .list => some .list
  | some .exit => some .logout
  | some .switch => none
  | none => none

/-- What is sent for a line that asks for `request`. -/
def SendsFor (c : Client) (sent : List Client.Datagram) : Option ClientRequest → Prop
  | none => sent = []
  | some req => ∃ data, sent = [⟨c.serverInfo, data⟩] ∧ Accepts data req

/-- A command with an argument in a field. -/
theorem sendsFor_handleCmdArg {request : Field channelMax → List UInt8}
    {mk : Cname → ClientRequest} (hacc : ∀ {f : Field channelMax} {ch : Cname}, f.Holds ch →
      Accepts (request f) (mk ch)) (c : Client) (line : List UInt8) :
    SendsFor c (handleCmdArg request c true line).2
      ((getArg line).map fun name => mk (.ofBuffer channelMax channelMax_pos name)) := by
  unfold handleCmdArg
  cases getArg line with
  | none => rfl
  | some name => exact ⟨_, rfl, hacc (Field.holds_ofText_ofBuffer channelMax_pos name)⟩

/-- The field of a say holds the first 63 bytes of the line. -/
theorem holds_first (h : c.stdinbuf.str = line) :
    (c.stdinbuf.first sayMax (by decide)).terminate.Holds (.ofBuffer sayMax sayMax_pos line) := by
  rw [StdinBuf.first_eq_copyText, ← h, StdinBuf.str, CString.ofBuffer_takeWhile]
  exact Field.holds_ofText_ofBuffer sayMax_pos c.stdinbuf.typed

theorem sendsFor_handleChat (h : c.stdinbuf.str = line) :
    SendsFor c (c.handleChat true line).2 (asked c.curChannel line) := by
  unfold handleChat asked
  cases checkIfIsCommand line with
  | none => rfl
  | some command =>
      cases command with
      | say =>
          exact ⟨_, rfl, accepts_requestSay (c.curChannel.holds_terminate channelMax_pos)
            (holds_first h)⟩
      | list => exact ⟨_, rfl, by decide⟩
      | exit => exact ⟨_, rfl, by decide⟩
      | switch => rfl
      | join => exact sendsFor_handleCmdArg accepts_requestJoin c line
      | leave => exact sendsFor_handleCmdArg accepts_requestLeave c line
      | who => exact sendsFor_handleCmdArg accepts_requestWho c line

/-! ## Texts -/

/-- What is shown at a client for a text. -/
def shown : Text → List UInt8
  | .say channel username text => sayLine channel.bytes username.bytes text.bytes
  | .list channels => channelLines channels
  | .who channel names => userLines channel names
  | .error text => errorLine (CString.ofBuffer sayMax sayMax_pos (ascii text)).bytes

/-- A list of channels or users has room in the buffer of a client. -/
def HasRoom : Text → Prop
  | .list channels => channels.length ≤ 1024
  | .who _ names => names.length ≤ 1023
  | _ => True

theorem text_survives {msg : Text} (h : HasRoom msg) : Survives (encodeText msg) (shown msg) := by
  cases msg with
  | say channel username text =>
      exact textSay_survives (Field.holds_ofString _) (Field.holds_ofString _)
        (Field.holds_ofString _)
  | list channels => exact textList_survives (holds_map_ofString channels) h
  | who channel names =>
      exact textWho_survives (holds_map_ofString names) (Field.holds_ofString channel) h
  | error text => exact textError_survives (Field.holds_ofString _)

/-! ## Lines and texts -/

/-- The answer of the server to a request is one of the service. -/
theorem answered_by_service {k : ℕ} {st : State} {s : ChatService} (hrep : Represents k m st)
    (hinv : st.Inv) (himpl : st.Implements s) (hmem : mem.Ample) (env : Env) (a : SockAddr)
    (hinput : HashableInput (.recv a req)) (hup : 0 < env.count → llSize m.userList ≠ 0) :
    ∃ m' s' answers, m.react mem env (.recv a req) = .ok (m', answers) ∧
      ChatService.Step s ⟨env, .recv a req, answers⟩ s' ∧
      ∃ k' st', Represents k' m' st' ∧ st'.Implements s' := by
  have hreact : Lockstep _ (m.react mem env (.recv a req)) (st.react env (.recv a req)) :=
    hrep.react hmem env (.recv a req) hinput
  rcases hinv.outcome env (.recv a req) with ⟨hstumbles, -⟩ | ⟨st', sent, hok, -⟩
  · obtain ⟨channels, leaked, hl, -⟩ := hrep
    exact absurd (hl.size_eq_zero.mpr hstumbles.2.1) (hup hstumbles.2.2)
  · rw [hok] at hreact
    obtain ⟨⟨m', answers⟩, hok', hrep', hsim⟩ := hreact.exists_left
    obtain ⟨s', hstep, himpl'⟩ := himpl.step (p := ⟨env, .recv a req, sent⟩) hinv hok
    have hmatches : Matches ⟨mem, env, .recv a req, answers⟩ ⟨env, .recv a req, sent⟩ :=
      ⟨rfl, rfl, hsim⟩
    exact ⟨m', s', answers, hok', step_of_matches hmatches hstep, _, st', hrep', himpl'⟩

/-- After any sound rounds of the server, a line that is ended at a client that runs at `a`
sends what it asks for, and nothing if it asks for nothing. The server then does what the
service does, if the name in the request is within the tables, and every client shows the
answer it gets, as long as it has room. -/
theorem lines_are_answered {start : Malloc} (hm : allocState start = .ok m)
    (hrun : Run Memory.Serves m ts m') (hts : ∀ t ∈ ts, t.Sound) (hline : c.stdinbuf.str = line)
    (hne : line ≠ []) (a : SockAddr) (hmem : mem.Ample) (env : Env)
    (hup : 0 < env.count → llSize m'.userList ≠ 0) :
    ∃ client sent s, c.react true (.key 10) = .ok ⟨client, sent, []⟩ ∧
      Run ChatService.Step .initial ((ts.filterMap StoredTurn.pass).map StoredPass.pass) s ∧
      (asked c.curChannel line = none → sent = []) ∧
      ∀ req, asked c.curChannel line = some req → ∃ data,
        sent = [⟨c.serverInfo, data⟩] ∧ Accepts data req ∧
        (HashableInput (.recv a req) → ∃ m'' s' answers,
          m'.serverLoop mem env a data = .ok (m'', answers) ∧
          ChatService.Step s ⟨env, .recv a req, answers⟩ s' ∧
          (∃ k st, Represents k m'' st ∧ st.Implements s') ∧
          ∀ d ∈ answers, HasRoom d.msg → Survives (encodeText d.msg) (shown d.msg)) := by
  have hsends := sendsFor_handleChat hline
  obtain ⟨qs, ⟨st, k⟩, hcounts, hmatches, hrep⟩ :=
    represents_of_run hm (run_passes hrun) (sound_passes hts)
  have hinv : st.Inv := State.Reachable.inv ⟨qs, run_of_counts hcounts⟩
  obtain ⟨s, hservice, himpl⟩ := implements_of_run (run_of_counts hcounts)
  refine ⟨_, _, s, react_line hline hne true, run_of_matches hmatches hservice,
    fun hnone => ?_, fun req hasked => ?_⟩
  · rw [hnone] at hsends
    exact hsends
  · rw [hasked] at hsends
    obtain ⟨data, hsent, hacc⟩ := hsends
    refine ⟨data, hsent, hacc, fun hinput => ?_⟩
    obtain ⟨m'', s', answers, hok, hstep, himpl'⟩ :=
      answered_by_service hrep hinv himpl hmem env a hinput hup
    exact ⟨m'', s', answers, (serverLoop_of_accepts hacc m' mem env a).trans hok, hstep, himpl',
      fun _ _ hroom => text_survives hroom⟩

/-- A client that is about to ask who is on a channel. -/
def asking : Client where
  serverInfo := desk 9
  curChannel := .ofText channelMax (ascii "c")
  stdinbuf := ⟨ascii "/who c", by decide⟩
  activityLastMinute := false

/-- Alice and bob log in and join the channel. -/
def arrivals : List StoredTurn :=
  [⟨ample, .at 0, .datagram (desk 1) (requestLogin (.ofString alice)), []⟩,
    ⟨ample, .at 0, .datagram (desk 1) (requestJoin (.ofString chat)), []⟩,
    ⟨ample, .at 0, .datagram (desk 2) (requestLogin (.ofString bob)), []⟩,
    ⟨ample, .at 0, .datagram (desk 2) (requestJoin (.ofString chat)), []⟩]

theorem arrivals_run : ∃ m m', allocState ample = .ok m ∧ Run Memory.Serves m arrivals m' ∧
    (∀ t ∈ arrivals, t.Sound) ∧ (bob, desk 2) ∈ m'.sessions := by
  have halice : Accepts (requestLogin (.ofString alice)) (.login alice) :=
    accepts_requestLogin (Field.holds_ofString alice)
  have hbob : Accepts (requestLogin (.ofString bob)) (.login bob) :=
    accepts_requestLogin (Field.holds_ofString bob)
  have hjoin : Accepts (requestJoin (.ofString chat)) (.join chat) :=
    accepts_requestJoin (Field.holds_ofString chat)
  have hchat : ∀ a, HashableInput (.recv a (.join chat)) := by
    rintro a key ⟨⟩
    exact hashable_chat
  refine ⟨_, _, rfl, .cons (serves_of_step halice rfl) (.cons (serves_of_step hjoin rfl)
    (.cons (serves_of_step hbob rfl) (.cons (serves_of_step hjoin rfl) (.nil _)))), ?_, ?_⟩
  · simp only [arrivals, List.forall_mem_cons]
    refine ⟨sound_of_accepts halice ample_ample ?_,
      sound_of_accepts hjoin ample_ample (hchat _), sound_of_accepts hbob ample_ample ?_,
      sound_of_accepts hjoin ample_ample (hchat _), by simp⟩
    · rintro key ⟨⟩
      exact hashable_alice
    · rintro key ⟨⟩
      exact hashable_bob
  · exact ⟨1, ⟨_, _, rfl, List.mem_cons_of_mem _ List.mem_cons_self⟩, _, rfl, rfl, rfl⟩

/-- Alice asks who is on the channel. -/
theorem lines_are_answered_who : ∃ m m' client data m'' s s' answers,
    allocState ample = .ok m ∧ Run Memory.Serves m arrivals m' ∧ (bob, desk 2) ∈ m'.sessions ∧
      Run ChatService.Step .initial ((arrivals.filterMap StoredTurn.pass).map StoredPass.pass) s ∧
      asking.react true (.key 10) = .ok ⟨client, [⟨desk 9, data⟩], []⟩ ∧
      m'.serverLoop ample (.at 0) (desk 1) data = .ok (m'', answers) ∧
      ChatService.Step s ⟨.at 0, .recv (desk 1) (.who chat), answers⟩ s' := by
  obtain ⟨m, m', hm, hrun, hsound, hbob⟩ := arrivals_run
  have hline : asking.stdinbuf.str = ascii "/who c" := by decide
  have hasked : asked asking.curChannel (ascii "/who c") = some (.who chat) := by decide
  obtain ⟨client, sent, s, hreact, hservice, -, hanswers⟩ := lines_are_answered hm hrun hsound
    hline (by decide) (desk 1) ample_ample (.at 0) (fun hcount => absurd hcount (by decide))
  obtain ⟨data, rfl, -, hall⟩ := hanswers (.who chat) hasked
  obtain ⟨m'', s', answers, hserved, hstep, -⟩ := hall (by
    rintro key ⟨⟩
    exact hashable_chat)
  exact ⟨m, m', client, data, m'', s, s', answers, hm, hrun, hbob, hservice, hreact, hserved,
    hstep⟩

end CliMessaging
