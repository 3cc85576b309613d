import CliMessaging.Model.Standalone.Server
import CliMessaging.Verification.Standalone.SayFanOut

/-! # Datagrams at the server

How the receive loop reads the requests of a client, and what a round of it amounts to. -/

namespace CliMessaging.Standalone

open State Transition

variable {st st' : State} {t : Turn} {a : SockAddr} {name : Uname} {ch : Cname}
  {req : ClientRequest} {data : List UInt8}

/-! ## Requests of a client -/

theorem requestType_size_le (t : RequestType) : t.size ≤ bufSize := by
  cases t <;> decide

/-- A request of the right size arrives as it is and passes the test. -/
theorem recvfrom_request (t : RequestType) {body : List UInt8}
    (hlen : 4 + body.length = t.size) :
    ∃ rest, recvfrom bufSize (encodeInt t.code ++ body) =
        (encodeInt t.code ++ (body ++ rest), t.size) ∧
      testValid (encodeInt t.code ++ (body ++ rest)) t.size = true := by
  have hsize : (encodeInt t.code ++ body).length = t.size := by
    rw [List.length_append, length_encodeInt, hlen]
  refine ⟨zeros (bufSize - t.size), ?_, ?_⟩
  · rw [recvfrom_of_le (hsize.trans_le (requestType_size_le t)), hsize, List.append_assoc]
  · simp [testValid]

theorem accepts_of_read (t : RequestType) {body : List UInt8} (hlen : 4 + body.length = t.size)
    (hread : ∀ rest, readRequest (encodeInt t.code ++ (body ++ rest)) = some req) :
    Accepts (encodeInt t.code ++ body) req := by
  obtain ⟨rest, hrecv, hvalid⟩ := recvfrom_request t hlen
  rw [Accepts, hrecv]
  exact ⟨hvalid, hread rest⟩

theorem readRequest_of_code (t : RequestType) (buffer : List UInt8) :
    readRequest (encodeInt t.code ++ buffer) = some (match t with
      | .login => .login (.ofBuffer usernameMax (by decide) buffer)
      | .logout => .logout
      | .join => .join (.ofBuffer channelMax (by decide) buffer)
      | .leave => .leave (.ofBuffer channelMax (by decide) buffer)
      | .say => .say (.ofBuffer channelMax (by decide) buffer)
          (.ofBuffer sayMax (by decide) (buffer.drop channelMax))
      | .list => .list
      | .who => .who (.ofBuffer channelMax (by decide) buffer)
      | .keepAlive => .keepAlive) := by
  rw [readRequest, decodeInt_encodeInt, RequestType.ofCode_code, ← List.drop_drop]
  rfl

/-- A request that consists of one field. -/
theorem accepts_of_field (t : RequestType) (mk : Cname → ClientRequest)
    (hsize : t.size = 4 + channelMax)
    (hread : ∀ buffer, readRequest (encodeInt t.code ++ buffer) =
      some (mk (.ofBuffer channelMax (by decide) buffer)))
    {f : Field channelMax} (h : f.Holds ch) : Accepts (encodeInt t.code ++ f.bytes) (mk ch) := by
  apply accepts_of_read t (by rw [f.length_eq, hsize])
  intro rest
  rw [hread, h.ofBuffer]

theorem accepts_requestLogin {f : Field usernameMax} (h : f.Holds name) :
    Accepts (requestLogin f) (.login name) :=
  accepts_of_field .login .login rfl (readRequest_of_code .login) h

theorem accepts_requestJoin {f : Field channelMax} (h : f.Holds ch) :
    Accepts (requestJoin f) (.join ch) :=
  accepts_of_field .join .join rfl (readRequest_of_code .join) h

theorem accepts_requestLeave {f : Field channelMax} (h : f.Holds ch) :
    Accepts (requestLeave f) (.leave ch) :=
  accepts_of_field .leave .leave rfl (readRequest_of_code .leave) h

theorem accepts_requestWho {f : Field channelMax} (h : f.Holds ch) :
    Accepts (requestWho f) (.who ch) :=
  accepts_of_field .who .who rfl (readRequest_of_code .who) h

theorem accepts_requestSay {f : Field channelMax} {g : Field sayMax} {text : SayText}
    (h : f.Holds ch) (k : g.Holds text) : Accepts (requestSay f g) (.say ch text) := by
  apply accepts_of_read .say (by rw [List.length_append, f.length_eq, g.length_eq]; rfl)
  intro rest
  rw [readRequest_of_code, List.append_assoc, h.ofBuffer, List.drop_left' f.length_eq, k.ofBuffer]

/-- What is not accepted is answered by an error at most and changes nothing. -/
theorem serverLoop_of_not_accepts (h : ¬ ∃ req, Accepts data req)
    (st : State) (env : Env) (client : SockAddr) :
    ∃ sent, serverLoop st env client data = .ok (st, sent) := by
  by_cases hvalid : testValid (recvfrom bufSize data).1 (recvfrom bufSize data).2 = true
  · cases hread : readRequest (recvfrom bufSize data).1 with
    | some req => exact absurd ⟨req, hvalid, hread⟩ h
    | none => exact ⟨[], by simp only [serverLoop, hvalid, hread, if_true]⟩
  · exact ⟨_, by simp only [serverLoop, hvalid]; rfl⟩

/-! ## Rounds of the loops -/

/-- A round on an accepted datagram is a pass of the server on its request. -/
theorem State.Serves.step_of_accepts (h : st.Serves t st') (hevent : t.event = .datagram a data)
    (hacc : Accepts data req) : st.Step ⟨t.env, .recv a req, t.sent⟩ st' := by
  rw [State.Serves, hevent, State.serve, hacc.serverLoop] at h
  exact h

/-- Every other round is a pass of the cleanup loop or leaves the state as it is. -/
theorem State.Serves.cases (h : st.Serves t st') : st' = st ∨
    (∃ a data req, t.event = .datagram a data ∧ Accepts data req ∧
      st.Step ⟨t.env, .recv a req, t.sent⟩ st') ∨ st.Step ⟨t.env, .scan, t.sent⟩ st' := by
  cases hevent : t.event with
  | cleanup =>
      rw [State.Serves, hevent] at h
      exact .inr (.inr h)
  | datagram a data =>
      by_cases hvalid : testValid (recvfrom bufSize data).1 (recvfrom bufSize data).2 = true
      · cases hread : readRequest (recvfrom bufSize data).1 with
        | some req =>
            have hacc : Accepts data req := ⟨hvalid, hread⟩
            exact .inr (.inl ⟨a, data, req, rfl, hacc, h.step_of_accepts hevent hacc⟩)
        | none =>
            simp only [State.Serves, hevent, State.serve, serverLoop, hvalid, if_true, hread] at h
            exact .inl (Prod.mk.inj (Except.ok.inj h)).1.symm
      · simp only [State.Serves, hevent, State.serve, serverLoop, hvalid] at h
        exact .inl (Prod.mk.inj (Except.ok.inj h)).1.symm

theorem State.Inv.of_serves (h : st.Inv) (hserves : st.Serves t st') : st'.Inv := by
  rcases hserves.cases with rfl | ⟨a, data, req, -, -, hstep⟩ | hstep
  · exact h
  · exact h.of_effect (h.effect_of_ok hstep)
  · exact h.of_effect (h.effect_of_ok hstep)

/-! ## Staying on a channel -/

/-- A round that processes no leave of `ch` from `name`. -/
def State.ServesKeeping (ch : Cname) (name : Uname) (st : State) (t : Turn) (st' : State) :
    Prop :=
  st.Serves t st' ∧
    ∀ a data, t.event = .datagram a data → Accepts data (.leave ch) → (name, a) ∉ st.sessions

/-- In the rounds `ts` that lead to `st`, the datagram was processed while `name` was logged
in at `a`, and no leave of `ch` from `name` since then. -/
def ProcessedFor (ts : List Turn) (st : State) (name : Uname) (a : SockAddr) (ch : Cname)
    (data : List UInt8) : Prop :=
  ∃ past t later s₁ s₂, ts = past ++ t :: later ∧ Run State.Serves State.initial past s₁ ∧
    s₁.Serves t s₂ ∧ t.event = .datagram a data ∧ (name, a) ∈ s₁.sessions ∧
    Run (State.ServesKeeping ch name) s₂ later st

/-- A subscription outlives every pass but a leave. -/
theorem State.Inv.subscribed_of_step {p : Pass} (h : st.Inv)
    (hsub : (ch, name) ∈ st.subscriptions) (hstep : st.Step p st')
    (hkeep : ∀ a, p.input = .recv a (.leave ch) → (name, a) ∉ st.sessions) :
    (ch, name) ∈ st'.subscriptions := by
  have hresub := h.resubscribes (h.effect_of_ok hstep)
  cases hinput : p.input with
  | scan =>
      rw [hinput] at hresub
      exact hresub ▸ hsub
  | recv a req =>
      rw [hinput] at hresub
      cases req with
      | join other =>
          by_cases hnobody : ∀ n, (n, a) ∉ st.sessions
          · rw [hresub.2 hnobody]
            exact hsub
          · obtain ⟨n, hn⟩ := not_forall_not.mp hnobody
            rw [hresub.1 n hn]
            exact Set.mem_insert_of_mem _ hsub
      | leave other =>
          by_cases hnobody : ∀ n, (n, a) ∉ st.sessions
          · rw [hresub.2 hnobody]
            exact hsub
          · obtain ⟨n, hn⟩ := not_forall_not.mp hnobody
            rw [(hresub.1 n hn).1]
            refine ⟨hsub, fun heq => ?_⟩
            obtain ⟨rfl, rfl⟩ := Prod.mk.inj heq
            exact hkeep a hinput hn
      | _ => exact hresub ▸ hsub

theorem State.Inv.subscribed_of_serves (h : st.Inv) (hsub : (ch, name) ∈ st.subscriptions)
    (hserves : st.ServesKeeping ch name t st') : (ch, name) ∈ st'.subscriptions := by
  obtain ⟨hserves, hkeep⟩ := hserves
  rcases hserves.cases with rfl | ⟨a, data, req, hevent, hacc, hstep⟩ | hstep
  · exact hsub
  · apply h.subscribed_of_step hsub hstep
    intro b hinput
    obtain ⟨rfl, rfl⟩ := Input.recv.inj hinput
    exact hkeep a data hevent hacc
  · apply h.subscribed_of_step hsub hstep
    intro b hinput
    cases hinput

theorem inv_of_run {ts : List Turn} (hrun : Run State.Serves State.initial ts st) : st.Inv :=
  hrun.invariant (P := fun _ => True) (fun _ _ _ h _ hstep => h.of_serves hstep)
    (fun _ _ => trivial) State.inv_initial

/-- Whoever joined and has not left is on the list of the channel. -/
theorem ProcessedFor.subscribed {ts : List Turn} (h : ProcessedFor ts st name a ch data)
    (hacc : Accepts data (.join ch)) : (ch, name) ∈ st.subscriptions := by
  obtain ⟨past, t, later, s₁, s₂, -, hpast, hserves, hevent, hname, hlater⟩ := h
  have hinv := inv_of_run hpast
  have hjoined : (ch, name) ∈ s₂.subscriptions := by
    have hstep := hserves.step_of_accepts hevent hacc
    have hresub := hinv.resubscribes (hinv.effect_of_ok hstep)
    rw [hresub.1 name hname]
    exact Set.mem_insert _ _
  have hall := hlater.invariant (I := fun s => s.Inv ∧ (ch, name) ∈ s.subscriptions)
    (P := fun _ => True)
    (fun _ _ _ hs _ hstep => ⟨hs.1.of_serves hstep.1, hs.1.subscribed_of_serves hs.2 hstep⟩)
    (fun _ _ => trivial) ⟨hinv.of_serves hserves, hjoined⟩
  exact hall.2

/-! ## Two clients on one channel -/

theorem Accepts.unique {req' : ClientRequest} (h : Accepts data req) (h' : Accepts data req') :
    req = req' :=
  Option.some.inj (h.2.symm.trans h'.2)

/-- A datagram is served unless it runs into the empty list of users. -/
theorem State.Inv.serves (h : st.Inv) (hacc : Accepts data req) {env : Env}
    (hcount : env.count ≤ 0) (a : SockAddr) :
    ∃ t st', t.event = .datagram a data ∧ st.Serves t st' ∧ st.Relogs (.recv a req) st' := by
  rcases h.outcome env (.recv a req) with ⟨hstumbles, -⟩ | ⟨st', sent, hok, heff⟩
  · have hpos := hstumbles.2.2
    omega
  · refine ⟨⟨env, .datagram a data, sent⟩, st', rfl, ?_, h.relogs heff⟩
    exact (hacc.serverLoop st env a).trans hok

/-- Two clients at two addresses can log in under two names and join one channel. -/
theorem exists_rounds {u v : Uname} {b : SockAddr} {login login' join join' : List UInt8}
    (hu : Accepts login (.login u)) (hv : Accepts login' (.login v))
    (hjoin : Accepts join (.join ch)) (hjoin' : Accepts join' (.join ch)) (huv : u ≠ v)
    (hab : a ≠ b) :
    ∃ ts st, Run State.Serves State.initial ts st ∧ (u, a) ∈ st.sessions ∧
      (v, b) ∈ st.sessions ∧ ProcessedFor ts st u a ch join ∧ ProcessedFor ts st v b ch join' := by
  have hcount : (Env.at 0).count ≤ 0 := le_rfl
  obtain ⟨t₁, s₁, -, h₁, hlogin⟩ := State.inv_initial.serves hu hcount a
  have hinv₁ := State.inv_initial.of_serves h₁
  obtain ⟨t₂, s₂, -, h₂, hlogin'⟩ := hinv₁.serves hv hcount b
  have hinv₂ := hinv₁.of_serves h₂
  obtain ⟨t₃, s₃, he₃, h₃, hsame⟩ := hinv₂.serves hjoin hcount a
  have hinv₃ := hinv₂.of_serves h₃
  obtain ⟨t₄, s₄, he₄, h₄, hsame'⟩ := hinv₃.serves hjoin' hcount b
  have hua : (u, a) ∈ s₂.sessions := by
    rw [hlogin', hlogin]
    exact .inr ⟨.inl rfl, huv, hab⟩
  have hvb : (v, b) ∈ s₂.sessions := by
    rw [hlogin']
    exact .inl rfl
  have hjoins : s₃.sessions = s₂.sessions := hsame
  have hjoins' : s₄.sessions = s₂.sessions := hsame'.trans hjoins
  have hkeep : s₃.ServesKeeping ch u t₄ s₄ := by
    refine ⟨h₄, fun c data hevent hleave => ?_⟩
    rw [he₄] at hevent
    obtain ⟨rfl, rfl⟩ := Event.datagram.inj hevent
    cases hjoin'.unique hleave
  refine ⟨[t₁, t₂, t₃, t₄], s₄, .cons h₁ (.cons h₂ (.cons h₃ (.single h₄))), hjoins' ▸ hua,
    hjoins' ▸ hvb, ?_, ?_⟩
  · exact ⟨[t₁, t₂], t₃, [t₄], s₂, s₃, rfl, .cons h₁ (.single h₂), h₃, he₃, hua, .single hkeep⟩
  · exact ⟨[t₁, t₂, t₃], t₄, [], s₃, s₄, rfl, .cons h₁ (.cons h₂ (.single h₃)), h₄, he₄,
      hjoins ▸ hvb, .nil _⟩

/-! ## The history of a subscription -/

/-- A round that leaves `name` on the channel has processed no leave of it. -/
theorem State.Inv.servesKeeping (h : st.Inv) (hserves : st.Serves t st')
    (hsub : (ch, name) ∈ st'.subscriptions) : st.ServesKeeping ch name t st' := by
  refine ⟨hserves, fun a data hevent hleave hname => ?_⟩
  have hresub := h.resubscribes (h.effect_of_ok (hserves.step_of_accepts hevent hleave))
  rw [(hresub.1 name hname).1] at hsub
  exact hsub.2 rfl

/-- A new subscription is made by a join. -/
theorem State.Inv.joined_of_serves (h : st.Inv) (hserves : st.Serves t st')
    (hnew : (ch, name) ∉ st.subscriptions) (hsub : (ch, name) ∈ st'.subscriptions) :
    ∃ a data, t.event = .datagram a data ∧ Accepts data (.join ch) ∧ (name, a) ∈ st.sessions := by
  rcases hserves.cases with rfl | ⟨a, data, req, hevent, hacc, hstep⟩ | hstep
  · exact absurd hsub hnew
  · have hresub := h.resubscribes (h.effect_of_ok hstep)
    cases req with
    | join other =>
        by_cases hnobody : ∀ n, (n, a) ∉ st.sessions
        · rw [hresub.2 hnobody] at hsub
          exact absurd hsub hnew
        · obtain ⟨n, hn⟩ := not_forall_not.mp hnobody
          rw [hresub.1 n hn] at hsub
          rcases hsub with heq | hold
          · obtain ⟨rfl, rfl⟩ := Prod.mk.inj heq
            exact ⟨a, data, hevent, hacc, hn⟩
          · exact absurd hold hnew
    | leave other =>
        by_cases hnobody : ∀ n, (n, a) ∉ st.sessions
        · rw [hresub.2 hnobody] at hsub
          exact absurd hsub hnew
        · obtain ⟨n, hn⟩ := not_forall_not.mp hnobody
          rw [(hresub.1 n hn).1] at hsub
          exact absurd hsub.1 hnew
    | _ => exact absurd (hresub ▸ hsub) hnew
  · have hresub : st'.subscriptions = st.subscriptions := h.resubscribes (h.effect_of_ok hstep)
    exact absurd (hresub ▸ hsub) hnew

/-- After any rounds of the server, a name is on the list of a channel if and only if a client
that was logged in under it has joined the channel and none has left it since. Logins,
logouts and time-outs do not matter. -/
theorem subscribed_iff_joined {ts : List Turn} (hrun : Run State.Serves State.initial ts st)
    (ch : Cname) (name : Uname) : (ch, name) ∈ st.subscriptions ↔
      ∃ a data, Accepts data (.join ch) ∧ ProcessedFor ts st name a ch data := by
  constructor
  · have hall := hrun.history (P := fun _ => True)
      (I := fun past s => Run State.Serves State.initial past s ∧ ((ch, name) ∈ s.subscriptions →
        ∃ a data, Accepts data (.join ch) ∧ ProcessedFor past s name a ch data))
      (fun past s t s' hpast _ hserves => by
        have hinv := inv_of_run hpast.1
        refine ⟨hpast.1.snoc hserves, fun hsub => ?_⟩
        by_cases hold : (ch, name) ∈ s.subscriptions
        · obtain ⟨a, data, hacc, before, t₁, later, s₁, s₂, rfl, hprocessed⟩ := hpast.2 hold
          obtain ⟨hbefore, hjoin, hevent, hname, hlater⟩ := hprocessed
          refine ⟨a, data, hacc, before, t₁, later ++ [t], s₁, s₂, ?_, hbefore, hjoin, hevent,
            hname, hlater.snoc (hinv.servesKeeping hserves hsub)⟩
          rw [List.append_assoc, List.cons_append]
        · obtain ⟨a, data, hevent, hacc, hname⟩ := hinv.joined_of_serves hserves hold hsub
          exact ⟨a, data, hacc, past, t, [], s, s', rfl, hpast.1, hserves, hevent, hname, .nil s'⟩)
      (fun _ _ => trivial) [] ⟨.nil _, fun hsub => by
        obtain ⟨c, hc, -⟩ := hsub
        cases hc⟩
    exact hall.2
  · rintro ⟨a, data, hacc, hprocessed⟩
    exact hprocessed.subscribed hacc

/-- Alice and bob log in and join a channel. -/
theorem subscribed_iff_joined_both : ∃ ts st, Run State.Serves State.initial ts st ∧
    (chat, alice) ∈ st.subscriptions ∧ (chat, bob) ∈ st.subscriptions := by
  have hjoin : Accepts (requestJoin (.ofString chat)) (.join chat) :=
    accepts_requestJoin (Field.holds_ofString chat)
  obtain ⟨ts, st, hrun, -, -, halice, hbob⟩ := exists_rounds (u := alice) (v := bob) (a := desk 1)
    (b := desk 2) (accepts_requestLogin (Field.holds_ofString _))
    (accepts_requestLogin (Field.holds_ofString _)) hjoin hjoin (by decide) (by decide)
  exact ⟨ts, st, hrun, (subscribed_iff_joined hrun chat alice).mpr ⟨_, _, hjoin, halice⟩,
    (subscribed_iff_joined hrun chat bob).mpr ⟨_, _, hjoin, hbob⟩⟩

end CliMessaging.Standalone
