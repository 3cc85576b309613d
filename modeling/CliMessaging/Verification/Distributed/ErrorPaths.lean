import CliMessaging.Verification.Distributed.Invariant
import CliMessaging.Verification.Distributed.Replay
import CliMessaging.Verification.Distributed.Topologies

/-! # Requests that cannot be served

What a server does with a request of a client that is not logged in, and with a
request on a channel that does not exist. -/

namespace CliMessaging.Distributed

open State

/-- The request comes from a client that is not logged in, or it is a say, a who or a
leave on a channel that does not exist. -/
def Refused (st : State) (cur : Addressable) : ClientRequest → Prop
  | .login _ => False
  | .leave name | .say name _ | .who name => ¬ st.LoggedIn cur ∨ st.chan name = none
  | .logout | .join _ | .list | .keepAlive => ¬ st.LoggedIn cur

/-- The requests after which channels are pruned. -/
def MayPrune : ClientRequest → Prop
  | .leave _ | .logout => True
  | _ => False

/-- The messages that a refused request must not cause. -/
def Msg.Spreads : Msg → Prop
  | .text (.say _ _ _) | .s2s (.say _ _ _ _) | .s2s (.join _) => True
  | _ => False

/-- Users, channels and memberships are as before, except that the sender may have been
seen and that channels that were prunable may be gone. -/
structure Unaffected (st : State) (cur : Addressable) (req : ClientRequest) (st' : State) :
    Prop where
  uset : st'.uset = st.uset
  sset : st'.sset = st.sset
  lastSeen : ∀ p, st'.lastSeen p = st.lastSeen p ∨
    ∃ user, st.uset.getUserByIp cur = some user ∧ p = user.ptr
  chan : ∀ name, st'.chan name = st.chan name ∨
    MayPrune req ∧ st'.chan name = none ∧ ∃ c, st.chan name = some c ∧ c.shouldPrune

/-- The handler completes, and a refused request has no effect. -/
structure HandledSafely (st : State) (env : Env) (cur : Addressable) (req : ClientRequest) :
    Prop where
  completes : ∃ st' sent, handler st env cur (.client req) = .ok (st', sent)
  refused : Refused st cur req → ∀ st' sent,
    handler st env cur (.client req) = .ok (st', sent) →
      Unaffected st cur req st' ∧ ∀ d ∈ sent, ¬ d.msg.Spreads

/-- The requests that the handlers are written for. -/
def Served (st : State) (cur : Addressable) : ClientRequest → Prop
  | .login _ | .logout | .keepAlive => True
  | .join _ => st.LoggedIn cur ∨ st.sset.serverList = []
  | .leave _ | .list => st.LoggedIn cur
  | .say name _ | .who name => st.LoggedIn cur ∧ ∃ c, st.chan name = some c

variable {st st' : State} {env : Env} {cur : Addressable} {req : ClientRequest} {user : User}

theorem Unaffected.refl (st : State) (cur : Addressable) (req : ClientRequest) :
    Unaffected st cur req st :=
  ⟨rfl, rfl, fun _ => Or.inl rfl, fun _ => Or.inl rfl⟩

theorem Unaffected.pruned {st₁ : State} (h : Unaffected st cur req st₁)
    (hsame : st₁.chan = st.chan) (hreq : MayPrune req) (hp : st₁.Pruned st') :
    Unaffected st cur req st' := by
  refine ⟨hp.same.uset.trans h.uset, hp.same.sset.trans h.sset, ?_, fun name => ?_⟩
  · rw [hp.same.lastSeen]
    exact h.lastSeen
  · rw [hp.chan, hsame]
    cases hc : st.chan name with
    | none => exact Or.inl rfl
    | some c =>
        cases hprune : c.shouldPrune with
        | false => exact Or.inl (by simp [Option.filter, hprune])
        | true => exact Or.inr ⟨hreq, by simp [Option.filter, hprune], c, rfl, hprune⟩

theorem pruneLeaves_quiet (hs : st.Sound) : ∀ d ∈ pruneLeaves st, ¬ d.msg.Spreads := by
  intro d hd
  obtain ⟨name, -, -, -, -, hmsg⟩ := (mem_pruneLeaves hs).mp hd
  rw [hmsg]
  exact id

theorem HandledSafely.of_ok {st₀ : State} {sent₀ : List Datagram}
    (hok : handler st env cur (.client req) = .ok (st₀, sent₀))
    (hrefused : Refused st cur req → Unaffected st cur req st₀ ∧ ∀ d ∈ sent₀, ¬ d.msg.Spreads) :
    HandledSafely st env cur req := by
  refine ⟨⟨st₀, sent₀, hok⟩, fun href st' sent hok' => ?_⟩
  rw [hok] at hok'
  cases hok'
  exact hrefused href

theorem HandledSafely.ne_error (h : HandledSafely st env cur req) (fault : Fault) :
    handler st env cur (.client req) ≠ .error fault := by
  obtain ⟨st', sent, hok⟩ := h.completes
  simp [hok]

/-! ## Requests that are handled safely -/

theorem handledSafely_logout (hs : st.Sound) : HandledSafely st env cur .logout := by
  obtain ⟨st₁, st', hok, hs₁, hpruned, hsset, hseen, huset, hchan⟩ := handleLogout_spec hs cur
  refine HandledSafely.of_ok hok fun href => ?_
  have hnone : st.uset.getUserByIp cur = none := not_loggedIn.mp href
  have hsame : st₁.chan = st.chan := by
    funext name
    simp [hchan, hnone]
  have hun : Unaffected st cur .logout st₁ :=
    ⟨by simp [huset, UserSet.removeUserByIp, hnone], hsset, fun p => Or.inl (by rw [hseen]),
      fun name => Or.inl (by rw [hsame])⟩
  exact ⟨hun.pruned hsame trivial hpruned, pruneLeaves_quiet hs₁⟩

theorem handledSafely_leave (hs : st.Sound) (name : Cname) (hin : st.LoggedIn cur) :
    HandledSafely st env cur (.leave name) := by
  obtain ⟨user, huser⟩ := hin
  obtain ⟨st₁, st', hok, hs₁, hpruned, hsset, huset, hseen, hchan⟩ :=
    handleLeave_spec hs huser env name
  refine HandledSafely.of_ok hok fun href => ?_
  have hnone : st.chan name = none := href.resolve_left fun hout => hout ⟨user, huser⟩
  have hsame : st₁.chan = st.chan := by
    rw [hchan, hnone, Option.map_none, ← hnone, Function.update_eq_self]
  have hun : Unaffected st cur (.leave name) st₁ := by
    refine ⟨huset, hsset, fun p => ?_, fun other => Or.inl (by rw [hsame])⟩
    by_cases hp : p = user.ptr
    · exact Or.inr ⟨user, huser, hp⟩
    · exact Or.inl (hseen p hp)
  exact ⟨hun.pruned hsame trivial hpruned, pruneLeaves_quiet hs₁⟩

theorem handledSafely_join (hs : st.Sound) (name : Cname)
    (h : st.LoggedIn cur ∨ st.sset.serverList = []) :
    HandledSafely st env cur (.join name) := by
  cases huser : st.uset.getUserByIp cur with
  | none =>
      refine HandledSafely.of_ok (handleJoin_of_stranger huser) fun _ => ?_
      have halone : st.sset.serverList = [] := h.resolve_left (not_loggedIn.mpr huser)
      simp [halone, broadcastS2sJoin, sendMessage, Unaffected.refl]
  | some user =>
      obtain ⟨st', hok, -⟩ := handleJoin_spec hs huser env name
      exact HandledSafely.of_ok hok fun href => absurd ⟨user, huser⟩ href

theorem handledSafely_keepAlive : HandledSafely st env cur .keepAlive := by
  have hok : handler st env cur (.client .keepAlive) =
      .ok (st.cliKeepAlive env.now cur, []) := rfl
  refine HandledSafely.of_ok hok fun href => ?_
  have hnone : st.uset.getUserByIp cur = none := not_loggedIn.mp href
  simp [cliKeepAlive, hnone, Unaffected.refl]

/-! ## Requests that are not -/

theorem loggedIn_of_handledSafely_leave {name : Cname}
    (h : HandledSafely st env cur (.leave name)) : st.LoggedIn cur := by
  by_contra hout
  exact h.ne_error _ (handleLeave_of_stranger (not_loggedIn.mp hout))

theorem loggedIn_of_handledSafely_list (h : HandledSafely st env cur .list) :
    st.LoggedIn cur := by
  by_contra hout
  exact h.ne_error _ (handleList_of_stranger (not_loggedIn.mp hout))

/-- A join of a stranger is broadcast to every adjacent server. -/
theorem alone_of_handledSafely_join {name : Cname}
    (h : HandledSafely st env cur (.join name)) (hout : ¬ st.LoggedIn cur) :
    st.sset.serverList = [] := by
  have hok : handleJoin st env cur name = .ok (st, broadcastS2sJoin st.sset.serverList name) :=
    handleJoin_of_stranger (not_loggedIn.mp hout)
  obtain ⟨-, hquiet⟩ := h.refused hout _ _ hok
  apply List.eq_nil_iff_forall_not_mem.mpr
  intro t ht
  apply hquiet ⟨t, .s2s (.join name)⟩ (List.mem_map_of_mem ht)
  trivial

theorem served_of_handledSafely_say (hs : st.Sound) {name : Cname} {text : SayText}
    (h : HandledSafely st env cur (.say name text)) :
    st.LoggedIn cur ∧ ∃ c, st.chan name = some c := by
  constructor
  · by_contra hout
    exact h.ne_error _ (handleSay_of_stranger (not_loggedIn.mp hout))
  · cases hchan : st.chan name with
    | none => exact absurd (handleSay_of_no_channel hs hchan) (h.ne_error _)
    | some c => exact ⟨c, rfl⟩

theorem served_of_handledSafely_who (hs : st.Sound) {name : Cname}
    (h : HandledSafely st env cur (.who name)) :
    st.LoggedIn cur ∧ ∃ c, st.chan name = some c := by
  constructor
  · by_contra hout
    exact h.ne_error _ (handleWho_of_stranger (not_loggedIn.mp hout))
  · cases hchan : st.chan name with
    | none => exact absurd (handleWho_of_no_channel hs hchan) (h.ne_error _)
    | some c => exact ⟨c, rfl⟩

/-! ## The exact condition -/

/-- In every reachable state, a client request is handled safely exactly when it is
one of those that the handlers are written for. -/
theorem handledSafely_iff_served {adj : List Server} (hst : State.Reachable adj st)
    (env : Env) (cur : Addressable) (req : ClientRequest) :
    HandledSafely st env cur req ↔ Served st cur req := by
  have hs : st.Sound := hst.inv.sound
  cases req with
  | login username =>
      have hok : handler st env cur (.client (.login username)) =
          .ok (st.cliLogin env.now username cur, []) := rfl
      exact iff_of_true (HandledSafely.of_ok hok False.elim) trivial
  | logout => exact iff_of_true (handledSafely_logout hs) trivial
  | join name =>
      refine ⟨fun h => ?_, handledSafely_join hs name⟩
      by_cases hin : st.LoggedIn cur
      · exact Or.inl hin
      · exact Or.inr (alone_of_handledSafely_join h hin)
  | leave name => exact ⟨loggedIn_of_handledSafely_leave, handledSafely_leave hs name⟩
  | say name text =>
      refine ⟨served_of_handledSafely_say hs, ?_⟩
      rintro ⟨⟨user, huser⟩, c, hchan⟩
      refine HandledSafely.of_ok (handleSay_spec hs huser hchan) fun href => ?_
      exact absurd href (by simp [Refused, State.LoggedIn, huser, hchan])
  | list =>
      refine ⟨loggedIn_of_handledSafely_list, ?_⟩
      rintro ⟨user, huser⟩
      refine HandledSafely.of_ok (handleList_spec hs huser) fun href => ?_
      exact absurd ⟨user, huser⟩ href
  | who name =>
      refine ⟨served_of_handledSafely_who hs, ?_⟩
      rintro ⟨⟨user, huser⟩, c, hchan⟩
      refine HandledSafely.of_ok (handleWho_spec hs huser hchan) fun href => ?_
      exact absurd href (by simp [Refused, State.LoggedIn, huser, hchan])
  | keepAlive => exact iff_of_true handledSafely_keepAlive trivial

theorem reachable_initial (adj : List Server) : State.Reachable adj (State.initial adj) :=
  ⟨[], .nil _, by simp⟩

/-- A client that has joined a channel is served, but for a channel that does not exist. -/
theorem handledSafely_iff_served_member :
    ∃ rs st, (State.initial [desk 9]).replay
        [(⟨0, 0⟩, .recv (desk 1) (.client (.login alice))),
          (⟨0, 0⟩, .recv (desk 1) (.client (.join chat)))] = some (rs, st) ∧
      HandledSafely st ⟨1, 7⟩ (desk 1) (.say chat hello) ∧
      HandledSafely st ⟨1, 0⟩ (desk 1) .list ∧ HandledSafely st ⟨1, 0⟩ (desk 1) (.who chat) ∧
      ¬HandledSafely st ⟨1, 0⟩ (desk 1) (.who (.ofBuffer channelMax channelMax_pos [120])) := by
  have hfacts : ((State.initial [desk 9]).replay
      [(⟨0, 0⟩, .recv (desk 1) (.client (.login alice))),
        (⟨0, 0⟩, .recv (desk 1) (.client (.join chat)))]).map (fun p =>
          (p.2.uset.getUserByIp (desk 1), (p.2.chan chat).isSome,
            (p.2.chan (.ofBuffer channelMax channelMax_pos [120])).isSome)) =
              some (some ⟨0, alice, desk 1⟩, true, false) := by decide
  obtain ⟨⟨rs, st⟩, hreplay, hfound⟩ := Option.map_eq_some_iff.mp hfacts
  simp only [Prod.mk.injEq] at hfound
  obtain ⟨huser, hchat, hnone⟩ := hfound
  have hst : State.Reachable [desk 9] st := State.reachable_of_replay hreplay
  have hserved : st.LoggedIn (desk 1) ∧ ∃ c, st.chan chat = some c :=
    ⟨⟨_, huser⟩, Option.isSome_iff_exists.mp hchat⟩
  refine ⟨rs, st, hreplay, (handledSafely_iff_served hst _ _ _).mpr hserved,
    (handledSafely_iff_served hst _ _ _).mpr hserved.1,
    (handledSafely_iff_served hst _ _ _).mpr hserved, fun hsafe => ?_⟩
  obtain ⟨-, c, hc⟩ := (handledSafely_iff_served hst _ _ _).mp hsafe
  rw [hc] at hnone
  cases hnone

/-- A list request from an address that is not logged in brings a fresh server down. -/
theorem list_of_stranger_not_safe :
    ¬ ∀ (adj : List Server) (st : State) (env : Env) (cur : Addressable)
      (req : ClientRequest), State.Reachable adj st → HandledSafely st env cur req := by
  intro h
  have hsafe := h [] _ ⟨0, 0⟩ ⟨⟨10, 0, 0, 1⟩, 5000⟩ .list (reachable_initial [])
  exact hsafe.ne_error .nullPointer rfl

end CliMessaging.Distributed
