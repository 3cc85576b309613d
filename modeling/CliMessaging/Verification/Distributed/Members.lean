import CliMessaging.Verification.Distributed.Invariant
import CliMessaging.Verification.Distributed.Replay
import CliMessaging.Verification.Distributed.Topologies

/-! # Members of channels

The users of a channel are kept apart from the users that are logged in. They stay in
step as long as no login displaces a user that is on a channel. -/

namespace CliMessaging.Distributed

open State Transition

/-- The users of the channel are logged in, and no two share a name or an address. -/
structure Channel.Attended (uset : UserSet) (c : Channel) : Prop where
  coherent : c.uset.Coherent
  loggedIn : ∀ u ∈ c.userList, ∃ v ∈ uset.userList, v.name = u.name ∧ v.addr = u.addr

def State.Attended (st : State) : Prop :=
  ∀ name c, st.chan name = some c → c.Attended st.uset

/-- Every user of a channel has the name and the address of a logged-in user. -/
def State.NoGhosts (st : State) : Prop :=
  ∀ name c, st.chan name = some c →
    ∀ u ∈ c.userList, ∃ v ∈ st.uset.userList, v.name = u.name ∧ v.addr = u.addr

def State.OnChannel (st : State) (u : User) : Prop :=
  ∃ name c, st.chan name = some c ∧ ∃ w ∈ c.userList, w.name = u.name ∧ w.addr = u.addr

/-- Every say in `sent` goes to a client that is logged in. -/
def State.SaysToUsers (st : State) (sent : List Datagram) : Prop :=
  ∀ d ∈ sent, ∀ channel username text, d.msg = .text (.say channel username text) →
    ∃ v ∈ st.uset.userList, v.addr = d.dst

/-- A login that takes the name or the address, but not both, of a user on a channel. -/
def Reaction.DisplacesMember (r : Reaction) : Prop :=
  ∃ username src, r.input = .recv src (.client (.login username)) ∧
    ∃ u ∈ r.before.uset.userList,
      ¬ (u.name = username ↔ u.addr = src) ∧ r.before.OnChannel u

/-- The reaction leaves no ghost and sends no say to a client that is not logged in. -/
structure Reaction.Faithful (r : Reaction) : Prop where
  after : ∀ st', r.after = some st' → st'.NoGhosts
  sends : r.before.SaysToUsers r.sent

variable {adj : List Server} {st st' : State} {uset : UserSet} {c : Channel} {user : User}

/-! ## Channels -/

namespace Channel

theorem attended_of_no_users (huset : c.uset = .empty) : c.Attended uset := by
  refine ⟨huset ▸ UserSet.coherent_empty, fun u hu => ?_⟩
  rw [userList, huset] at hu
  cases hu

/-- A logged-in user is in a channel's user set under its name and its address, or
under neither. -/
theorem Attended.fits (h : c.Attended uset) (hcoh : uset.Coherent)
    (huser : user ∈ uset.userList) : c.uset.Fits user := by
  intro u hu
  obtain ⟨v, hv, hname, haddr⟩ := h.loggedIn u hu
  rw [← hname, ← haddr]
  exact hcoh.fits_of_mem huser v hv

theorem Attended.addUser (h : c.Attended uset) (huser : user ∈ uset.userList) :
    (c.addUser user).Attended uset := by
  obtain ⟨hcoh, hmem⟩ := h.coherent.channelAddUser user
  refine ⟨hcoh, fun u hu => ?_⟩
  rcases (hmem u).mp hu with ⟨hold, -⟩ | hnew
  · exact h.loggedIn u hold
  · exact ⟨user, huser, by rw [hnew], by rw [hnew]⟩

theorem Attended.removeUser (h : c.Attended uset) (hcoh : uset.Coherent)
    (huser : user ∈ uset.userList) : (c.removeUser user).Attended uset := by
  obtain ⟨hcoh', hmem⟩ := h.coherent.removeUser (h.fits hcoh huser)
  exact ⟨hcoh', fun u hu => h.loggedIn u ((hmem u).mp hu).1⟩

/-- A user that is removed everywhere leaves the others logged in. -/
theorem Attended.removeUser_both (h : c.Attended uset) (hcoh : uset.Coherent)
    (huser : user ∈ uset.userList) : (c.removeUser user).Attended (uset.removeUser user) := by
  obtain ⟨hcoh', hmem⟩ := h.coherent.removeUser (h.fits hcoh huser)
  obtain ⟨-, hmem'⟩ := hcoh.removeUser (hcoh.fits_of_mem huser)
  refine ⟨hcoh', fun u hu => ?_⟩
  obtain ⟨hu, hother⟩ := (hmem u).mp hu
  obtain ⟨v, hv, hname, haddr⟩ := h.loggedIn u hu
  refine ⟨v, (hmem' v).mpr ⟨hv, ?_⟩, hname, haddr⟩
  rw [hname, haddr]
  exact hother

theorem Attended.of_uset {c' : Channel} (h : c.Attended uset) (huset : c'.uset = c.uset) :
    c'.Attended uset :=
  ⟨huset ▸ h.coherent, fun u hu => h.loggedIn u (by rwa [userList, huset] at hu)⟩

theorem foldl_removeServer_uset (dead : List Server) (c : Channel) :
    (dead.foldl Channel.removeServer c).uset = c.uset := by
  induction dead generalizing c with
  | nil => rfl
  | cons t dead ih => exact (ih (c.removeServer t)).trans rfl

end Channel

/-! ## Steps -/

namespace State

theorem Attended.noGhosts (h : st.Attended) : st.NoGhosts :=
  fun name c hc => (h name c hc).loggedIn

theorem attended_of_uset (huset : st'.uset = st.uset)
    (hchan : ∀ name c, st'.chan name = some c → c.Attended st.uset) : st'.Attended :=
  fun name c hc => huset ▸ hchan name c hc

theorem Attended.pruned (h : st.Attended) (hp : st.Pruned st') : st'.Attended :=
  attended_of_uset hp.same.uset (hp.forall_chan h)

theorem Attended.removeUser (h : st.Attended) (hinv : st.Inv adj)
    (huser : user ∈ st.uset.userList) (hok : st.removeUser user = .ok st') : st'.Attended := by
  obtain ⟨st₁, hrm, -, -, huset, -, hchan⟩ := hinv.sound.removeUser user
  rw [hrm] at hok
  cases hok
  intro name c hc
  rw [hchan] at hc
  obtain ⟨d, hd, rfl⟩ := Option.map_eq_some_iff.mp hc
  rw [huset]
  exact (h name d hd).removeUser_both hinv.users huser

/-- A login that displaces no user of a channel keeps every user of a channel logged in. -/
theorem Attended.cliLogin (h : st.Attended) (hinv : st.Inv adj) {now : ℕ} {uname : Uname}
    {cur : Addressable}
    (hkeep : ∀ u ∈ st.uset.userList, st.OnChannel u → (u.name = uname ↔ u.addr = cur)) :
    (st.cliLogin now uname cur).Attended := by
  obtain ⟨-, hmem⟩ := hinv.users.addUser ⟨st.nextUser, uname, cur⟩
  intro name c hc
  have hold : c.Attended st.uset := h name c hc
  refine ⟨hold.coherent, fun u hu => ?_⟩
  obtain ⟨v, hv, hname, haddr⟩ := hold.loggedIn u hu
  have hboth := hkeep v hv ⟨name, c, hc, u, hu, hname.symm, haddr.symm⟩
  by_cases hvname : v.name = uname
  · refine ⟨⟨st.nextUser, uname, cur⟩, (hmem _).mpr (Or.inr rfl), ?_, ?_⟩
    · rw [← hname, hvname]
    · rw [← haddr, hboth.mp hvname]
  · refine ⟨v, (hmem v).mpr (Or.inl ⟨hv, hvname, ?_⟩), hname, haddr⟩
    exact fun hvaddr => hvname (hboth.mpr hvaddr)

/-- A login that displaces a user of a channel leaves a ghost on it. -/
theorem Inv.ghost_of_displaced (hinv : st.Inv adj) {now : ℕ} {uname : Uname}
    {cur : Addressable} {u : User} (hu : ¬ (u.name = uname ↔ u.addr = cur))
    (hon : st.OnChannel u) : ¬ (st.cliLogin now uname cur).NoGhosts := by
  obtain ⟨-, hmem⟩ := hinv.users.addUser ⟨st.nextUser, uname, cur⟩
  intro hno
  obtain ⟨name, c, hc, w, hw, hname, haddr⟩ := hon
  obtain ⟨v, hv, hvname, hvaddr⟩ := hno name c hc w hw
  rw [hname] at hvname
  rw [haddr] at hvaddr
  apply hu
  rcases (hmem v).mp hv with ⟨-, hname', haddr'⟩ | rfl
  · rw [← hvname, ← hvaddr]
    exact iff_of_false hname' haddr'
  · exact iff_of_true hvname.symm hvaddr.symm

theorem saysToUsers_pruneLeaves {st₁ : State} (hs : st₁.Sound) :
    st.SaysToUsers (pruneLeaves st₁) := by
  intro d hd channel username text hmsg
  obtain ⟨name, -, -, -, -, hleave⟩ := (mem_pruneLeaves hs).mp hd
  rw [hleave] at hmsg
  cases hmsg

theorem saysToUsers_sendMessage {targets : List Addressable} {msg : Msg}
    (hmsg : ∀ channel username text, msg ≠ .text (.say channel username text)) :
    st.SaysToUsers (sendMessage targets msg) := by
  intro d hd channel username text heq
  obtain ⟨target, -, rfl⟩ := List.mem_map.mp hd
  exact absurd heq (hmsg channel username text)

theorem SaysToUsers.append {sent sent' : List Datagram} (h : st.SaysToUsers sent)
    (h' : st.SaysToUsers sent') : st.SaysToUsers (sent ++ sent') := by
  intro d hd
  rcases List.mem_append.mp hd with hd | hd
  · exact h d hd
  · exact h' d hd

theorem saysToUsers_nil (st : State) : st.SaysToUsers [] := by
  intro d hd
  cases hd

/-- The users of a channel are where its says are sent. -/
theorem Attended.saysToUsers (h : st.Attended) {name : Cname} (hc : st.chan name = some c)
    (username : Uname) (text : SayText) :
    st.SaysToUsers (broadcastSay (c.userList.map User.addr) name username text) := by
  intro d hd _ _ _ _
  obtain ⟨target, htarget, rfl⟩ := List.mem_map.mp hd
  obtain ⟨u, hu, rfl⟩ := List.mem_map.mp htarget
  obtain ⟨v, hv, -, haddr⟩ := (h name c hc).loggedIn u hu
  exact ⟨v, hv, haddr⟩

theorem Attended.userTimeoutPass {now : ℕ} (h : st.Attended) (hinv : st.Inv adj)
    (hok : userTimeoutPass st now = .ok st') : st'.Attended := by
  have hboth : st'.Inv adj ∧ st'.Attended := by
    apply removeIdleUsers_induction ?_ hinv.users.nodup (fun _ hu => hu) ⟨hinv, h⟩ hok
    rintro st u st' ⟨hinv, hatt⟩ hu hrm
    exact ⟨⟨hinv.removeUser hu hrm, hatt.removeUser hinv hu hrm⟩, hinv.others_stay hu hrm⟩
  exact hboth.2

/-- A pass that displaces no user of a channel keeps every user of a channel logged in
and sends says to logged-in users only. -/
theorem Attended.of_effect {env : Env} {input : Input} {sent : List Datagram}
    (h : st.Attended) (hinv : st.Inv adj) (heff : st.Effect env input st' sent)
    (hkeep : ∀ username cur, input = .recv cur (.client (.login username)) →
      ∀ u ∈ st.uset.userList, st.OnChannel u → (u.name = username ↔ u.addr = cur)) :
    st'.Attended ∧ st.SaysToUsers sent := by
  have hlookup : ∀ {cur user}, st.uset.getUserByIp cur = some user → user ∈ st.uset.userList :=
    fun huser => (hinv.users.getUserByIp_eq_some.mp huser).1
  cases heff with
  | login cur username =>
      exact ⟨h.cliLogin hinv (hkeep username cur rfl), saysToUsers_nil st⟩
  | @logout cur st₁ _ hs₁ hpruned hsset huset hchan =>
      refine ⟨Attended.pruned (fun name c hc => ?_) hpruned, saysToUsers_pruneLeaves hs₁⟩
      rw [hchan] at hc
      obtain ⟨d, hd, rfl⟩ := Option.map_eq_some_iff.mp hc
      rw [huset, UserSet.removeUserByIp]
      cases huser : st.uset.getUserByIp cur with
      | none => exact h name d hd
      | some user => exact (h name d hd).removeUser_both hinv.users (hlookup huser)
  | strangerJoin name hnone => exact ⟨h, saysToUsers_sendMessage (by simp)⟩
  | @join cur name user _ huser hs' hsset huset hchan =>
      refine ⟨attended_of_uset huset (forall_chan_of_update h hchan ?_),
        saysToUsers_sendMessage (by simp)⟩
      rintro c ⟨⟩
      refine Channel.Attended.addUser ?_ (hlookup huser)
      cases hc : st.chan name with
      | none => exact Channel.attended_of_no_users rfl
      | some c => exact h name c hc
  | @leave cur name user st₁ _ huser hs₁ hpruned hsset huset hchan =>
      refine ⟨Attended.pruned (attended_of_uset huset (forall_chan_of_update h hchan ?_)) hpruned,
        saysToUsers_pruneLeaves hs₁⟩
      intro c hc
      obtain ⟨d, hd, rfl⟩ := Option.map_eq_some_iff.mp hc
      exact (h name d hd).removeUser hinv.users (hlookup huser)
  | @say cur name user c text huser hc =>
      exact ⟨h, (h.saysToUsers hc user.name text).append (saysToUsers_sendMessage (by simp))⟩
  | list names huser => exact ⟨h, saysToUsers_sendMessage (by simp)⟩
  | who name names huser => exact ⟨h, saysToUsers_sendMessage (by simp)⟩
  | strangerKeepAlive hnone => exact ⟨h, saysToUsers_nil st⟩
  | keepAlive huser => exact ⟨h, saysToUsers_nil st⟩
  | @s2sJoin cur name _ hadj hs' hsame hchan =>
      refine ⟨attended_of_uset hsame.uset (forall_chan_of_update h hchan ?_), ?_⟩
      · rintro c ⟨⟩
        cases hc : st.chan name with
        | none => exact Channel.attended_of_no_users rfl
        | some c => exact (h name c hc).of_uset (c.heardFrom_uset env.now cur)
      · split
        · exact saysToUsers_nil st
        · exact saysToUsers_sendMessage (by simp)
  | @s2sLeave cur name _ hadj hs' hsame hchan =>
      refine ⟨attended_of_uset hsame.uset (forall_chan_of_update h hchan ?_), saysToUsers_nil st⟩
      intro c hc
      obtain ⟨d, hd, rfl⟩ := Option.map_eq_some_iff.mp hc
      exact (h name d hd).of_uset rfl
  | @s2sSay cur uid username name text c _ hc hpruned =>
      refine ⟨h.pruned hpruned, ?_⟩
      exact ((saysToUsers_sendMessage (by simp)).append (h.saysToUsers hc username text)).append
        (saysToUsers_pruneLeaves hinv.sound)
  | serverTimeout hs' hsame hchan =>
      refine ⟨attended_of_uset hsame.uset fun name c hc => ?_, saysToUsers_nil st⟩
      obtain ⟨dead, hdead⟩ := hchan name
      rw [hdead] at hc
      obtain ⟨d, hd, rfl⟩ := Option.map_eq_some_iff.mp hc
      exact (h name d hd).of_uset (Channel.foldl_removeServer_uset dead d)
  | joinSend =>
      refine ⟨h, fun d hd channel username text hmsg => ?_⟩
      obtain ⟨name, c, -, -, hjoin⟩ := (mem_joinSends hinv.sound).mp hd
      rw [hjoin] at hmsg
      cases hmsg
  | userTimeout hpass => exact ⟨h.userTimeoutPass hinv hpass, saysToUsers_nil st⟩

theorem Attended.step {r : Reaction} (h : st.Attended) (hinv : st.Inv adj)
    (hstep : st.Step r st') (hnot : ¬ r.DisplacesMember) :
    st'.Attended ∧ st.SaysToUsers r.sent := by
  refine h.of_effect hinv (hinv.effect_of_step hstep) fun username cur hinput u hu hon => ?_
  obtain ⟨⟨rfl, -⟩, -⟩ := hstep
  by_contra hxor
  exact hnot ⟨username, cur, hinput, u, hu, hxor, hon⟩

theorem attended_initial (adj : List Server) : (State.initial adj).Attended := by
  intro name c hc
  cases hc

end State

/-! ## Runs -/

/-- In every run, all the states have only logged-in users on their channels and all the
says go to logged-in users exactly when no login displaces a user of a channel. -/
theorem faithful_iff_no_member_displaced {rs : List Reaction}
    (hrun : Run State.Step (State.initial adj) rs st) :
    (∀ r ∈ rs, r.Faithful) ↔ ∀ r ∈ rs, ¬ r.DisplacesMember := by
  constructor
  · intro hall r hr hdis
    obtain ⟨past, u, v, future, -, hpast, hstep, -⟩ := hrun.split_of_mem hr
    have hinv := State.Reaches.inv ⟨past, hpast, fun _ _ => trivial⟩
    have hok := State.Reacts.result_of_after hstep.1 hstep.2
    have hno : v.NoGhosts := (hall r hr).after v hstep.2
    obtain ⟨⟨rfl, -⟩, -⟩ := hstep
    obtain ⟨username, src, hinput, w, -, hxor, hon⟩ := hdis
    rw [hinput] at hok
    simp only [State.react, handler, handleLogin, Except.ok.injEq, Prod.mk.injEq] at hok
    rw [← hok.1] at hno
    exact hinv.ghost_of_displaced hxor hon hno
  · intro hnone
    let I : State → Prop := fun s => s.Inv (State.initial adj).sset.serverList ∧ s.Attended
    have hI : I (State.initial adj) := ⟨State.inv_initial adj, State.attended_initial adj⟩
    refine hrun.forall_label (I := I) (Q := Reaction.Faithful) ?_ hnone hI
    rintro s r t ⟨hinv, hatt⟩ hnot hstep
    obtain ⟨hatt', hsays⟩ := hatt.step hinv hstep hnot
    refine ⟨⟨hinv.step hstep, hatt'⟩, ⟨fun st' hst' => ?_, hstep.1.1 ▸ hsays⟩⟩
    rw [hstep.2] at hst'
    cases hst'
    exact hatt'.noGhosts

/-- Everybody on the channels. -/
def State.members (st : State) : List User :=
  st.cset.channelMap.entries.flatMap fun e => ((st.chans.cells e.2).map Channel.userList).getD []

theorem State.mem_members {name : Cname} (hc : st.chan name = some c) (hu : user ∈ c.userList) :
    user ∈ st.members := by
  obtain ⟨p, hp, hcell⟩ := Option.bind_eq_some_iff.mp hc
  refine List.mem_flatMap.mpr ⟨⟨name, p⟩, AList.mem_lookup_iff.mp hp, ?_⟩
  rw [hcell]
  exact hu

/-- The name and the address of a client that logs in. -/
def Input.login? : Input → Option (Uname × SockAddr)
  | .recv src (.client (.login username)) => some (username, src)
  | _ => none

theorem Reaction.not_displacesMember {r : Reaction} (hall : ∀ login ∈ r.input.login?,
    ∀ w ∈ r.before.members, w.name = login.1 ↔ w.addr = login.2) : ¬ r.DisplacesMember := by
  rintro ⟨username, src, hinput, u, -, hxor, name, c, hc, w, hw, hname, haddr⟩
  rw [hinput] at hall
  have hiff := hall (username, src) rfl w (State.mem_members hc hw)
  rw [hname, haddr] at hiff
  exact hxor hiff

/-- One client logs in, joins a channel and logs in again under another name. -/
def relogin : List (Env × Input) :=
  [(⟨0, 0⟩, .recv (desk 1) (.client (.login alice))),
    (⟨0, 0⟩, .recv (desk 1) (.client (.join chat))),
    (⟨0, 0⟩, .recv (desk 1) (.client (.login bob)))]

/-- Alice joins a channel and Bob, who is on no channel, logs in again from another address,
joins it too and hears what Alice says. -/
def relocation : List (Env × Input) :=
  [(⟨0, 0⟩, .recv (desk 1) (.client (.login alice))),
    (⟨0, 0⟩, .recv (desk 1) (.client (.join chat))),
    (⟨0, 0⟩, .recv (desk 3) (.client (.login bob))),
    (⟨0, 0⟩, .recv (desk 2) (.client (.login bob))),
    (⟨0, 0⟩, .recv (desk 2) (.client (.join chat))),
    (⟨0, 7⟩, .recv (desk 1) (.client (.say chat hello)))]

theorem faithful_of_relocation :
    ∃ rs st, (State.initial []).replay relocation = some (rs, st) ∧ ∀ r ∈ rs, r.Faithful := by
  have hruns : ((State.initial []).replay relocation).isSome := by decide
  have hlogins : ∀ p ∈ (State.initial []).replay relocation, ∀ r ∈ p.1, ∀ login ∈ r.input.login?,
      ∀ w ∈ r.before.members, w.name = login.1 ↔ w.addr = login.2 := by decide
  obtain ⟨⟨rs, st⟩, hreplay⟩ := Option.isSome_iff_exists.mp hruns
  exact ⟨rs, st, hreplay, (faithful_iff_no_member_displaced (State.run_of_replay hreplay)).mpr
    fun r hr => Reaction.not_displacesMember (hlogins _ hreplay r hr)⟩

/-- After the second login the channel still holds the user of the first. -/
theorem ghost_after_relogin :
    ¬ ∀ (adj : List Server) (st : State), State.Reachable adj st → st.NoGhosts := by
  intro hall
  have hrun : ((State.initial []).replay relogin).map (fun p => p.2.uset.userList) =
      some [⟨1, bob, desk 1⟩] := by decide
  have hchan : ((State.initial []).replay relogin).map (fun p => p.2.chan chat) =
      some (some ((Channel.new chat).addUser ⟨0, alice, desk 1⟩)) := rfl
  obtain ⟨⟨rs, st⟩, hreplay, husers⟩ := Option.map_eq_some_iff.mp hrun
  have hno := hall [] st (State.reachable_of_replay hreplay)
  simp only [hreplay, Option.map_some, Option.some.injEq] at hchan
  obtain ⟨v, hv, hname, -⟩ := hno chat _ hchan ⟨0, alice, desk 1⟩ (by decide)
  rw [husers, List.mem_singleton] at hv
  rw [hv] at hname
  exact absurd hname (by decide)

end CliMessaging.Distributed
