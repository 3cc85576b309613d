import CliMessaging.Verification.Distributed.Effects

/-! # The invariant of a running server

Every state that a server reaches is sound, its global user set is coherent, its
adjacency is the one it was started with, and its channels route only to it. -/

namespace CliMessaging.Distributed

open State

/-- The routes of a channel are adjacent servers, and its uid set is empty: nothing in
the server ever adds an id. -/
structure Channel.Routed (adj : List Server) (c : Channel) : Prop where
  coherent : c.sset.Coherent
  adjacent : ∀ t ∈ c.serverList, t ∈ adj
  uids : c.uidSet = ∅

structure State.Inv (adj : List Server) (st : State) : Prop where
  sound : st.Sound
  users : st.uset.Coherent
  servers : st.sset.serverList = adj
  routed : ∀ name c, st.chan name = some c → c.Routed adj

namespace Channel

variable {adj : List Server} {c : Channel}

theorem routed_new (adj : List Server) (name : Cname) : (Channel.new name).Routed adj :=
  ⟨ServerSet.coherent_empty, by simp [serverList, Channel.new, ServerSet.empty], rfl⟩

theorem Routed.addUser (h : c.Routed adj) (user : User) : (c.addUser user).Routed adj :=
  ⟨h.coherent, h.adjacent, h.uids⟩

theorem Routed.removeUser (h : c.Routed adj) (user : User) : (c.removeUser user).Routed adj :=
  ⟨h.coherent, h.adjacent, h.uids⟩

theorem Routed.removeServer (h : c.Routed adj) (t : Server) : (c.removeServer t).Routed adj := by
  obtain ⟨hcoh, hlist⟩ := removeServer_sset h.coherent t
  refine ⟨hcoh, ?_, h.uids⟩
  intro s hs
  rw [hlist] at hs
  exact h.adjacent s (List.mem_of_mem_erase hs)

theorem Routed.foldl_removeServer (h : c.Routed adj) (dead : List Server) :
    (dead.foldl Channel.removeServer c).Routed adj := by
  induction dead generalizing c with
  | nil => exact h
  | cons t dead ih => exact ih (h.removeServer t)

theorem Routed.addServer (h : c.Routed adj) (now : ℕ) {t : Server} (ht : t ∈ adj) :
    (c.addServer now t).Routed adj := by
  obtain ⟨hcoh, hlist⟩ := addServer_sset h.coherent now t
  refine ⟨hcoh, ?_, h.uids⟩
  intro s hs
  rw [hlist] at hs
  rcases List.mem_append.mp hs with hs | hs
  · exact h.adjacent s (List.mem_of_mem_erase hs)
  · rw [List.mem_singleton.mp hs]
    exact ht

theorem Routed.heardFrom (h : c.Routed adj) (now : ℕ) {t : Server} (ht : t ∈ adj) :
    (c.heardFrom now t).Routed adj := by
  obtain ⟨hcoh, hmem⟩ := heardFrom_sset h.coherent now t
  refine ⟨hcoh, ?_, by simpa using h.uids⟩
  intro s hs
  rcases (hmem s).mp hs with hs | rfl
  · exact h.adjacent s hs
  · exact ht

end Channel

namespace State

variable {adj : List Server} {st st' : State}

theorem initial_serverList (hnd : adj.Nodup) : (State.initial adj).sset.serverList = adj := by
  obtain ⟨-, hlist⟩ := ServerSet.coherent_empty.foldl_addServer hnd (by simp [ServerSet.empty])
  exact hlist

theorem inv_initial (adj : List Server) :
    (State.initial adj).Inv (State.initial adj).sset.serverList := by
  refine ⟨⟨List.nodup_nil, ?_, Indexes.nil⟩, UserSet.coherent_empty, rfl, ?_⟩
  · intro p hp
    cases hp
  · intro name c hc
    cases hc

theorem Inv.updateLastSeen (h : st.Inv adj) (now : ℕ) (user : User) :
    (st.updateLastSeen now user).Inv adj :=
  ⟨h.sound.updateLastSeen now user, h.users, h.servers, h.routed⟩

/-- Only the table of channels has changed, each remaining channel in a harmless way. -/
theorem Inv.of_channels (h : st.Inv adj) (hsound : st'.Sound) (husers : st'.uset.Coherent)
    (hsset : st'.sset = st.sset)
    (hchan : ∀ name c', st'.chan name = some c' → c'.Routed adj) : st'.Inv adj :=
  ⟨hsound, husers, by rw [hsset]; exact h.servers, hchan⟩

/-- One entry of the table has changed. -/
theorem Inv.of_update {name : Cname} {new : Option Channel} (h : st.Inv adj)
    (hsound : st'.Sound) (hsset : st'.sset = st.sset) (huset : st'.uset = st.uset)
    (hchan : st'.chan = Function.update st.chan name new)
    (hnew : ∀ c, new = some c → c.Routed adj) : st'.Inv adj :=
  h.of_channels hsound (huset ▸ h.users) hsset (forall_chan_of_update h.routed hchan hnew)

theorem Inv.pruned (h : st.Inv adj) (hp : st.Pruned st') : st'.Inv adj :=
  h.of_channels hp.sound (hp.same.uset ▸ h.users) hp.same.sset (hp.forall_chan h.routed)

/-- The removal of a logged-in user. -/
theorem Inv.removeUser {user : User} (h : st.Inv adj) (huser : user ∈ st.uset.userList)
    (hok : st.removeUser user = .ok st') : st'.Inv adj := by
  obtain ⟨st₁, hrm, hs₁, hsset, huset, -, hchan⟩ := h.sound.removeUser user
  rw [hrm] at hok
  cases hok
  have hcoh := (h.users.removeUser (h.users.fits_of_mem huser)).1
  refine h.of_channels hs₁ (huset ▸ hcoh) hsset ?_
  intro name c hc
  rw [hchan] at hc
  obtain ⟨d, hd, rfl⟩ := Option.map_eq_some_iff.mp hc
  exact (h.routed name d hd).removeUser user

theorem Inv.others_stay {user : User} (h : st.Inv adj) (huser : user ∈ st.uset.userList)
    (hok : st.removeUser user = .ok st') :
    ∀ v, v ∈ st.uset.userList → v ≠ user → v ∈ st'.uset.userList := by
  intro v hv hne
  obtain ⟨st₁, hrm, -, -, huset, -⟩ := h.sound.removeUser user
  rw [hrm] at hok
  cases hok
  rw [huset, (h.users.removeUser (h.users.fits_of_mem huser)).2]
  exact ⟨hv, fun hboth => hne (h.users.eq_of_name hv huser hboth.1)⟩

theorem Inv.userTimeoutPass {now : ℕ} (h : st.Inv adj)
    (hok : userTimeoutPass st now = .ok st') : st'.Inv adj := by
  apply removeIdleUsers_induction ?_ h.users.nodup (fun _ hu => hu) h hok
  intro st u st' hst hu hrm
  exact ⟨hst.removeUser hu hrm, hst.others_stay hu hrm⟩

theorem Inv.effect {env : Env} {input : Input} {sent : List Datagram} (h : st.Inv adj)
    (hok : st.react env input = .ok (st', sent)) : st.Effect env input st' sent :=
  effect_of_ok h.sound (fun name c hc => (h.routed name c hc).uids) hok

/-- Every pass that does not bring the server down keeps the invariant. -/
theorem Inv.of_effect {env : Env} {input : Input} {sent : List Datagram} (h : st.Inv adj)
    (heff : st.Effect env input st' sent) : st'.Inv adj := by
  cases heff with
  | login cur username =>
      exact ⟨h.sound.cliLogin env.now username cur, (h.users.addUser _).1, h.servers, h.routed⟩
  | @logout cur st₁ _ hs₁ hpruned hsset huset hchan =>
      refine Inv.pruned (h.of_channels hs₁ ?_ hsset ?_) hpruned
      · rw [huset]
        exact (h.users.removeUserByIp cur).1
      · intro name c hc
        rw [hchan] at hc
        obtain ⟨d, hd, rfl⟩ := Option.map_eq_some_iff.mp hc
        cases st.uset.getUserByIp cur with
        | none => exact h.routed name d hd
        | some user => exact (h.routed name d hd).removeUser user
  | strangerJoin name hnone => exact h
  | @join cur name user _ huser hs' hsset huset hchan =>
      refine h.of_update hs' hsset huset hchan ?_
      rintro c ⟨⟩
      apply Channel.Routed.addUser
      cases hc : st.chan name with
      | none => exact Channel.routed_new adj name
      | some c => exact h.routed name c hc
  | @leave cur name user st₁ _ huser hs₁ hpruned hsset huset hchan =>
      refine Inv.pruned (h.of_update hs₁ hsset huset hchan ?_) hpruned
      intro c hc
      obtain ⟨d, hd, rfl⟩ := Option.map_eq_some_iff.mp hc
      exact (h.routed name d hd).removeUser user
  | say text huser hchan => exact h.updateLastSeen env.now _
  | list names huser => exact h.updateLastSeen env.now _
  | who name names huser => exact h.updateLastSeen env.now _
  | strangerKeepAlive hnone => exact h
  | keepAlive huser => exact h.updateLastSeen env.now _
  | @s2sJoin cur name _ hadj hs' hsame hchan =>
      have hcur : cur ∈ adj := h.servers ▸ hadj
      refine h.of_update hs' hsame.sset hsame.uset hchan ?_
      rintro c ⟨⟩
      cases hc : st.chan name with
      | none => exact (Channel.routed_new adj name).addServer env.now hcur
      | some c => exact (h.routed name c hc).heardFrom env.now hcur
  | @s2sLeave cur name _ hadj hs' hsame hchan =>
      refine h.of_update hs' hsame.sset hsame.uset hchan ?_
      intro c hc
      obtain ⟨d, hd, rfl⟩ := Option.map_eq_some_iff.mp hc
      exact (h.routed name d hd).removeServer cur
  | s2sSay hc hpruned => exact h.pruned hpruned
  | serverTimeout hs' hsame hchan =>
      refine h.of_channels hs' (hsame.uset ▸ h.users) hsame.sset ?_
      intro name c hc
      obtain ⟨dead, hdead⟩ := hchan name
      rw [hdead] at hc
      obtain ⟨d, hd, rfl⟩ := Option.map_eq_some_iff.mp hc
      exact (h.routed name d hd).foldl_removeServer dead
  | joinSend => exact h
  | userTimeout hpass => exact h.userTimeoutPass hpass

/-- The reaction of a server that stays up. -/
theorem Reacts.result_of_after {r : Reaction} (hr : st.Reacts r) (hafter : r.after = some st') :
    st.react r.env r.input = .ok (st', r.sent) := by
  rw [← hr.2]
  unfold Reaction.after at hafter
  unfold Reaction.sent
  cases hres : r.result with
  | error fault => simp [hres] at hafter
  | ok pair =>
      simp only [hres, Option.some.injEq] at hafter
      rw [← hafter]

/-- The effect of a step of a running server. -/
theorem Inv.effect_of_step {r : Reaction} (h : st.Inv adj) (hstep : st.Step r st') :
    st.Effect r.env r.input st' r.sent :=
  h.effect (Reacts.result_of_after hstep.1 hstep.2)

theorem Inv.step {r : Reaction} (h : st.Inv adj) (hstep : st.Step r st') : st'.Inv adj :=
  h.of_effect (h.effect_of_step hstep)

theorem Reaches.inv {P : Reaction → Prop} (hst : State.Reaches P adj st) :
    st.Inv (State.initial adj).sset.serverList := by
  obtain ⟨rs, hrun, -⟩ := hst
  exact hrun.invariant (P := fun _ => True) (fun _ _ _ hs _ hstep => hs.step hstep)
    (fun _ _ => trivial) (inv_initial adj)

end State

end CliMessaging.Distributed
