import CliMessaging.Verification.Distributed.ChannelEffects

/-! # The user sets of channels

A user is dismissed from a channel by a leave, a logout or a time-out. The channel's user
set stays coherent as long as nobody on it shares exactly one of name and address with a
user that is dismissed. -/

namespace CliMessaging.Distributed

open State Transition

/-- The list and the two maps of the channel hold the same users, each under its own name
and its own address, no two of which share either, so everything that is asked of the
channel agrees on who is on it. -/
structure Channel.Agrees (c : Channel) : Prop where
  coherent : c.uset.Coherent
  distinct : ∀ u ∈ c.userList, ∀ v ∈ c.userList, u.name = v.name ∨ u.addr = v.addr → u = v
  contains : ∀ user, c.containsUser user ↔ ∃ u ∈ c.userList, u.name = user.name
  count : c.uset.userNameMap.keys.length = c.uset.size ∧ c.uset.userIpMap.keys.length = c.uset.size
  recipients : ∀ a, a ∈ c.userList.map User.addr ↔ ∃ u, c.uset.getUserByIp a = some u
  prunable : c.shouldPrune ↔ (∀ user, c.containsUser user = false) ∧ c.sset.size ≤ 1

def State.ChannelsAgree (st : State) : Prop :=
  ∀ name c, st.chan name = some c → c.Agrees

/-- Nobody on a channel shares exactly one of name and address with a user that is taken
off it. -/
def Reaction.DismissesCleanly (r : Reaction) : Prop :=
  ∀ name c, r.before.chan name = some c →
    ∀ u ∈ r.before.dismissed r.env name r.input, c.uset.Fits u

variable {adj : List Server} {st st' : State} {env : Env} {c : Channel} {user : User}

/-! ## One channel -/

namespace Channel

theorem containsUser_iff (h : c.uset.Coherent) :
    c.containsUser user ↔ ∃ u ∈ c.userList, u.name = user.name := by
  rw [containsUser, Option.isSome_iff_exists]
  simp only [h.getUserByName_eq_some]
  rfl

theorem agrees_iff_coherent : c.Agrees ↔ c.uset.Coherent := by
  refine ⟨Agrees.coherent, fun h => ⟨h, ?_, fun user => containsUser_iff h, ?_, ?_, ?_⟩⟩
  · intro u hu v hv hshared
    rcases hshared with hname | haddr
    · exact h.eq_of_name hu hv hname
    · exact h.eq_of_addr hu hv haddr
  · exact ⟨h.byName.length_keys h.nodup, h.byIp.length_keys h.nodup⟩
  · intro a
    simp only [List.mem_map, h.getUserByIp_eq_some]
    rfl
  · have hempty : c.uset.size = 0 ↔ ∀ user, c.containsUser user = false := by
      rw [UserSet.size, List.length_eq_zero_iff]
      constructor
      · intro hnil user
        rw [← Bool.not_eq_true, containsUser_iff h, userList, hnil]
        simp
      · intro hnone
        apply List.eq_nil_iff_forall_not_mem.mpr
        intro u hu
        have hin := (containsUser_iff h).mpr ⟨u, hu, rfl⟩
        rw [hnone u] at hin
        cases hin
    rw [shouldPrune, decide_eq_true_eq, hempty]

theorem coherent_new (name : Cname) : (Channel.new name).uset.Coherent :=
  UserSet.coherent_empty

theorem coherent_addUser (h : c.uset.Coherent) (user : User) : (c.addUser user).uset.Coherent :=
  (h.channelAddUser user).1

theorem foldl_removeUser_uset (us : List User) (c : Channel) :
    (us.foldl Channel.removeUser c).uset = us.foldl UserSet.removeUser c.uset := by
  induction us generalizing c with
  | nil => rfl
  | cons u us ih => exact ih (c.removeUser u)

/-- An incoherent channel is not empty, so it is not pruned. -/
theorem shouldPrune_eq_false_of_listed {u : User} (hu : u ∈ c.uset.userList) :
    c.shouldPrune = false := by
  have hpos : 0 < c.uset.size := List.length_pos_of_mem hu
  simp only [shouldPrune, decide_eq_false_iff_not]
  omega

end Channel

/-! ## One pass -/

namespace State

theorem channelsAgree_iff : st.ChannelsAgree ↔
    ∀ name c, st.chan name = some c → c.uset.Coherent := by
  simp only [ChannelsAgree, Channel.agrees_iff_coherent]

theorem Inv.dismissed_listed (h : st.Inv adj) (env : Env) (name : Cname) (input : Input) :
    ∀ u ∈ st.dismissed env name input, u ∈ st.uset.userList := by
  have hlookup : ∀ {cur u}, u ∈ (st.uset.getUserByIp cur).toList → u ∈ st.uset.userList :=
    fun hu => (h.users.getUserByIp_eq_some.mp (Option.mem_toList.mp hu)).1
  intro u hu
  unfold dismissed at hu
  split at hu
  · exact hlookup hu
  · split at hu
    · exact hlookup hu
    · cases hu
  · exact List.mem_of_mem_filter hu
  · cases hu

theorem Inv.dismissed_distinct (h : st.Inv adj) (env : Env) (name : Cname) (input : Input) :
    ∀ u ∈ st.dismissed env name input, ∀ v ∈ st.dismissed env name input,
      u.name = v.name ∨ u.addr = v.addr → u = v :=
  fun _ hu _ hv =>
    h.user_eq (h.dismissed_listed env name input _ hu) (h.dismissed_listed env name input _ hv)

/-- The users of a channel after a pass: those dismissed are gone, or one has been added. -/
theorem Inv.uset_after {input : Input} {sent : List Datagram} (h : st.Inv adj)
    (heff : st.Effect env input st' sent) {name : Cname} {c' : Channel}
    (hc' : st'.chan name = some c') :
    ∃ c, (st.chan name = some c ∨ c = Channel.new name) ∧
      (c'.uset = (st.dismissed env name input).foldl UserSet.removeUser c.uset ∨
        ∃ user, c'.uset = (c.addUser user).uset) := by
  obtain ⟨c, hc, hchanges⟩ := h.channel_after heff hc'
  refine ⟨c, hc, ?_⟩
  cases hchanges with
  | dismiss hjoin => exact Or.inl (Channel.foldl_removeUser_uset _ c)
  | enroll user hnone hjoin => exact Or.inr ⟨user, rfl⟩
  | forget dead hnone hjoin =>
      rw [hnone]
      exact Or.inl (Channel.foldl_removeServer_uset dead c)
  | hear hnone hinput hhears =>
      rw [hnone]
      exact Or.inl hhears.users

/-- A channel that is not left empty by a dismissal stays. -/
theorem Inv.dismissed_from {input : Input} {sent : List Datagram} (h : st.Inv adj)
    (heff : st.Effect env input st' sent) {name : Cname} (hc : st.chan name = some c) {u v : User}
    (hv : v ∈ st.dismissed env name input)
    (hu : u ∈ ((st.dismissed env name input).foldl UserSet.removeUser c.uset).userList) :
    ∃ c', st'.chan name = some c' ∧
      c'.uset = (st.dismissed env name input).foldl UserSet.removeUser c.uset := by
  rw [← Channel.foldl_removeUser_uset] at hu ⊢
  refine ⟨(st.dismissed env name input).foldl Channel.removeUser c, ?_, rfl⟩
  have hkeep := Channel.shouldPrune_eq_false_of_listed hu
  cases heff with
  | @logout cur st₁ _ hs₁ hpruned hsset huset hchan =>
      refine hpruned.chan_eq_some.mpr ⟨?_, hkeep⟩
      rw [hchan, hc, dismissed, foldl_toList_removeUser, Option.map_some]
  | @leave cur other user st₁ _ huser hs₁ hpruned hsset huset hchan =>
      refine hpruned.chan_eq_some.mpr ⟨?_, hkeep⟩
      by_cases hname : other = name
      · subst hname
        rw [hchan, Function.update_self, hc]
        simp [dismissed, huser]
      · simp [dismissed, hname] at hv
  | userTimeout hpass =>
      rw [h.sound.userTimeoutPass_chan hpass, hc]
      rfl
  | _ => cases hv

/-- A pass keeps the channels coherent exactly when everybody it takes off a channel fits
the channel's user set. -/
theorem Inv.channelsAgree_step {r : Reaction} (h : st.Inv adj) (hagree : st.ChannelsAgree)
    (hstep : st.Step r st') : st'.ChannelsAgree ↔ r.DismissesCleanly := by
  have heff := h.effect_of_step hstep
  obtain ⟨⟨rfl, -⟩, -⟩ := hstep
  rw [channelsAgree_iff] at hagree ⊢
  constructor
  · intro hafter name c hc
    refine UserSet.fits_of_foldl_removeUser (h.dismissed_distinct _ _ _) fun u hu => ?_
    by_cases hnobody : r.before.dismissed r.env name r.input = []
    · rw [hnobody]
      exact hagree name c hc
    · obtain ⟨v, hv⟩ := List.exists_mem_of_ne_nil _ hnobody
      obtain ⟨c', hc', huset⟩ := h.dismissed_from heff hc hv hu
      rw [← huset]
      exact hafter name c' hc'
  · intro hclean name c' hc'
    obtain ⟨c, hold, huset⟩ := h.uset_after heff hc'
    have hcoh : c.uset.Coherent := by
      rcases hold with hc | rfl
      · exact hagree name c hc
      · exact Channel.coherent_new name
    have hfit : ∀ u ∈ r.before.dismissed r.env name r.input, c.uset.Fits u := by
      rcases hold with hc | rfl
      · exact hclean name c hc
      · rintro u - w hw
        cases hw
    rcases huset with heq | ⟨user, heq⟩
    · rw [heq]
      exact (hcoh.foldl_removeUser hfit).1
    · rw [heq]
      exact Channel.coherent_addUser hcoh user

/-! ## Runs -/

theorem channelsAgree_initial (adj : List Server) : (State.initial adj).ChannelsAgree := by
  intro name c hc
  cases hc

theorem Inv.channelsAgree_run {rs : List Reaction} (h : st.Inv adj) (hagree : st.ChannelsAgree)
    (hrun : Run State.Step st rs st') :
    (∀ r ∈ rs, ∀ st₁, r.after = some st₁ → st₁.ChannelsAgree) ↔
      ∀ r ∈ rs, r.DismissesCleanly := by
  induction hrun with
  | nil => simp
  | @cons s t _ r rs hstep hrun ih =>
      have hone := h.channelsAgree_step hagree hstep
      have hfirst : (∀ st₁, r.after = some st₁ → st₁.ChannelsAgree) ↔ r.DismissesCleanly := by
        rw [← hone]
        simp [hstep.2]
      rw [List.forall_mem_cons, List.forall_mem_cons, hfirst]
      exact and_congr_right fun hclean => ih (h.step hstep) (hone.mpr hclean)

end State

/-- In every run, the channels of all the states reached are coherent exactly when no pass
takes a user off a channel on which somebody shares exactly one of name and address with
it. -/
theorem channelsAgree_iff_dismissed_cleanly {rs : List Reaction}
    (hrun : Run State.Step (State.initial adj) rs st) :
    (∀ r ∈ rs, ∀ st', r.after = some st' → st'.ChannelsAgree) ↔ ∀ r ∈ rs, r.DismissesCleanly :=
  (State.inv_initial adj).channelsAgree_run (State.channelsAgree_initial adj) hrun

theorem Reaction.dismissesCleanly_of_members {r : Reaction} (hinv : r.before.Inv adj)
    (hall : ∀ u ∈ r.before.uset.userList, ∀ w ∈ r.before.members,
      w.name = u.name ↔ w.addr = u.addr) : r.DismissesCleanly :=
  fun _ _ hc _ hu _ hw =>
    hall _ (hinv.dismissed_listed _ _ _ _ hu) _ (State.mem_members hc hw)

/-- Two clients join a channel. One leaves it and comes back, the other logs out, and the
one that is left times out. -/
def departures : List (Env × Input) :=
  [(⟨0, 0⟩, .recv (desk 1) (.client (.login alice))),
    (⟨0, 0⟩, .recv (desk 1) (.client (.join chat))),
    (⟨0, 0⟩, .recv (desk 2) (.client (.login bob))),
    (⟨0, 0⟩, .recv (desk 2) (.client (.join chat))),
    (⟨1, 0⟩, .recv (desk 1) (.client (.leave chat))),
    (⟨2, 0⟩, .recv (desk 1) (.client (.join chat))),
    (⟨3, 0⟩, .recv (desk 2) (.client .logout)),
    (⟨200, 0⟩, .userTimeout)]

theorem channelsAgree_of_departures :
    ∃ rs st, (State.initial []).replay departures = some (rs, st) ∧
      ∀ r ∈ rs, ∀ st', r.after = some st' → st'.ChannelsAgree := by
  have hruns : ((State.initial []).replay departures).isSome := by decide
  have hclean : ∀ p ∈ (State.initial []).replay departures, ∀ r ∈ p.1,
      ∀ u ∈ r.before.uset.userList, ∀ w ∈ r.before.members,
        w.name = u.name ↔ w.addr = u.addr := by decide
  obtain ⟨⟨rs, st⟩, hreplay⟩ := Option.isSome_iff_exists.mp hruns
  have hrun := State.run_of_replay hreplay
  refine ⟨rs, st, hreplay, (channelsAgree_iff_dismissed_cleanly hrun).mpr fun r hr => ?_⟩
  obtain ⟨past, u, v, future, -, hpast, hstep, -⟩ := hrun.split_of_mem hr
  obtain ⟨⟨rfl, -⟩, -⟩ := hstep
  exact Reaction.dismissesCleanly_of_members (State.Reaches.inv ⟨past, hpast, fun _ _ => trivial⟩)
    (hclean _ hreplay r hr)

/-- A user that has been displaced leaves the channel under its new name. -/
def releave : List (Env × Input) :=
  relogin ++ [(⟨0, 0⟩, .recv (desk 1) (.client (.leave chat)))]

/-- Alice stays listed on the channel without an entry in the map of addresses. -/
theorem channels_disagree_after_releave :
    ¬ ∀ (adj : List Server) (st : State), State.Reachable adj st → st.ChannelsAgree := by
  intro hall
  have hrun : (((State.initial []).replay releave).bind fun p => p.2.chan chat).map
      (fun c => (c.userList, c.uset.getUserByIp (desk 1))) = some ([⟨0, alice, desk 1⟩], none) := by
    decide
  obtain ⟨c, hfound, hc⟩ := Option.map_eq_some_iff.mp hrun
  obtain ⟨⟨rs, st⟩, hreplay, hchan⟩ := Option.bind_eq_some_iff.mp hfound
  obtain ⟨husers, hnone⟩ := Prod.mk.inj hc
  have hagrees := hall [] st (State.reachable_of_replay hreplay) chat c hchan
  have hin : (⟨0, alice, desk 1⟩ : User) ∈ c.userList := by simp [husers]
  exact hagrees.coherent.getUserByIp_eq_none.mp hnone _ hin rfl

end CliMessaging.Distributed
