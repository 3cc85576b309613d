import CliMessaging.Verification.Standalone.Sessions

/-! # Subscriptions

The table of channels represents a relation between channels and names, whether the names
are logged in or not. -/

namespace CliMessaging.Standalone

open State Transition

/-- The channels, each with the names on its list. -/
def State.subscriptions (st : State) : Set (Cname × Uname) :=
  {s | ∃ c, st.getChannel s.1 = some c ∧ s.2 ∈ c.userList}

/-- What a pass does to the subscriptions. -/
def State.Resubscribes (st : State) : Input → State → Prop
  | .recv a (.join ch), st' =>
      (∀ name, (name, a) ∈ st.sessions →
        st'.subscriptions = insert (ch, name) st.subscriptions) ∧
      ((∀ name, (name, a) ∉ st.sessions) → st'.subscriptions = st.subscriptions)
  | .recv a (.leave ch), st' =>
      (∀ name, (name, a) ∈ st.sessions →
        st'.subscriptions = st.subscriptions \ {(ch, name)} ∧
        (st'.getChannel ch = none ↔ ∀ other, (ch, other) ∉ st'.subscriptions)) ∧
      ((∀ name, (name, a) ∉ st.sessions) → st'.subscriptions = st.subscriptions)
  | _, st' => st'.subscriptions = st.subscriptions

variable {st st' : State} {env : Env} {input : Input} {sent : List Datagram} {p : ℕ} {u : User}
  {a : SockAddr} {ch : Cname} {name : Uname} {c : ChannelUsersList}

theorem ChannelUsersList.mem_add {n : Uname} :
    n ∈ (c.add name).userList ↔ n ∈ c.userList ∨ n = name := by
  unfold ChannelUsersList.add
  by_cases hmem : name ∈ c.userList
  · rw [if_pos hmem]
    constructor
    · exact Or.inl
    · rintro (hn | rfl)
      · exact hn
      · exact hmem
  · rw [if_neg hmem]
    simp

theorem ChannelUsersList.mem_remove (hnd : c.userList.Nodup) {n : Uname} :
    (∃ c', c.remove name = some c' ∧ n ∈ c'.userList) ↔ n ∈ c.userList ∧ n ≠ name := by
  rw [and_comm, ← hnd.mem_erase_iff]
  unfold ChannelUsersList.remove
  by_cases hnil : c.userList.erase name = []
  · rw [if_pos hnil, hnil]
    simp
  · rw [if_neg hnil]
    simp

namespace State

theorem subscriptions_congr (h : st'.channelUserLists = st.channelUserLists) :
    st'.subscriptions = st.subscriptions := by
  rw [subscriptions, subscriptions, getChannel_congr h]

/-- A channel exists as long as somebody is subscribed to it. -/
theorem Rosters.getChannel_eq_none (h : st.Rosters) :
    st.getChannel ch = none ↔ ∀ name, (ch, name) ∉ st.subscriptions := by
  constructor
  · rintro hnone name ⟨c, hc, -⟩
    rw [hnone] at hc
    cases hc
  · intro hall
    cases hc : st.getChannel ch with
    | none => rfl
    | some c =>
        obtain ⟨name, hname⟩ := List.exists_mem_of_ne_nil _ (h ch c hc).2.1
        exact absurd ⟨c, hc, hname⟩ (hall name)

theorem subscriptions_of_join
    (hchan : st'.getChannel = Function.update st.getChannel ch
      (some (((st.getChannel ch).getD ⟨ch, []⟩).add name))) :
    st'.subscriptions = insert (ch, name) st.subscriptions := by
  ext ⟨other, n⟩
  simp only [subscriptions, hchan, Set.mem_insert_iff, Set.mem_ofPred_eq, Prod.mk.injEq]
  by_cases hother : other = ch
  · subst hother
    simp only [Function.update_self, Option.some.injEq, exists_eq_left',
      ChannelUsersList.mem_add, true_and]
    cases st.getChannel other <;> simp [or_comm]
  · simp [hother]

theorem Rosters.subscriptions_of_leave (h : st.Rosters)
    (hchan : st'.getChannel = Function.update st.getChannel ch
      ((st.getChannel ch).bind fun c => c.remove name)) :
    st'.subscriptions = st.subscriptions \ {(ch, name)} := by
  ext ⟨other, n⟩
  simp only [subscriptions, hchan, Set.mem_sdiff, Set.mem_ofPred_eq, Set.mem_singleton_iff,
    Prod.mk.injEq]
  by_cases hother : other = ch
  · subst hother
    rw [Function.update_self]
    cases hc : st.getChannel other with
    | none => simp
    | some c =>
        rw [Option.bind_some, ChannelUsersList.mem_remove (h other c hc).2.2]
        simp
  · simp [hother]

theorem Inv.resubscribes (h : st.Inv) (heff : st.Effect env input st' sent) :
    st.Resubscribes input st' := by
  have hafter := h.of_effect heff
  cases heff with
  | login hdir hrec hch => exact subscriptions_congr hch
  | logout hdir hrec hch => exact subscriptions_congr hch
  | @stranger a req hreq hget =>
      have hnone := h.directory.getUser_eq_none.mp hget
      cases req with
      | join ch => exact ⟨fun name hname => absurd hname (hnone name), fun _ => rfl⟩
      | leave ch => exact ⟨fun name hname => absurd hname (hnone name), fun _ => rfl⟩
      | say ch text => rfl
      | _ => cases hreq
  | @join a ch p u _ hspeaks hchan =>
      have hsession := hspeaks.mem_sessions
      refine ⟨fun name hname => ?_, fun hall => absurd hsession (hall _)⟩
      rw [h.directory.partialBijection.2 name u.username a hname hsession]
      exact subscriptions_of_join hchan
  | @leave a ch p u _ hspeaks hchan =>
      have hsession := hspeaks.mem_sessions
      refine ⟨fun name hname => ⟨?_, hafter.rosters.getChannel_eq_none⟩,
        fun hall => absurd hsession (hall _)⟩
      rw [h.directory.partialBijection.2 name u.username a hname hsession]
      exact h.rosters.subscriptions_of_leave hchan
  | sayNowhere text hspeaks hch hc => exact subscriptions_congr hch
  | sayOutside text hspeaks hch hc hmem => exact subscriptions_congr hch
  | say text hspeaks hch hc hmem => exact subscriptions_congr hch
  | list hseen hch => exact subscriptions_congr hch
  | who ch hseen hch => exact subscriptions_congr hch
  | keepAlive hseen hch => exact subscriptions_congr hch
  | scan hdir hch hrec => exact subscriptions_congr hch

end State

/-- In every reachable state each channel is stored under its own name and lists its
subscribers, of which there is at least one, once each. Every pass that does not read an
array of users that is NULL completes. A join of a client that is logged in adds its
subscription, a leave takes it away together with a channel that has nobody left, and no
other pass changes the subscriptions. -/
theorem subscriptions_of_reachable (hst : st.Reachable) :
    st.Rosters ∧ ∀ env input,
      (¬ st.Stumbles env input → ∃ st' sent, st.react env input = .ok (st', sent)) ∧
      ∀ st' sent, st.react env input = .ok (st', sent) → st.Resubscribes input st' := by
  have h := hst.inv
  exact ⟨h.rosters, fun env input => ⟨h.react_ok, fun st' sent hok =>
    h.resubscribes (h.effect_of_ok hok)⟩⟩

/-- The last subscriber of a channel leaves it. -/
theorem subscriptions_of_reachable_leaving :
    ∃ st st' sent, State.initial.replay [(.at 0, .recv (desk 1) (.login alice)),
        (.at 0, .recv (desk 1) (.join chat))] = some st ∧
      st.react (.at 0) (.recv (desk 1) (.leave chat)) = .ok (st', sent) ∧
      st'.subscriptions = st.subscriptions \ {(chat, alice)} ∧ st'.getChannel chat = none := by
  have hfacts : (State.initial.replay [(.at 0, .recv (desk 1) (.login alice)),
      (.at 0, .recv (desk 1) (.join chat))]).any fun st =>
        decide (st.addressOf alice = some (desk 1)) &&
          decide ((st.getChannel chat).map ChannelUsersList.userList = some [alice]) := by decide
  obtain ⟨st, hreplay, hheld⟩ := (Option.any_eq_true _ _).mp hfacts
  simp only [Bool.and_eq_true, decide_eq_true_eq] at hheld
  have hst : st.Reachable := State.run_of_replay hreplay
  obtain ⟨-, hpass⟩ := subscriptions_of_reachable hst
  obtain ⟨hcompletes, hresubscribes⟩ := hpass (.at 0) (.recv (desk 1) (.leave chat))
  obtain ⟨st', sent, hok⟩ := hcompletes fun hstumbles => by
    have hget : st.getUser none (some (clientKey (desk 1))) = none := hstumbles.1
    exact hst.inv.directory.getUser_eq_none.mp hget alice
      (hst.inv.directory.addressOf_eq_some.mp hheld.1)
  obtain ⟨hleaves, hgone⟩ := (hresubscribes st' sent hok).1 alice
    (hst.inv.directory.addressOf_eq_some.mp hheld.1)
  refine ⟨st, st', sent, hreplay, hok, hleaves, hgone.mpr fun other hother => ?_⟩
  rw [hleaves] at hother
  obtain ⟨⟨c, hc, hin⟩, hne⟩ := hother
  simp only at hc hin
  rw [hc, Option.map_some, Option.some.injEq] at hheld
  rw [hheld.2, List.mem_singleton] at hin
  exact hne (by rw [hin]; rfl)

end CliMessaging.Standalone
