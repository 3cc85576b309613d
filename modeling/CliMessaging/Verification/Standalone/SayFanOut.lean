import CliMessaging.Verification.Standalone.Subscriptions

/-! # Says

A say of a subscriber goes once to every subscriber that is logged in. -/

namespace CliMessaging.Standalone

open State Transition

variable {st st' : State} {env : Env} {p : ℕ} {u : User} {a : SockAddr} {ch : Cname}
  {name : Uname} {text : SayText} {c : ChannelUsersList} {d : Datagram}

/-- The messages to the names of a channel. -/
def State.fanOut (st : State) (text : SayText) (ch : Cname) (name : Uname)
    (c : ChannelUsersList) : List Datagram :=
  c.userList.filterMap fun n => (st.addressOf n).map (sendMessage text ch name)

namespace State

theorem Directory.mem_fanOut (h : st.Directory) (hc : st.getChannel ch = some c) :
    d ∈ st.fanOut text ch name c ↔ d.msg = .say ch name text ∧
      ∃ n, (ch, n) ∈ st.subscriptions ∧ (n, d.dst) ∈ st.sessions := by
  have hlisted : ∀ n, (ch, n) ∈ st.subscriptions ↔ n ∈ c.userList := by
    intro n
    simp [subscriptions, hc]
  obtain ⟨dst, msg⟩ := d
  simp only [fanOut, List.mem_filterMap, Option.map_eq_some_iff, sendMessage, Datagram.mk.injEq,
    hlisted, h.addressOf_eq_some]
  constructor
  · rintro ⟨n, hn, b, hb, rfl, rfl⟩
    exact ⟨rfl, n, hn, hb⟩
  · rintro ⟨rfl, n, hn, hb⟩
    exact ⟨n, hn, dst, hb, rfl, rfl⟩

/-- No address is reached under two names. -/
theorem Inv.nodup_fanOut (h : st.Inv) (hc : st.getChannel ch = some c) :
    (st.fanOut text ch name c).Nodup := by
  apply (h.rosters ch c hc).2.2.filterMap
  intro n n' d hd hd'
  obtain ⟨b, hb, rfl⟩ := Option.map_eq_some_iff.mp hd
  obtain ⟨b', hb', heq⟩ := Option.map_eq_some_iff.mp hd'
  have hdst : b' = b := congrArg Datagram.dst heq
  rw [hdst] at hb'
  exact h.directory.partialBijection.2 n n' b (h.directory.addressOf_eq_some.mp hb)
    (h.directory.addressOf_eq_some.mp hb')

/-- What a say of a subscriber sends. -/
theorem Inv.say_of_subscriber {sent : List Datagram} (h : st.Inv)
    (heff : st.Effect env (.recv a (.say ch text)) st' sent) (hname : (name, a) ∈ st.sessions)
    (hsub : (ch, name) ∈ st.subscriptions) :
    sent.Nodup ∧ ∀ d, d ∈ sent ↔ d.msg = .say ch name text ∧
      ∃ n, (ch, n) ∈ st.subscriptions ∧ (n, d.dst) ∈ st.sessions := by
  have honly : ∀ {p u}, st.Speaks env.now a p u st' → name = u.username := fun hspeaks =>
    h.directory.partialBijection.2 name _ a hname hspeaks.mem_sessions
  obtain ⟨c', hc', hin⟩ := hsub
  cases heff with
  | stranger hreq hget => exact absurd hname (h.directory.getUser_eq_none.mp hget name)
  | sayNowhere _ hspeaks hch hc =>
      rw [hc] at hc'
      cases hc'
  | sayOutside _ hspeaks hch hc hmem =>
      rw [hc] at hc'
      cases hc'
      rw [← honly hspeaks] at hmem
      exact absurd hin hmem
  | say _ hspeaks hch hc hmem =>
      rw [honly hspeaks]
      exact ⟨h.nodup_fanOut hc, fun d => h.directory.mem_fanOut hc⟩

end State

end CliMessaging.Standalone
