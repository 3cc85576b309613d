import CliMessaging.Verification.Standalone.Subscriptions

/-! # Answers to LIST and WHO

A WHO is answered with the subscribers of the channel. A LIST is answered with the channels
that have subscribers, unless there are none: the table then returns no array, which the
handler takes for a failure. -/

namespace CliMessaging.Standalone

open State

variable {st : State} {env : Env} {a : SockAddr} {ch : Cname}

/-- A LIST is answered with the channels that have a subscriber, each once. -/
def State.ListExact (st : State) (env : Env) (a : SockAddr) : Prop :=
  ∃ st' channels, st.react env (.recv a .list) = .ok (st', [⟨a, .list channels⟩]) ∧
    channels.Nodup ∧ ∀ ch, ch ∈ channels ↔ ∃ name, (ch, name) ∈ st.subscriptions

/-- A WHO for a channel with subscribers is answered with these, each once. An error is sent
only if there are none. -/
def State.WhoExact (st : State) (env : Env) (a : SockAddr) (ch : Cname) : Prop :=
  ∃ st' sent, st.react env (.recv a (.who ch)) = .ok (st', sent) ∧
    ((∃ name, (ch, name) ∈ st.subscriptions) → ∃ names, sent = [⟨a, .who ch names⟩] ∧
      names.Nodup ∧ ∀ name, name ∈ names ↔ (ch, name) ∈ st.subscriptions) ∧
    ∀ d ∈ sent, ∀ text, d.msg = .error text → ∀ name, (ch, name) ∉ st.subscriptions

theorem State.Inv.react_list (h : st.Inv) (env : Env) (a : SockAddr) :
    ∃ st', st.react env (.recv a .list) = .ok (st', st.listReply a) := by
  rcases h.outcome env (.recv a .list) with ⟨hstumbles, -⟩ | ⟨st', sent, hok, heff⟩
  · exact hstumbles.1.elim
  · cases heff with
    | list hseen hch => exact ⟨st', hok⟩
    | stranger hneeds hget => cases hneeds

theorem State.Inv.react_who (h : st.Inv) (env : Env) (a : SockAddr) (ch : Cname) :
    ∃ st', st.react env (.recv a (.who ch)) = .ok (st', st.whoReply ch a) := by
  rcases h.outcome env (.recv a (.who ch)) with ⟨hstumbles, -⟩ | ⟨st', sent, hok, heff⟩
  · exact hstumbles.1.elim
  · cases heff with
    | who ch hseen hch => exact ⟨st', hok⟩
    | stranger hneeds hget => cases hneeds

/-- The keys of the table are the channels with subscribers. -/
theorem State.Rosters.mem_keys (h : st.Rosters) :
    ch ∈ st.channelUserLists.keys ↔ ∃ name, (ch, name) ∈ st.subscriptions := by
  rw [← AList.mem_keys, ← not_iff_not, not_exists, ← h.getChannel_eq_none]
  exact AList.lookup_eq_none.symm

theorem State.Inv.whoExact (h : st.Inv) (env : Env) (a : SockAddr) (ch : Cname) :
    st.WhoExact env a ch := by
  obtain ⟨st', hok⟩ := h.react_who env a ch
  refine ⟨st', _, hok, ?_⟩
  cases hc : st.getChannel ch with
  | none =>
      have hnobody := h.rosters.getChannel_eq_none.mp hc
      exact ⟨fun ⟨name, hname⟩ => absurd hname (hnobody name), fun _ _ _ _ => hnobody⟩
  | some c =>
      obtain ⟨hname, -, hnd⟩ := h.rosters ch c hc
      have hreply : st.whoReply ch a = [⟨a, .who ch c.userList⟩] := by
        rw [whoReply, hc, ← hname]
        rfl
      have hmem : ∀ name, name ∈ c.userList ↔ (ch, name) ∈ st.subscriptions := by
        intro name
        constructor
        · exact fun hin => ⟨c, hc, hin⟩
        · rintro ⟨c', hc', hin⟩
          rw [hc] at hc'
          cases hc'
          exact hin
      rw [hreply]
      refine ⟨fun _ => ⟨c.userList, rfl, hnd, hmem⟩, fun d hd text htext => ?_⟩
      rw [List.mem_singleton.mp hd] at htext
      cases htext

theorem State.Inv.listExact_iff (h : st.Inv) (env : Env) (a : SockAddr) :
    st.ListExact env a ↔ ∃ ch name, (ch, name) ∈ st.subscriptions := by
  obtain ⟨st', hok⟩ := h.react_list env a
  have hkeys : st.channelUserLists.keys ≠ [] ↔ ∃ ch name, (ch, name) ∈ st.subscriptions := by
    rw [← not_iff_not, not_not, List.eq_nil_iff_forall_not_mem, not_exists]
    exact forall_congr' fun ch => not_congr h.rosters.mem_keys
  rw [← hkeys]
  constructor
  · rintro ⟨st'', channels, hok', -⟩ hempty
    rw [hok, listReply, if_pos hempty] at hok'
    cases hok'
  · intro hne
    rw [listReply, if_neg hne] at hok
    exact ⟨st', st.channelUserLists.keys, hok, st.channelUserLists.keys_nodup,
      fun ch => h.rosters.mem_keys⟩

/-- The answers to LIST and WHO are the relation of subscriptions. -/
def State.AnswersSubscriptions (st : State) (env : Env) (a : SockAddr) : Prop :=
  st.ListExact env a ∧ ∀ ch, st.WhoExact env a ch

/-- In every reachable state, the answers to LIST and WHO are the relation of subscriptions
if and only if somebody is subscribed to a channel. -/
theorem listings_exact_iff (hst : st.Reachable) (env : Env) (a : SockAddr) :
    st.AnswersSubscriptions env a ↔ ∃ ch name, (ch, name) ∈ st.subscriptions := by
  have h := hst.inv
  rw [AnswersSubscriptions, h.listExact_iff]
  exact and_iff_left (h.whoExact env a)

/-- Alice is alone on a channel. -/
theorem listings_exact_iff_chat :
    ∃ st, State.initial.replay [(.at 0, .recv (desk 1) (.login alice)),
        (.at 0, .recv (desk 1) (.join chat))] = some st ∧
      st.AnswersSubscriptions (.at 0) (desk 2) := by
  have hfacts : (State.initial.replay [(.at 0, .recv (desk 1) (.login alice)),
      (.at 0, .recv (desk 1) (.join chat))]).map (fun st => (st.getChannel chat).map (·.userList)) =
      some (some [alice]) := by decide
  obtain ⟨st, hreplay, hfound⟩ := Option.map_eq_some_iff.mp hfacts
  obtain ⟨c, hc, husers⟩ := Option.map_eq_some_iff.mp hfound
  exact ⟨st, hreplay, (listings_exact_iff (State.run_of_replay hreplay) _ _).mpr
    ⟨chat, alice, c, hc, by simp [husers]⟩⟩

/-- Without channels a LIST is answered by an error. -/
theorem listings_of_no_channel : ¬ ∀ (st : State) (env : Env) (a : SockAddr),
    st.Reachable → st.AnswersSubscriptions env a := by
  intro hall
  obtain ⟨⟨st', channels, hok, -⟩, -⟩ := hall State.initial (.at 0) (desk 1) ⟨[], .nil _⟩
  have hreply : State.initial.react (.at 0) (.recv (desk 1) .list) =
      .ok (State.initial, [⟨desk 1, .error "Error getting channels"⟩]) := rfl
  rw [hreply] at hok
  cases hok

end CliMessaging.Standalone
