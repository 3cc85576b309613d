import CliMessaging.Verification.Distributed.ErrorPaths
import CliMessaging.Verification.Distributed.Topologies

/-! # Server-to-server messages from strangers

What a server does with a join, a leave or a say from an address that is not one of its
adjacent servers. -/

namespace CliMessaging.Distributed

open State

/-- Who is on the channel, where it is routed to and which messages it has seen. -/
def Channel.contents (c : Channel) : List User × List Server × Finset MsgUid :=
  (c.userList, c.serverList, c.uidSet)

/-- The handler completes, sends nothing, and leaves users, channels, memberships, routes
and uid sets as they were. -/
def Ignored (st : State) (env : Env) (cur : Addressable) (msg : S2sMsg) : Prop :=
  ∃ st', handler st env cur (.s2s msg) = .ok (st', []) ∧
    st'.uset.userList = st.uset.userList ∧ st'.sset.serverList = st.sset.serverList ∧
    ∀ name, (st'.chan name).map Channel.contents = (st.chan name).map Channel.contents

variable {adj : List Server} {st : State} {env : Env} {cur : Addressable} {c : Channel}
  {name : Cname}

theorem not_ignored_of_fault {msg : S2sMsg} {fault : Fault}
    (hfault : handler st env cur (.s2s msg) = .error fault) : ¬ Ignored st env cur msg := by
  rintro ⟨st', hok, -⟩
  rw [hfault] at hok
  cases hok

theorem sendMessage_eq_nil {targets : List Addressable} {msg : Msg} :
    sendMessage targets msg = [] ↔ targets = [] := by
  rw [sendMessage, List.map_eq_nil_iff]

/-- A say that reaches nobody finds a channel without users and without routes, which is
pruned. -/
theorem not_ignored_say (h : st.Inv adj) (hadj : cur ∉ adj) (hc : st.chan name = some c)
    (uid : MsgUid) (username : Uname) (text : SayText) :
    ¬ Ignored st env cur (.say uid username name text) := by
  rintro ⟨st', hok, -, -, hcontents⟩
  have hrouted := h.routed name c hc
  have hnew : uid ∉ c.uidSet := by simp [hrouted.uids]
  obtain ⟨st₁, hspec, hpruned⟩ := handleS2sSay_spec h.sound hc hnew cur username text
  have hall : c.serverList.filter (· ≠ cur) = c.serverList := by
    apply List.filter_eq_self.mpr
    intro t ht
    have hne : t ≠ cur := by
      rintro rfl
      exact hadj (hrouted.adjacent t ht)
    simpa using hne
  rw [handler, hspec, hall] at hok
  simp only [Except.ok.injEq, Prod.mk.injEq, List.append_eq_nil_iff] at hok
  obtain ⟨rfl, ⟨hservers, husers⟩, -⟩ := hok
  have hnoServers : c.serverList = [] := sendMessage_eq_nil.mp hservers
  have hnoUsers : c.userList = [] := by
    simpa using sendMessage_eq_nil.mp husers
  have hprune : c.shouldPrune := by
    have husize : c.uset.size = 0 := congrArg List.length hnoUsers
    have hssize : c.sset.size = 0 := congrArg List.length hnoServers
    simp [Channel.shouldPrune, husize, hssize]
  have hgone : st₁.chan name = none := by
    rw [hpruned.chan, hc]
    simp [Option.filter, hprune]
  have hkept := hcontents name
  rw [hgone, hc] at hkept
  cases hkept

/-- In no reachable state is a server-to-server message from a stranger ignored: a join or
a leave follows the null pointer of the server that was not found, and a say follows one
if the channel does not exist, and else is passed on or prunes the channel. -/
theorem stranger_not_ignored (hst : State.Reachable adj st)
    (hadj : cur ∉ st.sset.serverList) (env : Env) (msg : S2sMsg) :
    ¬ Ignored st env cur msg := by
  have h := hst.inv
  cases msg with
  | join name => exact not_ignored_of_fault (handleS2sJoin_of_stranger hadj)
  | leave name => exact not_ignored_of_fault (handleS2sLeave_of_stranger hadj)
  | say uid username name text =>
      cases hc : st.chan name with
      | none => exact not_ignored_of_fault (handleS2sSay_of_no_channel h.sound hc)
      | some c => exact not_ignored_say h (h.servers ▸ hadj) hc uid username text

/-- A join to a server without neighbours. -/
theorem stranger_not_ignored_alone :
    node 2 ∉ (State.initial []).sset.serverList ∧
      ¬ Ignored (State.initial []) ⟨0, 0⟩ (node 2) (.join chat) := by
  have hadj : node 2 ∉ (State.initial []).sset.serverList := by decide
  exact ⟨hadj, stranger_not_ignored (reachable_initial []) hadj ⟨0, 0⟩ (.join chat)⟩

/-- A join from a stranger brings a fresh server down. -/
theorem join_of_stranger_not_ignored :
    ¬ ∀ (adj : List Server) (st : State) (env : Env) (cur : Addressable) (msg : S2sMsg),
      State.Reachable adj st → cur ∉ st.sset.serverList → Ignored st env cur msg := by
  intro hall
  obtain ⟨st', hok, -⟩ := hall [] _ ⟨0, 0⟩ (node 2) (.join chat) (reachable_initial [])
    (by decide)
  cases hok

end CliMessaging.Distributed
