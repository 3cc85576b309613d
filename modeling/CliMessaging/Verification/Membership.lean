import CliMessaging.Verification.Distributed.Members
import CliMessaging.Verification.Standalone.Sessions

/-! # Speaking on a channel without being on it

The standalone server refuses a say on a channel whose list does not name the speaker.
The distributed server has the same test and never runs it. -/

namespace CliMessaging

namespace Distributed

open State

variable {adj : List Server} {st : State} {env : Env} {cur : Addressable} {name : Cname}
  {user : User} {c : Channel} {text : SayText}

def Msg.IsSay : Msg → Prop
  | .text (.say _ _ _) | .s2s (.say _ _ _ _) => True
  | _ => False

/-- The request is answered, and no say goes to a client or to a server. -/
def SaysNothing (result : Result) : Prop :=
  ∃ st' sent, result = .ok (st', sent) ∧ ∀ d ∈ sent, ¬ d.msg.IsSay

/-- A say is passed on to everybody on the channel, whoever sends it. -/
theorem saysNothing_iff_unheard (hs : st.Sound) (huser : st.uset.getUserByIp cur = some user)
    (hc : st.chan name = some c) (env : Env) (text : SayText) :
    SaysNothing (st.react env (.recv cur (.client (.say name text)))) ↔
      c.userList = [] ∧ c.serverList = [] := by
  have hspec : st.react env (.recv cur (.client (.say name text))) = _ :=
    handleSay_spec hs huser hc
  rw [hspec]
  constructor
  · rintro ⟨st', sent, heq, hquiet⟩
    cases heq
    constructor
    · apply List.eq_nil_iff_forall_not_mem.mpr
      intro u hu
      apply hquiet ⟨u.addr, .text (.say name user.name text)⟩ _ trivial
      exact List.mem_append_left _ (List.mem_map_of_mem (List.mem_map_of_mem hu))
    · apply List.eq_nil_iff_forall_not_mem.mpr
      intro t ht
      apply hquiet ⟨t, .s2s (.say env.uid user.name name text)⟩ _ trivial
      exact List.mem_append_right _ (List.mem_map_of_mem ht)
  · rintro ⟨husers, hservers⟩
    refine ⟨_, _, rfl, fun d hd => ?_⟩
    simp [husers, hservers, broadcastSay, broadcastS2sSay, sendMessage] at hd

end Distributed

namespace Standalone

open State

variable {st : State} {a : SockAddr} {ch : Cname} {name : Uname} {c : ChannelUsersList}

/-- A say of a client that is not on the list of the channel is answered by an error. -/
theorem State.Inv.say_of_outsider (h : st.Inv) (hin : (name, a) ∈ st.sessions)
    (hc : st.getChannel ch = some c) (hout : name ∉ c.userList) (env : Env) (text : SayText) :
    ∃ st', st.react env (.recv a (.say ch text)) =
      .ok (st', sendError "User is not part of channel" a) := by
  rcases h.outcome env (.recv a (.say ch text)) with ⟨hstumbles, -⟩ | ⟨st', sent, hok, heff⟩
  · exact absurd hstumbles.1 id
  have hname : ∀ {p u}, st.Speaks env.now a p u st' → u.username = name := fun hspeaks =>
    h.directory.partialBijection.2 _ name a hspeaks.mem_sessions hin
  cases heff with
  | stranger hreq hget => exact absurd hin (h.directory.getUser_eq_none.mp hget name)
  | sayNowhere text hspeaks hch hnone =>
      rw [hc] at hnone
      cases hnone
  | sayOutside text hspeaks hch hc' hmem => exact ⟨st', hok⟩
  | say text hspeaks hch hc' hmem =>
      rw [hc] at hc'
      cases hc'
      rw [hname hspeaks] at hmem
      exact absurd hmem hout

end Standalone

open Distributed in
/-- In a reachable state of a distributed server, a say from a logged-in client that is not
on the channel is silenced if and only if the channel has neither users nor routes: that the
client is not on it makes no difference. In a reachable state of the standalone server, such a
say always gets the error instead. -/
theorem outsider_silenced_iff_unheard {adj : List Server} {st : Distributed.State}
    (hst : Distributed.State.Reachable adj st) (env : Distributed.Env) {cur : Addressable}
    {user : Distributed.User} (huser : st.uset.getUserByIp cur = some user) {name : Cname}
    {c : Channel} (hc : st.chan name = some c) (_hout : c.containsUser user = false)
    (text : SayText) :
    (SaysNothing (st.react env (.recv cur (.client (.say name text)))) ↔
        c.userList = [] ∧ c.serverList = []) ∧
      ∀ (st : Standalone.State) (env : Standalone.Env) (a : SockAddr) (username : Uname)
        (list : Standalone.ChannelUsersList), st.Reachable → (username, a) ∈ st.sessions →
        st.getChannel name = some list → username ∉ list.userList →
        ∃ st', st.react env (.recv a (.say name text)) =
          .ok (st', Standalone.sendError "User is not part of channel" a) :=
  ⟨saysNothing_iff_unheard hst.inv.sound huser hc env text,
    fun _ env _ _ _ hst hin hc hout => hst.inv.say_of_outsider hin hc hout env text⟩

namespace Distributed

/-- Alice is on the channel, bob is only logged in. -/
def bystander : List (Env × Input) :=
  [(⟨0, 0⟩, .recv (desk 1) (.client (.login alice))),
    (⟨0, 0⟩, .recv (desk 1) (.client (.join chat))),
    (⟨0, 0⟩, .recv (desk 2) (.client (.login bob)))]

/-- The table and the sender in the state of a replayed run. -/
theorem bystander_facts : ∃ rs st, (State.initial []).replay bystander = some (rs, st) ∧
    st.uset.getUserByIp (desk 2) = some ⟨1, bob, desk 2⟩ ∧
    st.chan chat = some ((Channel.new chat).addUser ⟨0, alice, desk 1⟩) := by
  have hfound : ((State.initial []).replay bystander).map
      (fun p => p.2.uset.getUserByIp (desk 2)) = some (some ⟨1, bob, desk 2⟩) := by decide
  have hchan : ((State.initial []).replay bystander).map (fun p => p.2.chan chat) =
      some (some ((Channel.new chat).addUser ⟨0, alice, desk 1⟩)) := rfl
  obtain ⟨⟨rs, st⟩, hreplay, huser⟩ := Option.map_eq_some_iff.mp hfound
  rw [hreplay] at hchan
  exact ⟨rs, st, hreplay, huser, Option.some.inj hchan⟩

end Distributed

open Distributed

/-- Alice times out while bob stays logged in. Her channel is left without users and routes,
and what he says there goes to nobody. -/
theorem outsider_silenced_iff_unheard_abandoned :
    ∃ rs st, (State.initial []).replay (bystander ++
        [(⟨150, 0⟩, .recv (desk 2) (.client .keepAlive)), (⟨200, 0⟩, .userTimeout)]) =
          some (rs, st) ∧
      (st.chan chat).isSome ∧
      SaysNothing (st.react ⟨200, 0⟩ (.recv (desk 2) (.client (.say chat hello)))) := by
  have hfacts : ((State.initial []).replay (bystander ++
      [(⟨150, 0⟩, .recv (desk 2) (.client .keepAlive)), (⟨200, 0⟩, .userTimeout)])).map
        (fun p => (p.2.uset.getUserByIp (desk 2), (p.2.chan chat).map fun c =>
          (c.userList, c.serverList, c.containsUser ⟨1, bob, desk 2⟩))) =
      some (some ⟨1, bob, desk 2⟩, some ([], [], false)) := by decide
  obtain ⟨⟨rs, st⟩, hreplay, hfound⟩ := Option.map_eq_some_iff.mp hfacts
  obtain ⟨huser, hchan⟩ := Prod.mk.inj hfound
  obtain ⟨c, hc, hempty⟩ := Option.map_eq_some_iff.mp hchan
  simp only [Prod.mk.injEq] at hempty
  obtain ⟨husers, hservers, hout⟩ := hempty
  have hst : State.Reachable [] st := State.reachable_of_replay hreplay
  refine ⟨rs, st, hreplay, Option.isSome_of_eq_some hc, ?_⟩
  exact (outsider_silenced_iff_unheard hst ⟨200, 0⟩ huser hc hout hello).1.mpr ⟨husers, hservers⟩

/-- Bob speaks on alice's channel. -/
theorem outsider_heard_bystander :
    ¬ ∀ (adj : List Server) (st : State) (env : Env) (cur : Addressable) (user : User)
      (name : Cname) (c : Channel) (text : SayText), State.Reachable adj st →
      st.uset.getUserByIp cur = some user → st.chan name = some c →
      c.containsUser user = false →
      SaysNothing (st.react env (.recv cur (.client (.say name text)))) := by
  intro hall
  obtain ⟨rs, st, hreplay, huser, hc⟩ := bystander_facts
  have hst : State.Reachable [] st := State.reachable_of_replay hreplay
  have hnothing := hall [] st ⟨0, 0⟩ _ _ _ _ hello hst huser hc (by decide)
  obtain ⟨husers, -⟩ := (saysNothing_iff_unheard hst.inv.sound huser hc _ _).mp hnothing
  exact absurd husers (by decide)

end CliMessaging
