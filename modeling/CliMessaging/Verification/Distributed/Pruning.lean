import CliMessaging.Verification.Distributed.Invariant
import CliMessaging.Verification.Distributed.Replay
import CliMessaging.Verification.Distributed.Topologies

/-! # Pruning

Pruning takes from the list and from the map exactly the channels that nobody on the server
is on and that lead to at most one other server, and tells that server. -/

namespace CliMessaging.Distributed

open State

variable {adj : List Server} {st st' : State} {p : ℕ} {c : Channel} {name : Cname}

/-- The list and the map hold the same live channels, one for a name, each under its own. -/
structure State.OneChannelPerName (st : State) : Prop where
  nodup : st.cset.channelList.Nodup
  live : ∀ p ∈ st.cset.channelList, ∃ c, st.chans.cells p = some c
  map : ∀ name p, st.cset.channelMap.lookup name = some p ↔
    p ∈ st.cset.channelList ∧ ∃ c, st.chans.cells p = some c ∧ c.name = name

/-- `st'` is `st` without its prunable channels, and `sent` are the leaves for them. -/
structure State.PrunesTo (st st' : State) (sent : List Datagram) : Prop where
  list : st'.cset.channelList = st.cset.channelList.filter fun p => !st.prunable p
  map : ∀ name, st'.cset.channelMap.lookup name =
    (st.cset.channelMap.lookup name).filter fun p => !st.prunable p
  kept : ∀ p ∈ st'.cset.channelList, st'.chans.cells p = st.chans.cells p
  same : SameUsers st st'
  nodup : sent.Nodup
  leaves : ∀ d, d ∈ sent ↔ ∃ p ∈ st.cset.channelList, ∃ c, st.chans.cells p = some c ∧
    st.prunable p ∧ d.dst ∈ c.serverList ∧ d.msg = .s2s (.leave c.name)

theorem State.Sound.oneChannelPerName (hs : st.Sound) : st.OneChannelPerName where
  nodup := hs.nodup
  live := hs.live
  map name p := by
    rw [hs.index name p, nameOf, Option.map_eq_some_iff]

theorem prunable_iff (hc : st.chans.cells p = some c) :
    st.prunable p ↔ c.userList = [] ∧ c.serverList.length ≤ 1 := by
  rw [st.prunable_of_cells hc, Channel.shouldPrune, decide_eq_true_eq, UserSet.size,
    List.length_eq_zero_iff]
  exact Iff.rfl

/-! ## The leaves -/

theorem nodup_objects (h : Heap Channel) {ps : List ℕ} (hnd : ps.Nodup) :
    (h.objects ps).Nodup := by
  apply hnd.filterMap
  rintro p q ⟨r, c⟩ hp hq
  obtain ⟨a, -, hpr⟩ := Option.map_eq_some_iff.mp hp
  obtain ⟨b, -, hqr⟩ := Option.map_eq_some_iff.mp hq
  rw [(Prod.mk.inj hpr).1, (Prod.mk.inj hqr).1]

/-- No server is told twice about a channel: a channel leads to one server at most, and two
channels have two names. -/
theorem nodup_pruneLeaves (hs : st.Sound) : (pruneLeaves st).Nodup := by
  rw [pruneLeaves, List.nodup_flatMap]
  constructor
  · rintro ⟨p, c⟩ hmem
    obtain ⟨-, hprune⟩ := List.mem_filter.mp hmem
    have hlen : (broadcastS2sLeave c.serverList c.name).length ≤ 1 := by
      rw [broadcastS2sLeave, sendMessage, List.length_map]
      exact (of_decide_eq_true hprune).2
    exact List.nodup_iff_count_le_one.mpr fun d => List.count_le_length.trans hlen
  · apply ((nodup_objects st.chans hs.nodup).filter _).pairwise_of_forall_ne
    rintro ⟨p, c⟩ hp ⟨q, c'⟩ hq hne
    obtain ⟨hpin, hpc⟩ := Heap.mem_objects.mp (List.mem_of_mem_filter hp)
    obtain ⟨hqin, hqc⟩ := Heap.mem_objects.mp (List.mem_of_mem_filter hq)
    rintro d hd hd'
    obtain ⟨t, -, rfl⟩ := List.mem_map.mp hd
    obtain ⟨t', -, heq⟩ := List.mem_map.mp hd'
    have hname : c'.name = c.name := by
      simpa using (Datagram.mk.inj heq).2
    have hpq : p = q := hs.index.eq_of_key_eq hpin hqin (nameOf_of_cells hpc)
      ((nameOf_of_cells hqc).trans (congrArg some hname))
    subst hpq
    rw [hpc] at hqc
    cases hqc
    exact hne rfl

/-! ## The tables -/

/-- The map of a sound table without some of its channels finds the channels that are left. -/
theorem State.Deleted.lookup {ps : List ℕ} (h : st.Deleted ps st') (hs : st.Sound) (name : Cname) :
    st'.cset.channelMap.lookup name =
      (st.cset.channelMap.lookup name).filter fun p => decide (p ∉ ps) := by
  apply Option.ext
  intro p
  rw [Option.filter_eq_some_iff, h.sound.oneChannelPerName.map, hs.oneChannelPerName.map, h.list,
    List.mem_filter, and_right_comm]
  apply and_congr_left
  intro hp
  rw [decide_eq_true_eq] at hp
  rw [h.cells p hp]

/-- Pruning from the list of the server is exact in every sound state, so also between the
steps of a handler. -/
theorem State.Sound.prunesTo (hs : st.Sound) :
    ∃ st' sent, channelPruningProcedure st st.s2sGetChannels = .ok (st', sent) ∧
      st.PrunesTo st' sent := by
  obtain ⟨st', hok, hdel⟩ := hs.prune_deletes
  have hspared : ∀ p ∈ st.cset.channelList,
      decide (p ∉ st.cset.channelList.filter st.prunable) = !st.prunable p := by
    intro p hp
    cases hprune : st.prunable p <;> simp [hp, hprune]
  refine ⟨st', pruneLeaves st, hok, ?_, fun name => ?_, fun p hp => ?_, hdel.same,
    nodup_pruneLeaves hs, fun d => ?_⟩
  · rw [hdel.list]
    exact List.filter_congr hspared
  · rw [hdel.lookup hs]
    cases hl : st.cset.channelMap.lookup name with
    | none => rfl
    | some p => simp only [Option.filter_some, hspared p (hs.index.mem_of_lookup hl)]
  · rw [hdel.list, List.mem_filter, decide_eq_true_eq] at hp
    exact hdel.cells p hp.2
  · rw [mem_pruneLeaves_pointer]
    constructor
    · rintro ⟨p, hp, c, hc, hprune, hleave⟩
      exact ⟨p, hp, c, hc, (st.prunable_of_cells hc).trans hprune, hleave⟩
    · rintro ⟨p, hp, c, hc, hprune, hleave⟩
      exact ⟨p, hp, c, hc, (st.prunable_of_cells hc).symm.trans hprune, hleave⟩

/-- In every reachable state the list and the map hold the same channels, one for a name.
Pruning removes from both exactly the channels with no user and at most one server, sends
one leave for each of them to each of its servers and to nobody else, and leaves all else
as it is. -/
theorem pruning_exact (hst : State.Reachable adj st) :
    st.OneChannelPerName ∧
      (∀ p c, st.chans.cells p = some c →
        (st.prunable p ↔ c.userList = [] ∧ c.serverList.length ≤ 1)) ∧
      ∃ st' sent, channelPruningProcedure st st.s2sGetChannels = .ok (st', sent) ∧
        st.PrunesTo st' sent :=
  ⟨hst.inv.sound.oneChannelPerName, fun _ _ => prunable_iff, hst.inv.sound.prunesTo⟩

/-- A channel that another server has asked for and nobody is on. -/
theorem pruning_exact_relay :
    ∃ rs st st' sent, (State.initial [node 2]).replay
        [(⟨0, 0⟩, .recv (node 2) (.s2s (.join chat)))] = some (rs, st) ∧
      st.cset.channelList = [0] ∧
      channelPruningProcedure st st.s2sGetChannels = .ok (st', sent) ∧
      st'.cset.channelList = [] ∧ ⟨node 2, .s2s (.leave chat)⟩ ∈ sent := by
  have hfacts : ((State.initial [node 2]).replay
      [(⟨0, 0⟩, .recv (node 2) (.s2s (.join chat)))]).map (fun p => (p.2.cset.channelList,
        p.2.prunable 0, (p.2.chans.cells 0).map fun c => (c.name, c.serverList))) =
      some ([0], true, some (chat, [node 2])) := by decide
  obtain ⟨⟨rs, st⟩, hreplay, hfound⟩ := Option.map_eq_some_iff.mp hfacts
  simp only [Prod.mk.injEq, Option.map_eq_some_iff] at hfound
  obtain ⟨hlist, hprune, c, hc, hname, hservers⟩ := hfound
  have hst : State.Reachable [node 2] st := State.reachable_of_replay hreplay
  obtain ⟨-, -, st', sent, hok, hprunes⟩ := pruning_exact hst
  refine ⟨rs, st, st', sent, hreplay, hlist, hok, ?_, ?_⟩
  · rw [hprunes.list, hlist]
    simp [hprune]
  · refine (hprunes.leaves _).mpr ⟨0, by simp [hlist], c, hc, hprune, by simp [hservers], ?_⟩
    rw [hname]

end CliMessaging.Distributed
