import CliMessaging.Model.Distributed.Handlers

/-! # The channel table of a server

The list, the map and the heap together represent a finite map from names to
channels. The operations of `State` on channels are described on that map. -/

namespace CliMessaging.Distributed

namespace State

/-- The channel of a name: the abstract table. -/
def chan (st : State) (name : Cname) : Option Channel :=
  (st.cset.channelMap.lookup name).bind st.chans.cells

def nameOf (h : Heap Channel) (p : ℕ) : Option Cname := (h.cells p).map Channel.name

/-- The list holds each live channel once, and the map finds it under its own name. -/
structure Sound (st : State) : Prop where
  nodup : st.cset.channelList.Nodup
  live : st.chans.Live st.cset.channelList
  index : Indexes (nameOf st.chans) st.cset.channelList st.cset.channelMap

/-- `st'` differs from `st` at most in its channels. -/
structure SameUsers (st st' : State) : Prop where
  uset : st'.uset = st.uset
  sset : st'.sset = st.sset
  lastSeen : st'.lastSeen = st.lastSeen
  nextUser : st'.nextUser = st.nextUser

theorem SameUsers.refl (st : State) : SameUsers st st := ⟨rfl, rfl, rfl, rfl⟩

theorem SameUsers.trans {s t u : State} (h : SameUsers s t) (k : SameUsers t u) :
    SameUsers s u :=
  ⟨k.uset.trans h.uset, k.sset.trans h.sset, k.lastSeen.trans h.lastSeen,
    k.nextUser.trans h.nextUser⟩

end State

open State

variable {st : State} {name : Cname} {c : Channel} {p : ℕ}

theorem nameOf_of_cells {h : Heap Channel} (hc : h.cells p = some c) :
    nameOf h p = some c.name := by
  simp [nameOf, hc]

/-! ## Reading the table -/

theorem State.Sound.chan_eq_some (hs : st.Sound) :
    st.chan name = some c ↔
      ∃ p ∈ st.cset.channelList, st.chans.cells p = some c ∧ c.name = name := by
  rw [chan, Option.bind_eq_some_iff]
  constructor
  · rintro ⟨p, hp, hc⟩
    have hname := hs.index.key_of_lookup hp
    rw [nameOf_of_cells hc] at hname
    exact ⟨p, hs.index.mem_of_lookup hp, hc, Option.some.inj hname⟩
  · rintro ⟨p, hp, hc, rfl⟩
    exact ⟨p, hs.index.lookup_of_mem hp (nameOf_of_cells hc), hc⟩

theorem State.Sound.chan_of_mem (hs : st.Sound) (hp : p ∈ st.cset.channelList)
    (hc : st.chans.cells p = some c) : st.chan c.name = some c :=
  hs.chan_eq_some.mpr ⟨p, hp, hc, rfl⟩

/-- A pointer found in the map leads to the channel of that name. -/
theorem State.Sound.cells_of_getChannel (hs : st.Sound) (hp : st.cset.getChannel name = some p) :
    ∃ c, st.chans.cells p = some c ∧ c.name = name ∧ st.chan name = some c := by
  obtain ⟨c, hc⟩ := hs.live p (hs.index.mem_of_lookup hp)
  have hname := hs.index.key_of_lookup hp
  rw [nameOf_of_cells hc] at hname
  refine ⟨c, hc, Option.some.inj hname, ?_⟩
  rw [chan, show st.cset.channelMap.lookup name = some p from hp]
  exact hc

theorem State.Sound.getChannel_eq_none (hs : st.Sound) :
    st.cset.getChannel name = none ↔ st.chan name = none := by
  cases hp : st.cset.getChannel name with
  | none =>
      have hl : st.cset.channelMap.lookup name = none := hp
      simp [chan, hl]
  | some p =>
      obtain ⟨c, -, -, hc⟩ := hs.cells_of_getChannel hp
      simp [hc]

theorem State.Sound.channel?_eq (hs : st.Sound) (name : Cname) :
    st.channel? name = .ok (st.chan name) := by
  unfold channel?
  cases hp : st.cset.getChannel name with
  | none => rw [hs.getChannel_eq_none.mp hp]
  | some p =>
      obtain ⟨c, hc, -, hchan⟩ := hs.cells_of_getChannel hp
      simp [Heap.read_eq_ok.mpr hc, hchan]

/-! ## Changing one channel -/

/-- Changing the channel behind a pointer of the map changes the table at its name. -/
theorem State.Sound.modifyChannel (hs : st.Sound) (hp : st.cset.getChannel name = some p)
    {f : Channel → Channel} (hf : ∀ c, (f c).name = c.name) :
    ∃ st', st.modifyChannel p f = .ok st' ∧ st'.Sound ∧ SameUsers st st' ∧
      st'.chan = Function.update st.chan name ((st.chan name).map f) := by
  obtain ⟨c, hc, hname, hchan⟩ := hs.cells_of_getChannel hp
  obtain ⟨h', hmod, hcells, -⟩ := Heap.modify_of_live hc f
  have hkeys : ∀ q, nameOf h' q = nameOf st.chans q := by
    intro q
    by_cases hq : q = p
    · subst hq
      simp [nameOf, hcells, hc, hf]
    · simp [nameOf, hcells, hq]
  refine ⟨{ st with chans := h' }, by simp [State.modifyChannel, hmod], ?_,
    ⟨rfl, rfl, rfl, rfl⟩, ?_⟩
  · refine ⟨hs.nodup, ?_, hs.index.congr_key fun q _ => hkeys q⟩
    intro q hq
    obtain ⟨d, hd⟩ := hs.live q hq
    by_cases hqp : q = p
    · exact ⟨f c, by simp [hcells, hqp]⟩
    · exact ⟨d, by simp [hcells, hqp, hd]⟩
  · funext other
    by_cases hother : other = name
    · subst hother
      have hl : st.cset.channelMap.lookup other = some p := hp
      simp [chan, hl, hcells, hc]
    · rw [Function.update_of_ne hother]
      simp only [chan]
      cases hl : st.cset.channelMap.lookup other with
      | none => rfl
      | some q =>
          have hqp : q ≠ p := by
            rintro rfl
            have h₁ := hs.index.key_of_lookup hl
            rw [nameOf_of_cells hc, hname] at h₁
            exact hother (Option.some.inj h₁).symm
          simp [hcells, hqp]

/-- A channel with a new name enters the table. -/
theorem State.Sound.addChannel (hs : st.Sound) (hfree : st.chan c.name = none) :
    (st.addChannel c).Sound ∧ SameUsers st (st.addChannel c) ∧
      (st.addChannel c).chan = Function.update st.chan c.name (some c) := by
  have hlookup : st.cset.channelMap.lookup c.name = none := hs.getChannel_eq_none.mpr hfree
  have hcset : st.cset.addChannel st.chans.next c.name =
      { channelList := st.cset.channelList ++ [st.chans.next]
        channelMap := st.cset.channelMap.insert c.name st.chans.next } := by
    simp [ChannelSet.addChannel, ChannelSet.containsChannel, hlookup,
      insertNew_of_lookup_none hlookup]
  have hne : ∀ q ∈ st.cset.channelList, q ≠ st.chans.next := by
    intro q hq
    obtain ⟨d, hd⟩ := hs.live q hq
    exact Heap.ne_next hd
  have hkeys : ∀ q ∈ st.cset.channelList,
      nameOf (st.chans.alloc c) q = nameOf st.chans q := by
    intro q hq
    simp [nameOf, hne q hq]
  refine ⟨⟨?_, ?_, ?_⟩, ⟨rfl, rfl, rfl, rfl⟩, ?_⟩
  · simp only [State.addChannel, hcset]
    apply List.nodup_append.mpr
    refine ⟨hs.nodup, by simp, ?_⟩
    intro q hq q' hq'
    rw [List.mem_singleton.mp hq']
    exact hne q hq
  · simp only [State.addChannel, hcset]
    intro q hq
    rcases List.mem_append.mp hq with hq | hq
    · obtain ⟨d, hd⟩ := hs.live q hq
      exact ⟨d, by simp [hne q hq, hd]⟩
    · exact ⟨c, by simp [List.mem_singleton.mp hq]⟩
  · simp only [State.addChannel, hcset]
    exact (hs.index.congr_key hkeys).append (by simp [nameOf]) hlookup
  · funext other
    simp only [State.addChannel, hcset, chan]
    by_cases hother : other = c.name
    · subst hother
      simp
    · rw [AList.lookup_insert_ne hother, Function.update_of_ne hother]
      cases hl : st.cset.channelMap.lookup other with
      | none => simp [chan, hl]
      | some q => simp [chan, hl, hne q (hs.index.mem_of_lookup hl)]

/-! ## Changing every channel -/

/-- Changing the objects of all listed channels changes the whole table. -/
theorem State.Sound.modifyAll (hs : st.Sound) {f : Channel → Channel}
    (hf : ∀ c, (f c).name = c.name) :
    ∃ h', st.chans.modifyAll f st.cset.channelList = .ok h' ∧
      ({ st with chans := h' } : State).Sound ∧
      ∀ name, ({ st with chans := h' } : State).chan name = (st.chan name).map f := by
  obtain ⟨h', hmod, -, hcells⟩ := Heap.modifyAll_of_live f hs.live hs.nodup
  have hlisted : ∀ q ∈ st.cset.channelList, h'.cells q = (st.chans.cells q).map f := by
    intro q hq
    rw [hcells, if_pos hq]
  refine ⟨h', hmod, ⟨hs.nodup, ?_, ?_⟩, ?_⟩
  · intro q hq
    obtain ⟨d, hd⟩ := hs.live q hq
    exact ⟨f d, by simp [hlisted q hq, hd]⟩
  · apply hs.index.congr_key
    intro q hq
    obtain ⟨d, hd⟩ := hs.live q hq
    simp [nameOf, hlisted q hq, hd, hf]
  · intro name
    simp only [chan]
    cases hl : st.cset.channelMap.lookup name with
    | none => rfl
    | some q => simpa using hlisted q (hs.index.mem_of_lookup hl)

/-! ## Deleting channels -/

theorem eraseNamed_eq (hs : st.Sound) {ps : List ℕ} (hps : ∀ q ∈ ps, q ∈ st.cset.channelList)
    (hp : p ∈ st.cset.channelList) (hc : st.chans.cells p = some c) :
    ChannelSet.eraseNamed st.chans c.name ps = .ok (ps.erase p) := by
  induction ps with
  | nil => rfl
  | cons q ps ih =>
      have hq := hps q (by simp)
      obtain ⟨d, hd⟩ := hs.live q hq
      have hrest := ih fun r hr => hps r (by simp [hr])
      by_cases hqp : q = p
      · subst hqp
        simp [ChannelSet.eraseNamed, Heap.read_eq_ok.mpr hc]
      · have hname : d.name ≠ c.name := by
          intro heq
          apply hqp
          apply hs.index.eq_of_key_eq hq hp (nameOf_of_cells hd)
          rw [nameOf_of_cells hc, heq]
        simp [ChannelSet.eraseNamed, Heap.read_eq_ok.mpr hd, hname, hrest, hqp]

/-- Deleting a listed channel removes its name from the table, and only its object
from the heap. -/
theorem State.Sound.deleteChannel (hs : st.Sound) (hp : p ∈ st.cset.channelList)
    (hc : st.chans.cells p = some c) :
    ∃ st', deleteChannel st p = .ok st' ∧ st'.Sound ∧ SameUsers st st' ∧
      st'.cset.channelList = st.cset.channelList.erase p ∧
      st'.chans.cells = Function.update st.chans.cells p none := by
  obtain ⟨h', hfree, hcells, -⟩ := Heap.free_of_live hc
  have hrm : st.cset.removeChannel st.chans p =
      .ok { channelList := st.cset.channelList.erase p
            channelMap := st.cset.channelMap.erase c.name } := by
    simp [ChannelSet.removeChannel, Heap.read_eq_ok.mpr hc, eraseNamed_eq hs (fun _ h => h) hp hc]
  have hne : ∀ q ∈ st.cset.channelList.erase p, q ≠ p := fun q hq =>
    (hs.nodup.mem_erase_iff.mp hq).1
  let cset : ChannelSet :=
    { channelList := st.cset.channelList.erase p
      channelMap := st.cset.channelMap.erase c.name }
  refine ⟨{ st with cset, chans := h' }, by simp [Distributed.deleteChannel, hrm, hfree, cset],
    ⟨?_, ?_, ?_⟩, ⟨rfl, rfl, rfl, rfl⟩, rfl, hcells⟩
  · exact hs.nodup.erase p
  · intro q hq
    obtain ⟨d, hd⟩ := hs.live q (List.mem_of_mem_erase hq)
    exact ⟨d, by simp [hcells, hne q hq, hd]⟩
  · apply (hs.index.erase hs.nodup hp (nameOf_of_cells hc)).congr_key
    intro q hq
    simp [nameOf, hcells, hne q hq]

/-- The channels of a list are gone from the table, and nothing else is. -/
structure State.Deleted (st : State) (ps : List ℕ) (st' : State) : Prop where
  sound : st'.Sound
  same : SameUsers st st'
  list : st'.cset.channelList = st.cset.channelList.filter (· ∉ ps)
  cells : ∀ q, q ∉ ps → st'.chans.cells q = st.chans.cells q

theorem State.Sound.deleteChannels (hs : st.Sound) {ps : List ℕ} (hnd : ps.Nodup)
    (hps : ∀ p ∈ ps, p ∈ st.cset.channelList) :
    ∃ st', deleteChannels st ps = .ok st' ∧ st.Deleted ps st' := by
  induction ps generalizing st with
  | nil => exact ⟨st, rfl, hs, .refl st, by simp, by simp⟩
  | cons p ps ih =>
      obtain ⟨hp, hnd⟩ := List.nodup_cons.mp hnd
      obtain ⟨c, hc⟩ := hs.live p (hps p (by simp))
      obtain ⟨st₁, hdel, hs₁, hsame₁, hlist₁, hcells₁⟩ := hs.deleteChannel (hps p (by simp)) hc
      have hps₁ : ∀ q ∈ ps, q ∈ st₁.cset.channelList := by
        intro q hq
        rw [hlist₁, hs.nodup.mem_erase_iff]
        exact ⟨by rintro rfl; exact hp hq, hps q (by simp [hq])⟩
      obtain ⟨st₂, hrest, h₂⟩ := ih hs₁ hnd hps₁
      refine ⟨st₂, by simp [Distributed.deleteChannels, hdel, hrest], h₂.sound,
        hsame₁.trans h₂.same, ?_, ?_⟩
      · rw [h₂.list, hlist₁, hs.nodup.erase_eq_filter, List.filter_filter]
        apply List.filter_congr
        intro q _
        by_cases hqp : q = p <;> simp [hqp]
      · intro q hq
        obtain ⟨hqp, hq⟩ : q ≠ p ∧ q ∉ ps := by simpa using hq
        rw [h₂.cells q hq, hcells₁, Function.update_of_ne hqp]

/-! ## Pruning -/

/-- The leaves that pruning sends from a state. -/
def pruneLeaves (st : State) : List Datagram :=
  ((st.chans.objects st.cset.channelList).filter fun c => c.2.shouldPrune).flatMap fun c =>
    broadcastS2sLeave c.2.serverList c.2.name

theorem mem_pruneLeaves_pointer {d : Datagram} : d ∈ pruneLeaves st ↔
    ∃ p ∈ st.cset.channelList, ∃ c, st.chans.cells p = some c ∧ c.shouldPrune ∧
      d.dst ∈ c.serverList ∧ d.msg = .s2s (.leave c.name) := by
  simp only [pruneLeaves, List.mem_flatMap, List.mem_filter, broadcastS2sLeave, sendMessage,
    List.mem_map]
  constructor
  · rintro ⟨⟨p, c⟩, ⟨hobj, hprune⟩, t, ht, rfl⟩
    obtain ⟨hp, hc⟩ := Heap.mem_objects.mp hobj
    exact ⟨p, hp, c, hc, hprune, ht, rfl⟩
  · rintro ⟨p, hp, c, hc, hprune, ht, hmsg⟩
    refine ⟨(p, c), ⟨Heap.mem_objects.mpr ⟨hp, hc⟩, hprune⟩, d.dst, ht, ?_⟩
    cases d
    cases hmsg
    rfl

theorem mem_pruneLeaves (hs : st.Sound) {d : Datagram} :
    d ∈ pruneLeaves st ↔ ∃ name c, st.chan name = some c ∧ c.shouldPrune ∧
      d.dst ∈ c.serverList ∧ d.msg = .s2s (.leave name) := by
  rw [mem_pruneLeaves_pointer]
  constructor
  · rintro ⟨p, hp, c, hc, hleave⟩
    exact ⟨c.name, c, hs.chan_of_mem hp hc, hleave⟩
  · rintro ⟨name, c, hchan, hleave⟩
    obtain ⟨p, hp, hc, rfl⟩ := hs.chan_eq_some.mp hchan
    exact ⟨p, hp, c, hc, hleave⟩

/-- `st'` is `st` without its prunable channels. -/
structure State.Pruned (st st' : State) : Prop where
  sound : st'.Sound
  same : SameUsers st st'
  chan : ∀ name, st'.chan name = (st.chan name).filter fun c => !c.shouldPrune

theorem State.Pruned.chan_eq_some {st' : State} (h : st.Pruned st') :
    st'.chan name = some c ↔ st.chan name = some c ∧ c.shouldPrune = false := by
  rw [h.chan, Option.filter_eq_some_iff, Bool.not_eq_true']

/-- A property of one channel is kept when an entry of the table changes. -/
theorem chan_of_update {Q : Channel → Prop} {st' : State} {new : Option Channel} {other : Cname}
    (h : ∀ c, st.chan other = some c → Q c) (hchan : st'.chan = Function.update st.chan name new)
    (hnew : other = name → ∀ c, new = some c → Q c) : ∀ c, st'.chan other = some c → Q c := by
  intro c hc
  rw [hchan] at hc
  by_cases hother : other = name
  · rw [hother, Function.update_self] at hc
    exact hnew hother c hc
  · rw [Function.update_of_ne hother] at hc
    exact h c hc

/-- A property of every channel is kept when one entry of the table changes. -/
theorem forall_chan_of_update {Q : Channel → Prop} {st' : State} {new : Option Channel}
    (h : ∀ other c, st.chan other = some c → Q c)
    (hchan : st'.chan = Function.update st.chan name new) (hnew : ∀ c, new = some c → Q c) :
    ∀ other c, st'.chan other = some c → Q c :=
  fun other => chan_of_update (h other) hchan fun _ => hnew

theorem State.Pruned.forall_chan {Q : Channel → Prop} {st' : State} (hp : st.Pruned st')
    (h : ∀ other c, st.chan other = some c → Q c) :
    ∀ other c, st'.chan other = some c → Q c :=
  fun other c hc => h other c (hp.chan_eq_some.mp hc).1

/-- The object behind a pointer is a channel that should be pruned. -/
def State.prunable (st : State) (p : ℕ) : Bool := (st.chans.cells p).any Channel.shouldPrune

theorem State.prunable_of_cells (hc : st.chans.cells p = some c) :
    st.prunable p = c.shouldPrune := by
  rw [prunable, hc, Option.any_some]

/-- Pruning from the server's own list deletes the prunable channels of the list. -/
theorem State.Sound.prune_deletes (hs : st.Sound) :
    ∃ st', channelPruningProcedure st st.s2sGetChannels = .ok (st', pruneLeaves st) ∧
      st.Deleted (st.cset.channelList.filter st.prunable) st' := by
  obtain ⟨st', hdel, hdeleted⟩ := hs.deleteChannels (hs.nodup.filter st.prunable)
    fun p hp => List.mem_of_mem_filter hp
  have hall : st.chans.readAll st.cset.channelList = _ := Heap.readAll_of_live hs.live
  refine ⟨st', ?_, hdeleted⟩
  have hdead : ((st.chans.objects st.cset.channelList).filter fun c => c.2.shouldPrune).map
      Prod.fst = st.cset.channelList.filter st.prunable :=
    st.chans.filter_objects_map_fst Channel.shouldPrune st.cset.channelList
  simp only [channelPruningProcedure, s2sGetChannels, deref_some, bind_ok, hall, hdead, hdel]
  rfl

/-- Pruning from the server's own list removes exactly the prunable channels. -/
theorem State.Sound.prune (hs : st.Sound) :
    ∃ st', channelPruningProcedure st st.s2sGetChannels = .ok (st', pruneLeaves st) ∧
      st.Pruned st' := by
  obtain ⟨st', hok, hdel⟩ := hs.prune_deletes
  refine ⟨st', hok, hdel.sound, hdel.same, fun name => ?_⟩
  have hkept : ∀ p, p ∈ st'.cset.channelList ↔ p ∈ st.cset.channelList ∧ st.prunable p = false := by
    intro p
    rw [hdel.list, List.mem_filter, decide_eq_true_eq, List.mem_filter, not_and, Bool.not_eq_true]
    exact and_congr_right fun hp => imp_iff_right hp
  apply Option.ext
  intro c
  rw [Option.filter_eq_some_iff, hdel.sound.chan_eq_some, hs.chan_eq_some, Bool.not_eq_true']
  constructor
  · rintro ⟨p, hp, hc, hname⟩
    obtain ⟨hp, hprune⟩ := (hkept p).mp hp
    rw [hdel.cells p fun hdead => by simp [hprune] at hdead] at hc
    exact ⟨⟨p, hp, hc, hname⟩, st.prunable_of_cells hc ▸ hprune⟩
  · rintro ⟨⟨p, hp, hc, hname⟩, hprune⟩
    rw [← st.prunable_of_cells hc] at hprune
    exact ⟨p, (hkept p).mpr ⟨hp, hprune⟩,
      (hdel.cells p fun hdead => by simp [hprune] at hdead).trans hc, hname⟩

end CliMessaging.Distributed
