import CliMessaging.Verification.Standalone.ChannelTable
import CliMessaging.Verification.Standalone.MemoryUsers

/-! # Channels in memory

The operations on channels keep step with those of the state. Every subscription makes a
copy of a name, and the copy is lost when the name is on the channel already. -/

namespace CliMessaging.Standalone.Memory

open Heap LinkedList HashMap

variable {m m' : Memory} {st st' : State} {channels : Channels} {leaked leaked' : List (ℕ × Uname)}
  {mem : Malloc} {c : Cname} {name : Uname} {ch : StoredChannel} {o : Option StoredChannel}

/-! ## Rooms -/

section Rooms

variable {A : Assertion (LLNode ℕ)} {nodes : Heap (LLNode ℕ)} {recs : Heap ChannelRecord}
  {names : Heap Uname}

/-- The record of a channel. -/
theorem Rooms.record (hl : Rooms A channels leaked nodes recs names) (hch : channels c = some ch) :
    (Assertion.objects [ch.ptr] [(⟨ch.channel.channelName, ch.list⟩ : ChannelRecord)]).holds
        recs [ch.ptr] ∧
      ∀ {h' o new}, recs.Frame h' [ch.ptr] new → (recordAt o).holds h' new →
        Filled (Function.update (fun c => recordAt (channels c)) c (recordAt o)) h' := by
  obtain ⟨ps, hrec, hreplace⟩ := hl.records.focus c
  rw [hch] at hrec
  obtain rfl : ps = [ch.ptr] := hrec.1
  exact ⟨hrec, fun hframe ho => hreplace hframe ho⟩

/-- The list of a channel. -/
theorem Rooms.channelList (hl : Rooms A channels leaked nodes recs names)
    (hch : channels c = some ch) :
    ∃ ns fs, Holds nodes ch.list ns fs (ch.copies.map some) ∧
      ∀ {h' o new}, nodes.Frame h' (cellsOf ch.list ns fs) new → (channelListAt o).holds h' new →
        Filled (Function.update (listsAt A channels) (some c)
          (channelListAt o)) h' := by
  obtain ⟨cells, hlist, hreplace⟩ := hl.nodes.focus (some c)
  rw [listsAt, hch] at hlist
  obtain ⟨ns, fs, xs, hxs, rfl, hh⟩ := ListAt.of_some hlist
  obtain rfl := Option.some.inj hxs
  exact ⟨ns, fs, hh, fun hframe ho => hreplace hframe ho⟩

/-- The names on a channel. -/
theorem Rooms.channelNames (hl : Rooms A channels leaked nodes recs names)
    (hch : channels c = some ch) :
    (Assertion.objects ch.copies ch.channel.userList).holds names ch.copies ∧
      ∀ {h' o new}, names.Frame h' ch.copies new → (namesAt o).holds h' new →
        Filled (copiesAt leaked (Function.update channels c o)) h' := by
  obtain ⟨ps, hnames, hreplace⟩ := hl.names.focus (some c)
  rw [copiesAt, hch] at hnames
  obtain rfl : ps = ch.copies := hnames.1
  exact ⟨hnames, fun hframe ho => (hreplace hframe ho).congr copiesAt_update⟩

/-- A channel that is not there. -/
theorem Rooms.noChannel (hl : Rooms A channels leaked nodes recs names) (hch : channels c = none) :
    (∀ {h' o new}, recs.Frame h' [] new → (recordAt o).holds h' new →
        Filled (Function.update (fun c => recordAt (channels c)) c (recordAt o)) h') ∧
      (∀ {h' o new}, nodes.Frame h' [] new → (channelListAt o).holds h' new →
        Filled (Function.update (listsAt A channels) (some c)
          (channelListAt o)) h') ∧
      ∀ {h' o new}, names.Frame h' [] new → (namesAt o).holds h' new →
        Filled (copiesAt leaked (Function.update channels c o)) h' := by
  obtain ⟨ps, hrec, hreplaceRec⟩ := hl.records.focus c
  obtain ⟨cells, hlist, hreplaceList⟩ := hl.nodes.focus (some c)
  obtain ⟨qs, hnames, hreplaceNames⟩ := hl.names.focus (some c)
  rw [hch] at hrec
  rw [listsAt, hch] at hlist
  rw [copiesAt, hch] at hnames
  obtain rfl : ps = [] := hrec
  obtain rfl : cells = [] := ListAt.of_none hlist
  obtain rfl : qs = [] := hnames
  exact ⟨fun hframe ho => hreplaceRec hframe ho, fun hframe ho => hreplaceList hframe ho,
    fun hframe ho => (hreplaceNames hframe ho).congr copiesAt_update⟩

theorem freeAll_spec {α : Type} {h : Heap α} {ps : List ℕ} (hl : h.Live ps) (hnd : ps.Nodup) :
    ∃ h', freeAll h (ps.map some) = .ok h' ∧ h.Frame h' ps [] := by
  induction ps generalizing h with
  | nil => exact ⟨h, rfl, .refl h []⟩
  | cons p ps ih =>
      obtain ⟨hp, hnd'⟩ := List.nodup_cons.mp hnd
      obtain ⟨h₁, hfree, -, -, hlive, hframe⟩ := free_frame hl hp
      obtain ⟨h₂, hrest, hframe₂⟩ := ih hlive hnd'
      refine ⟨h₂, ?_, hframe.trans hframe₂⟩
      rw [List.map_cons, freeAll, freePointer, hfree, bind_ok, hrest]

/-- One channel is replaced. -/
theorem Rooms.of_update
    (hnodes : Filled (Function.update (listsAt A channels) (some c) (channelListAt o)) nodes)
    (hrecs : Filled (Function.update (fun c => recordAt (channels c)) c (recordAt o)) recs)
    (hnames : Filled (copiesAt leaked (Function.update channels c o)) names) :
    Rooms A (Function.update channels c o) leaked nodes recs names :=
  ⟨hnodes.congr listsAt_update, hrecs.congr recordAt_update, hnames⟩

/-- Everything a channel has is freed. -/
theorem Rooms.freeChannel (hl : Rooms A channels leaked nodes recs names)
    (hch : channels c = some ch) :
    ∃ nodes' names' recs', llDestroy nodes ch.list = .ok (nodes', ch.copies.map some) ∧
      freeAll names (ch.copies.map some) = .ok names' ∧ recs.free ch.ptr = .ok recs' ∧
      Rooms A (Function.update channels c none) leaked nodes' recs' names' := by
  obtain ⟨ns, fs, hh, hreplaceList⟩ := hl.channelList hch
  obtain ⟨hnames, hreplaceNames⟩ := hl.channelNames hch
  obtain ⟨hrec, hreplaceRec⟩ := hl.record hch
  obtain ⟨nodes', hdestroy, hframe⟩ := llDestroy_spec hh
  obtain ⟨names', hfree, hnameframe⟩ :=
    freeAll_spec ((Assertion.objects _ _).live hnames) hnames.2.1
  obtain ⟨recs', hfreerec, hrecframe, -⟩ := objects_free (i := 0) hrec rfl
  exact ⟨nodes', names', recs', hdestroy, hfree, hfreerec, .of_update
    (hreplaceList hframe .absent) (hreplaceRec hrecframe rfl) (hreplaceNames hnameframe rfl)⟩

end Rooms

/-! ## One channel -/

/-- The users and their tables as they were, and one channel replaced. -/
theorem Layout.replace (hl : Layout m st channels leaked) (hst : st.SameUsers st')
    (hget : st'.getChannel = Function.update st.getChannel c (o.map StoredChannel.channel))
    (husers : m'.users = m.users) (hlist : m'.userList = m.userList)
    (hrooms : Rooms (userListAt m.userList st.userList) (Function.update channels c o) leaked'
      m'.nodes m'.channels m'.names)
    (hentries : Filled (tablesAt m'.tables (contents st (Function.update channels c o))) m'.entries)
    (hkeys : ∀ ch, o = some ch → ∀ name ∈ ch.channel.userList, Hashable name.bytes) :
    Layout m' st' (Function.update channels c o) leaked' where
  toRooms := by
    rw [hlist, hst.list]
    exact hrooms
  users := by rw [husers, hl.users, hst.users]
  lookup c' := by
    have hc := congrFun hget c'
    rw [State.getChannel] at hc
    rw [hc]
    rcases eq_or_ne c' c with rfl | hne
    · rw [Function.update_self, Function.update_self]
    · rw [Function.update_of_ne hne, Function.update_of_ne hne]
      exact hl.lookup c'
  entries := hentries.congr fun t => by
    cases t with
    | byIp => simp only [tablesAt, contents, hst.byIp]
    | byUsername => simp only [tablesAt, contents, hst.byName]
    | channels => rfl
  userKeys := by
    rw [hst.users]
    exact hl.userKeys
  listKeys c' ch hch := by
    rcases eq_or_ne c' c with rfl | hne
    · rw [Function.update_self] at hch
      exact hkeys ch hch
    · rw [Function.update_of_ne hne] at hch
      exact hl.listKeys c' ch hch

theorem contents_update_ptr (hptr : (channels c).map StoredChannel.ptr = o.map StoredChannel.ptr) :
    contents st (Function.update channels c o) = contents st channels := by
  funext t
  cases t with
  | channels =>
      simp only [contents]
      congr 1
      funext c'
      rcases eq_or_ne c' c with rfl | hne
      · rw [Function.update_self, hptr]
      · rw [Function.update_of_ne hne]
  | _ => rfl

theorem Layout.hasBucket (hl : Layout m st channels leaked) (hc : Hashable c.bytes) :
    m.channelUserLists.HasBucket c.bytes := tables_hasBucket hl.entries .channels hc

theorem getChannel_eq (hl : Layout m st channels leaked)
    (hc : m.channelUserLists.HasBucket c.bytes) :
    m.getChannel c =
      .ok ((channels c).map fun ch => (ch.ptr, ⟨ch.channel.channelName, ch.list⟩)) := by
  have hget := tables_get hl.entries .channels hc
  simp only [tables, contents, byBytes_bytes] at hget
  rw [getChannel, hget]
  cases hch : channels c with
  | none => rfl
  | some ch =>
      have hcells := forall₂_objects (hl.record hch).1
      rw [List.forall₂_cons] at hcells
      simp [read_eq_ok.mpr hcells.1]

theorem Layout.getChannel_state (hl : Layout m st channels leaked) (c : Cname) :
    st.getChannel c = (channels c).map StoredChannel.channel := hl.lookup c

/-! ## Adding channels and users -/

theorem idempotentAddChannel_spec (hl : Layout m st channels leaked) (hmem : mem.Ample)
    (hc : Hashable c.bytes) :
    ∃ m' channels' ch, m.idempotentAddChannel mem c = .ok m' ∧ channels' c = some ch ∧
      Layout m' (st.idempotentAddChannel c) channels' leaked := by
  have hcontains := tables_containsKey hl.entries .channels hc
  simp only [tables, contents, byBytes_bytes, Option.isSome_map] at hcontains
  have hstate := hl.lookup c
  cases hch : channels c with
  | some ch =>
      rw [hch, Option.isSome_some] at hcontains
      rw [hch, Option.map_some] at hstate
      refine ⟨m, channels, ch, by simp [idempotentAddChannel, hcontains], hch, ?_⟩
      have hmem : c ∈ st.channelUserLists := AList.lookup_isSome.mp (by simp [hstate])
      rwa [State.idempotentAddChannel, if_pos hmem]
  | none =>
      rw [hch, Option.isSome_none] at hcontains
      rw [hch, Option.map_none] at hstate
      obtain ⟨nodes, ll, hcreate, hh, hframe⟩ := linkedListCreate_spec m.nodes hmem.blocks
      obtain ⟨entries, hmd, hput, hentries⟩ :=
        tables_putUnique hl.entries .channels hc hmem m.channels.next
      obtain ⟨hrecords, hnodes, hnames⟩ := hl.noChannel hch
      obtain ⟨hrecframe, hrec⟩ := objects_alloc (objects_nil m.channels)
        (⟨c, ll⟩ : ChannelRecord)
      simp only [tables, contents, byBytes_bytes, hch, Option.map_none, decide_true,
        if_true] at hput hentries
      refine ⟨{ m with
          nodes := nodes
          channels := m.channels.alloc ⟨c, ll⟩
          entries := entries
          channelUserLists := hmd },
        Function.update channels c (some ⟨m.channels.next, ll, [], ⟨c, []⟩⟩), _, ?_,
        Function.update_self .., ?_⟩
      · simp [idempotentAddChannel, hcontains, hcreate, hput]
      · refine hl.replace (State.sameUsers_addChannel st c) ?_ rfl rfl
          (.of_update (hnodes hframe (.present hh)) (hrecords hrecframe hrec)
            (hnames (.refl _ _) (objects_nil _))) ?_ (by simp)
        · rw [State.getChannel_addChannel, hl.getChannel_state c, hch]
          rfl
        · refine hentries.congr fun t => ?_
          cases t with
          | channels =>
              rw [tablesAt, tablesAt, Function.update_self, Function.update_self]
              simp only [tables, contents, ← byBytes_update]
              congr 3
              funext c'
              rcases eq_or_ne c' c with rfl | hne
              · rw [Function.update_self, Function.update_self]
                rfl
              · rw [Function.update_of_ne hne, Function.update_of_ne hne]
          | _ => rfl

/-- A copy of a name that is on no list. -/
theorem Layout.leak (hl : Layout m st channels leaked) (name : Uname) :
    Filled (copiesAt (leaked ++ [(m.names.next, name)]) channels) (m.names.alloc name) := by
  obtain ⟨ps, hleaked, hreplace⟩ := hl.names.focus none
  obtain rfl : ps = leaked.map Prod.fst := hleaked.1
  obtain ⟨hframe, hobjects⟩ := objects_alloc hleaked name
  refine (hreplace hframe hobjects).congr fun i => ?_
  cases i with
  | none => rw [Function.update_self, copiesAt, List.map_append, List.map_append]; rfl
  | some c => rfl

theorem agree_names {names : Heap Uname} {ps : List ℕ} {us : List Uname}
    (hps : List.Forall₂ (fun p u => names.cells p = some u) ps us) (hm : m.names = names)
    (name : Uname) : Agree (m.charCompare name) Standalone.charCompare name ps us :=
  hps.imp fun p u hp => by
    rw [charCompare, hm, read_eq_ok.mpr hp]
    rfl

/-- The name is on the channel. -/
def subscribed (st : State) (c : Cname) (name : Uname) : Bool :=
  (st.getChannel c).any fun channel => channel.userList.contains name

/-- The list of a channel after a call on it, with the copies that it leads to. -/
theorem Layout.setUserList (hl : Layout m st channels leaked) (hch : channels c = some ch)
    {nodes : Heap (LLNode ℕ)} {ll : LlData} {ps : List ℕ} (us : List Uname) {names : Heap Uname}
    (hnodes : Filled (Function.update (listsAt (userListAt m.userList st.userList) channels)
      (some c) (channelListAt (some ⟨ch.ptr, ll, ps, { ch.channel with userList := us }⟩))) nodes)
    (hnames : Filled (copiesAt leaked' (Function.update channels c
      (some ⟨ch.ptr, ll, ps, { ch.channel with userList := us }⟩))) names)
    (hkeys : ∀ name ∈ us, Hashable name.bytes) :
    ∃ recs, m.channels.modify ch.ptr (fun channel => { channel with userList := ll }) = .ok recs ∧
      Layout { m with names := names, nodes := nodes, channels := recs }
        (st.setUserList c ch.channel us) (Function.update channels c
          (some ⟨ch.ptr, ll, ps, { ch.channel with userList := us }⟩)) leaked' := by
  obtain ⟨recs, hmod, hrecframe, hrec⟩ := objects_modify (hl.record hch).1
    fun channel => { channel with userList := ll }
  refine ⟨recs, hmod, hl.replace ⟨rfl, rfl, rfl, rfl⟩ (State.getChannel_insert ..) rfl rfl
    (.of_update hnodes ((hl.record hch).2 hrecframe hrec) hnames) ?_ ?_⟩
  · rw [contents_update_ptr (by rw [hch]; rfl)]
    exact hl.entries
  · rintro _ ⟨⟩ name hname
    exact hkeys name hname

/-- A channel whose names stay where they are. -/
theorem copiesAt_update_same (hch : channels c = some ch) {o : StoredChannel}
    (hcopies : o.copies = ch.copies) (hus : o.channel.userList = ch.channel.userList)
    (i : Option Cname) :
    copiesAt leaked channels i = copiesAt leaked (Function.update channels c (some o)) i := by
  cases i with
  | none => rfl
  | some c' =>
      rw [copiesAt, copiesAt]
      rcases eq_or_ne c' c with rfl | hne
      · rw [Function.update_self, hch, namesAt, namesAt, hcopies, hus]
      · rw [Function.update_of_ne hne]

theorem idempotentChannelAddUser_spec (hl : Layout m st channels leaked) (hmem : mem.Ample)
    (hc : Hashable c.bytes) (hname : Hashable name.bytes) :
    ∃ m' st' channels' leaked', m.idempotentChannelAddUser mem c name = .ok m' ∧
      st.idempotentChannelAddUser c name = .ok st' ∧ Layout m' st' channels' leaked' ∧
      leaked'.length = leaked.length + (subscribed st c name).toNat := by
  obtain ⟨m₁, channels₁, ch, hrun₁, hch, hl₁⟩ := idempotentAddChannel_spec hl hmem hc
  have hget₁ : (st.idempotentAddChannel c).getChannel c = some ch.channel := by
    rw [hl₁.getChannel_state, hch, Option.map_some]
  have hsub : subscribed st c name = decide (name ∈ ch.channel.userList) := by
    rw [State.getChannel_addChannel, Function.update_self, Option.some.injEq] at hget₁
    rw [subscribed, ← hget₁]
    cases st.getChannel c <;> simp
  obtain ⟨ns, fs, hh, hreplaceList⟩ := hl₁.channelList hch
  obtain ⟨hnames, hreplaceNames⟩ := hl₁.channelNames hch
  have halloc : List.Forall₂ (fun p u => (m₁.names.alloc name).cells p = some u) ch.copies
      ch.channel.userList := (forall₂_objects hnames).imp fun p u hp => by
    rw [cells_alloc, Function.update_of_ne (ne_next hp), hp]
  have hstep := llIdempotentAdd_lockstep hh
    (agree_names (m := { m₁ with names := m₁.names.alloc name }) halloc rfl name)
    (ample_blocks hmem) m₁.names.next
  rw [llIdempotentAdd_charCompare] at hstep
  obtain ⟨⟨nodes, ll⟩, hadd, ns', fs', ps', hh', hframe, hcases⟩ := hstep.exists_left
  have hrun : ∀ recs, m₁.channels.modify ch.ptr (fun channel => { channel with userList := ll }) =
      .ok recs → m.idempotentChannelAddUser mem c name = .ok { m₁ with
        names := m₁.names.alloc name
        nodes := nodes
        channels := recs } := fun recs hmod => by
    rw [idempotentChannelAddUser, hrun₁, bind_ok, getChannel_eq hl₁ (hl₁.hasBucket hc), hch]
    simp only [Option.map_some, bind_ok, deref_some, hadd, Memory.setUserList, hmod, pure_eq_ok]
  have hstate : ∀ us, (if name ∈ ch.channel.userList then ch.channel.userList
      else ch.channel.userList ++ [name]) = us → st.idempotentChannelAddUser c name =
        .ok ((st.idempotentAddChannel c).setUserList c ch.channel us) := fun us hus => by
    simp only [State.idempotentChannelAddUser, hget₁, deref_some, bind_ok,
      llIdempotentAdd_charCompare, hus, pure_eq_ok]
  have hkeys := hl₁.listKeys c ch hch
  by_cases hmember : name ∈ ch.channel.userList
  · rw [if_pos hmember] at hcases
    obtain ⟨rfl, -⟩ : ps' = ch.copies ∧ ch.channel.userList = ch.channel.userList :=
      hcases.resolve_right fun hc => by simp at hc
    obtain ⟨recs, hmod, hl'⟩ := hl₁.setUserList hch ch.channel.userList
      (hreplaceList hframe (.present hh'))
      ((hl₁.leak name).congr (copiesAt_update_same hch rfl rfl)) hkeys
    exact ⟨_, _, _, _, hrun recs hmod, hstate _ (if_pos hmember), hl', by simp [hsub, hmember]⟩
  · rw [if_neg hmember] at hcases
    obtain ⟨rfl, -⟩ : ps' = ch.copies ++ [m₁.names.next] ∧
        ch.channel.userList ++ [name] = ch.channel.userList ++ [name] :=
      hcases.resolve_left fun hc => by simp at hc
    obtain ⟨hnameframe, hobjects⟩ := objects_alloc hnames name
    obtain ⟨recs, hmod, hl'⟩ := hl₁.setUserList hch (ch.channel.userList ++ [name])
      (hreplaceList hframe (.present hh')) (hreplaceNames hnameframe hobjects) (by
        intro u hu
        rcases List.mem_append.mp hu with hu | hu
        · exact hkeys u hu
        · rwa [List.mem_singleton.mp hu])
    exact ⟨_, _, _, _, hrun recs hmod, hstate _ (if_neg hmember), hl', by simp [hsub, hmember]⟩

/-! ## Removing users and channels -/

theorem idempotentChannelRemoveUser_spec (hl : Layout m st channels leaked)
    (hc : Hashable c.bytes) (name : Uname) :
    ∃ m' st' channels', m.idempotentChannelRemoveUser c name = .ok m' ∧
      st.idempotentChannelRemoveUser c name = .ok st' ∧ Layout m' st' channels' leaked := by
  have hget := getChannel_eq hl (hl.hasBucket hc)
  have hstate := hl.getChannel_state c
  cases hch : channels c with
  | none =>
      rw [hch, Option.map_none] at hget hstate
      exact ⟨m, st, channels, by simp [idempotentChannelRemoveUser, hget],
        by simp [State.idempotentChannelRemoveUser, hstate], hl⟩
  | some ch =>
      rw [hch, Option.map_some] at hget hstate
      obtain ⟨ns, fs, hh, hreplaceList⟩ := hl.channelList hch
      obtain ⟨hnames, hreplaceNames⟩ := hl.channelNames hch
      have hstep := llIdempotentRemove_lockstep hh
        (agree_names (forall₂_objects hnames) rfl name)
      obtain ⟨removed, hremoved⟩ := llIdempotentRemove_charCompare name ch.channel.userList
      rw [hremoved] at hstep
      obtain ⟨⟨nodes, ll, removed'⟩, hremove, ns', fs', ps', hh', hframe, hcases⟩ :=
        hstep.exists_left
      have hkeys : ∀ u ∈ ch.channel.userList.erase name, Hashable u.bytes := fun u hu =>
        hl.listKeys c ch hch u (List.mem_of_mem_erase hu)
      have hset : st.idempotentChannelRemoveUser c name =
          .ok (st.setUserList c ch.channel (ch.channel.userList.erase name)) := by
        simp [State.idempotentChannelRemoveUser, hstate, hremoved]
      have hlist := hreplaceList (o := some ⟨ch.ptr, ll, ps',
        { ch.channel with userList := ch.channel.userList.erase name }⟩) hframe (.present hh')
      rcases hcases with ⟨rfl, hnone, heq⟩ | ⟨i, p, u, hp, -, rfl, hsome, heq⟩
      · obtain rfl : removed' = none := hnone
        have herase : ch.channel.userList.erase name = ch.channel.userList := congrArg Prod.fst heq
        obtain ⟨recs, hmod, hl'⟩ := hl.setUserList hch _ hlist
          (hreplaceNames (.refl _ _) (by rwa [herase])) hkeys
        refine ⟨_, _, _, ?_, hset, hl'⟩
        rw [idempotentChannelRemoveUser, hget]
        simp only [bind_ok, hremove, Memory.setUserList, hmod, pure_eq_ok]
      · obtain rfl : removed' = some (some p) := hsome
        have herase : ch.channel.userList.erase name = ch.channel.userList.eraseIdx i :=
          congrArg Prod.fst heq
        obtain ⟨names, hfree, hnameframe, hobjects⟩ := objects_free hnames hp
        obtain ⟨recs, hmod, hl'⟩ := hl.setUserList hch _ hlist
          (hreplaceNames hnameframe (by rwa [herase])) hkeys
        refine ⟨_, _, _, ?_, hset, hl'⟩
        rw [idempotentChannelRemoveUser, hget]
        simp only [bind_ok, hremove, Memory.setUserList, hmod, pure_eq_ok, freePointer, hfree]

theorem idempotentRemoveChannel_spec (hl : Layout m st channels leaked)
    (hc : Hashable c.bytes) :
    ∃ m', m.idempotentRemoveChannel c = .ok m' ∧
      Layout m' (st.idempotentRemoveChannel c) (Function.update channels c none) leaked := by
  obtain ⟨entries, hmd, hremove, hentries⟩ := tables_remove hl.entries .channels hc
  simp only [tables, contents, byBytes_bytes] at hremove
  have hcontents : Filled (tablesAt
      (tables { m with entries := entries, channelUserLists := hmd })
      (contents st (Function.update channels c none))) entries := hentries.congr fun t => by
    cases t with
    | channels =>
        rw [tablesAt, tablesAt, Function.update_self, Function.update_self]
        simp only [tables, contents, ← byBytes_update]
        congr 3
        funext c'
        rcases eq_or_ne c' c with rfl | hne
        · rw [Function.update_self, Function.update_self]
          rfl
        · rw [Function.update_of_ne hne, Function.update_of_ne hne]
    | _ => rfl
  have hget : (st.idempotentRemoveChannel c).getChannel =
      Function.update st.getChannel c none := State.getChannel_erase st c
  cases hch : channels c with
  | none =>
      rw [hch, Option.map_none] at hremove
      obtain ⟨hrecords, hnodes, hnames⟩ := hl.noChannel hch
      refine ⟨{ m with entries := entries, channelUserLists := hmd }, ?_,
        hl.replace ⟨rfl, rfl, rfl, rfl⟩ hget rfl rfl (.of_update (hnodes (.refl _ _) .absent)
          (hrecords (.refl _ _) rfl) (hnames (.refl _ _) rfl)) hcontents (by simp)⟩
      rw [idempotentRemoveChannel, hremove]
      rfl
  | some ch =>
      rw [hch, Option.map_some] at hremove
      have hread := forall₂_objects (hl.record hch).1
      rw [List.forall₂_cons] at hread
      obtain ⟨nodes, names, recs, hdestroy, hfree, hfreerec, hrooms⟩ := hl.freeChannel hch
      refine ⟨{ m with
        nodes := nodes
        names := names
        channels := recs
        entries := entries
        channelUserLists := hmd }, ?_, hl.replace ⟨rfl, rfl, rfl, rfl⟩ hget rfl rfl hrooms
          hcontents (by simp)⟩
      rw [idempotentRemoveChannel, hremove, bind_ok]
      simp only [read_eq_ok.mpr hread.1, bind_ok, hdestroy, hfree, hfreerec, pure_eq_ok]

theorem idempotentRemoveChannelIfEmpty_spec (hl : Layout m st channels leaked)
    (hc : Hashable c.bytes) :
    ∃ m' channels', m.idempotentRemoveChannelIfEmpty c = .ok m' ∧
      Layout m' (st.idempotentRemoveChannelIfEmpty c) channels' leaked := by
  have hget := getChannel_eq hl (hl.hasBucket hc)
  have hstate := hl.getChannel_state c
  cases hch : channels c with
  | none =>
      rw [hch, Option.map_none] at hget hstate
      refine ⟨m, channels, by simp [idempotentRemoveChannelIfEmpty, getChannelUserCount, hget], ?_⟩
      simpa [State.idempotentRemoveChannelIfEmpty, State.getChannelUserCount, hstate] using hl
  | some ch =>
      rw [hch, Option.map_some] at hget hstate
      obtain ⟨ns, fs, hh, -⟩ := hl.channelList hch
      have hlen : ch.copies.length = ch.channel.userList.length :=
        (forall₂_objects (hl.channelNames hch).1).length_eq
      have hsize : llSize ch.list = (ch.channel.userList.length : ℤ) := by
        rw [llSize, hh.size_eq, List.length_map, hlen]
      simp only [idempotentRemoveChannelIfEmpty, getChannelUserCount, hget, bind_ok, pure_eq_ok,
        hsize, Nat.cast_eq_zero, State.idempotentRemoveChannelIfEmpty, State.getChannelUserCount,
        hstate, Option.map_some]
      by_cases hempty : ch.channel.userList.length = 0
      · rw [if_pos hempty, if_pos hempty]
        obtain ⟨m', hremove, hl'⟩ := idempotentRemoveChannel_spec hl hc
        exact ⟨m', _, hremove, hl'⟩
      · rw [if_neg hempty, if_neg hempty]
        exact ⟨m, channels, rfl, hl⟩

/-! ## Reading channels -/

theorem channelContainsUser_eq (hl : Layout m st channels leaked)
    (hch : channels c = some ch) (name : Uname) :
    m.channelContainsUser ⟨ch.channel.channelName, ch.list⟩ name =
      Standalone.channelContainsUser ch.channel name := by
  obtain ⟨ns, fs, hh, -⟩ := hl.channelList hch
  have hstep := llIndexOf_lockstep hh
    (agree_names (forall₂_objects (hl.channelNames hch).1) rfl name)
  rw [channelContainsUser, Standalone.channelContainsUser]
  cases hidx : Standalone.llIndexOf Standalone.charCompare name ch.channel.userList with
  | error e =>
      rw [hidx] at hstep
      generalize llIndexOf _ _ _ _ _ = x at hstep ⊢
      cases hstep
      rfl
  | ok j =>
      rw [hidx] at hstep
      obtain ⟨i, hi, rfl⟩ := hstep.exists_left
      simp only [hi, bind_ok, Option.isSome_map]

theorem channelGetUserList_eq (hl : Layout m st channels leaked) (hroom : mem.room = true)
    (hch : channels c = some ch) (len : ℤ) :
    m.channelGetUserList mem ⟨ch.channel.channelName, ch.list⟩ len =
      .ok (if ch.copies = [] then (none, len)
        else (some (ch.copies.map some), ch.copies.length)) := by
  obtain ⟨ns, fs, hh, -⟩ := hl.channelList hch
  rw [channelGetUserList, llToArray_spec hh, hroom]
  cases ch.copies <;> simp

section Strings

variable {n : ℕ} {f : CString n → Option ℕ} {pairs : List (Key × ℕ)} {k : Key} {v : ℕ}

theorem string_of_pair (hn : 0 < n) (hl : Lists pairs (byBytes f)) (hkv : (k, v) ∈ pairs) :
    (CString.ofBuffer n hn k).bytes = k ∧ f (CString.ofBuffer n hn k) = some v := by
  obtain ⟨s, rfl, hs⟩ := byBytes_eq_some ((hl.mem_iff k v).mp hkv)
  rw [CString.ofBuffer_self]
  exact ⟨rfl, hs⟩

/-- The strings of a list of keys. -/
theorem nodup_strings (hn : 0 < n) (hl : Lists pairs (byBytes f)) :
    ((pairs.map Prod.fst).map (CString.ofBuffer n hn)).Nodup := by
  refine hl.nodup.map_on fun k hk k' hk' heq => ?_
  obtain ⟨⟨_, v⟩, hkv, rfl⟩ := List.mem_map.mp hk
  obtain ⟨⟨_, v'⟩, hkv', rfl⟩ := List.mem_map.mp hk'
  rw [← (string_of_pair hn hl hkv).1, ← (string_of_pair hn hl hkv').1, heq]

theorem mem_strings (hn : 0 < n) (hl : Lists pairs (byBytes f)) (s : CString n) :
    s ∈ (pairs.map Prod.fst).map (CString.ofBuffer n hn) ↔ (f s).isSome := by
  rw [List.mem_map]
  constructor
  · rintro ⟨k, hk, rfl⟩
    obtain ⟨⟨_, v⟩, hkv, rfl⟩ := List.mem_map.mp hk
    rw [(string_of_pair hn hl hkv).2, Option.isSome_some]
  · intro hs
    refine ⟨s.bytes, hl.mem_keys.mpr ?_, CString.ofBuffer_self hn s⟩
    rwa [byBytes_bytes]

end Strings

/-- The names of the channels, in whatever order. -/
theorem getChannelList_spec (hl : Layout m st channels leaked) (hmem : mem.Ample) (count : ℤ) :
    ∃ names : List Cname, names.Perm st.channelUserLists.keys ∧
      m.getChannelList mem count = .ok (Standalone.toArray names count) := by
  obtain ⟨ps, ht, hs, -⟩ := tables_focus hl.entries .channels
  have hperm : ∀ {pairs : List (Key × ℕ)},
      Lists pairs (byBytes fun c => (channels c).map StoredChannel.ptr) →
        ((pairs.map Prod.fst).map (CString.ofBuffer channelMax channelMax_pos)).Perm
          st.channelUserLists.keys := by
    intro pairs hpairs
    refine (List.perm_ext_iff_of_nodup (nodup_strings channelMax_pos hpairs)
      st.channelUserLists.keys_nodup).mpr fun c => ?_
    rw [mem_strings channelMax_pos hpairs, Option.isSome_map, ← AList.mem_keys,
      ← AList.lookup_isSome, hl.lookup c, Option.isSome_map]
  rcases hmKeyArray_spec mem.room ht hs count with
    ⟨hroom, hrun⟩ | ⟨pairs, hroom, hlen, hrun, hlists⟩
  · obtain ⟨pairs, hlists, hlen⟩ := exists_lists ht hs
    have hnil : pairs = [] := by
      rw [hmem.room, ← hlen] at hroom
      simpa [List.length_pos_iff] using hroom
    refine ⟨_, hperm hlists, ?_⟩
    have hrun' : hmKeyArray mem.room m.entries m.channelUserLists count = .ok (none, count) := hrun
    rw [getChannelList, hrun', hnil]
    rfl
  · refine ⟨_, hperm hlists, ?_⟩
    have hrun' : hmKeyArray mem.room m.entries m.channelUserLists count =
        .ok (some (pairs.map Prod.fst), pairs.length) := hrun
    have hne : pairs.length ≠ 0 := by
      rw [← hlen] at hroom
      omega
    rw [getChannelList, hrun', Standalone.toArray, List.length_map, List.length_map, if_neg hne]
    rfl

end CliMessaging.Standalone.Memory
