import CliMessaging.Verification.Standalone.MemoryRuns

/-! # Releasing the memory

What `free_state` frees, after any run: all users, channels, nodes and entries, each once,
and of the copies of names all but those that a repeated JOIN has lost. -/

namespace CliMessaging.Standalone.Memory

open Heap LinkedList HashMap Transition State

variable {m m' : Memory} {st st' : State} {mem : Malloc} {env : Env} {now p : ℕ} {a : SockAddr}
  {name : Uname} {sent : List Datagram} {input : Input}

/-! ## Users -/

/-- Every user in memory is on the list of users. -/
def Listed (st : State) : Prop := ∀ p user, st.users.cells p = some user → p ∈ st.userList

theorem Listed.touched (hl : Listed st) (ht : st.Touched now p st') : Listed st' := by
  intro q user hq
  rw [ht.cells, Option.map_eq_some_iff] at hq
  obtain ⟨old, hold, -⟩ := hq
  rw [ht.list]
  exact hl q old hold

theorem Listed.seen (hl : Listed st) (hs : st.Seen now a st') : Listed st' := by
  rcases hs with ⟨-, rfl⟩ | ⟨p, user, hspeaks⟩
  · exact hl
  · exact hl.touched hspeaks.touched

theorem Listed.removeFromList (hl : Listed st) (hok : st.removeFromList p = .ok st') :
    Listed st' := by
  obtain ⟨⟨ll, removed⟩, hremove, hrest⟩ := bind_eq_ok.mp hok
  obtain ⟨idx, -, hidx⟩ := bind_eq_ok.mp hremove
  cases idx with
  | none =>
      cases hidx
      cases hrest
      exact hl
  | some i =>
      cases hidx
      cases he : st.userList[i]? with
      | none =>
          simp only [he] at hrest
          cases hrest
          rw [Listed, List.eraseIdx_of_length_le (List.getElem?_eq_none_iff.mp he)]
          exact hl
      | some e =>
          simp only [he] at hrest
          obtain ⟨users, hfree, hrest⟩ := bind_eq_ok.mp hrest
          cases hrest
          intro q user hq
          have hcells : users.cells = Function.update st.users.cells e none := cells_of_free hfree
          simp only [hcells] at hq
          rcases eq_or_ne q e with rfl | hne
          · rw [Function.update_self] at hq
            cases hq
          · rw [Function.update_of_ne hne] at hq
            obtain ⟨hi, rfl⟩ := List.getElem?_eq_some_iff.mp he
            have hmem := hl q user hq
            rw [(List.getElem_cons_eraseIdx_perm hi).mem_iff.symm] at hmem
            exact (List.mem_cons.mp hmem).resolve_left hne

theorem Listed.removeUser (hl : Listed st) {username : Option Uname} {ipPort : Option IpPort}
    (hok : st.idempotentRemoveUser username ipPort = .ok st') : Listed st' := by
  cases username with
  | some name =>
      rw [State.idempotentRemoveUser] at hok
      split at hok
      · obtain ⟨user, -, hok⟩ := bind_eq_ok.mp hok
        refine Listed.removeFromList ?_ hok
        exact hl
      · cases hok
        exact hl
  | none =>
      cases ipPort with
      | none =>
          cases hok
          exact hl
      | some key =>
          rw [State.idempotentRemoveUser] at hok
          split at hok
          · obtain ⟨user, -, hok⟩ := bind_eq_ok.mp hok
            refine Listed.removeFromList ?_ hok
            exact hl
          · cases hok
            exact hl

/-- A user that logs in is new, so it gets a place on the list. -/
theorem Listed.addUser (hl : Listed st) (hdir : st.Directory)
    (hok : st.idempotentAddUser now name (clientKey a) a = .ok st') : Listed st' := by
  obtain ⟨st₁, hok₁, hdir₁, hrec₁, -⟩ := hdir.removeUserName_spec name
  obtain ⟨st₂, hok₂, hdir₂, hrec₂, -⟩ := hdir₁.removeUserKey_spec (clientKey a)
  obtain ⟨st₃, hok₃, -, hrec₃, -⟩ := hdir.addUser_spec now name a
  obtain rfl : st' = st₃ := Except.ok.inj (hok.symm.trans hok₃)
  have hl₂ : Listed st₂ := (hl.removeUser hok₁).removeUser hok₂
  rw [State.idempotentAddUser, hok₁, bind_ok, hok₂, bind_ok] at hok
  obtain ⟨ll, hadd, hok⟩ := bind_eq_ok.mp hok
  cases hok
  have hlist : ll = st₂.userList ∨ ll = st₂.userList ++ [st₂.users.next] := by
    obtain ⟨idx, -, hidx⟩ := bind_eq_ok.mp hadd
    cases idx with
    | some i =>
        cases hidx
        exact .inl rfl
    | none =>
        cases hidx
        exact .inr rfl
  have hnext : st₂.users.next ∈ ll := by
    obtain ⟨q, hq, hcell⟩ := (hrec₃ _).mpr (.inr rfl)
    rcases hlist with rfl | rfl
    · obtain ⟨old, hold⟩ := hdir₂.live q hq
      simp only [cells_alloc, Function.update_of_ne (ne_next hold)] at hcell
      exact absurd rfl ((hrec₁ _).mp ((hrec₂ _).mp ⟨q, hq, hcell⟩).1).2
    · simp
  have hsub : ∀ q ∈ st₂.userList, q ∈ ll := fun q hq => by
    rcases hlist with rfl | rfl
    · exact hq
    · exact List.mem_append_left _ hq
  intro q user hq
  simp only [cells_alloc] at hq
  rcases eq_or_ne q st₂.users.next with rfl | hne
  · exact hnext
  · rw [Function.update_of_ne hne] at hq
    exact hsub q (hl₂ q user hq)

theorem Listed.removeInactive (hl : Listed st) {clock : ℕ → ℕ} {i : ℕ} {entries : List ℕ}
    (hok : Standalone.removeInactive clock i entries st = .ok st') : Listed st' := by
  induction entries generalizing st i with
  | nil =>
      cases hok
      exact hl
  | cons q entries ih =>
      obtain ⟨user, -, hok⟩ := bind_eq_ok.mp hok
      cases hidle : isInactive (clock i) user with
      | true =>
          rw [hidle] at hok
          obtain ⟨st₁, hst₁, hok⟩ := bind_eq_ok.mp hok
          exact ih (hl.removeUser hst₁) hok
      | false =>
          rw [hidle] at hok
          exact ih hl hok

/-- A pass frees every user that it takes off the list. -/
theorem Listed.react (hl : Listed st) (hinv : st.Inv)
    (hok : st.react env input = .ok (st', sent)) : Listed st' := by
  have heff := hinv.effect_of_ok hok
  cases heff with
  | login hdir hrec hch =>
      obtain ⟨st₁, hst₁, hok⟩ := bind_eq_ok.mp hok
      cases hok
      exact hl.addUser hinv.directory hst₁
  | logout hdir hrec hch =>
      obtain ⟨st₁, hst₁, hok⟩ := bind_eq_ok.mp hok
      cases hok
      exact hl.removeUser hst₁
  | stranger hneeds hget => exact hl
  | join hspeaks hchan => exact hl.touched hspeaks.touched
  | leave hspeaks hchan => exact hl.touched hspeaks.touched
  | sayNowhere text hspeaks hch hc => exact hl.touched hspeaks.touched
  | sayOutside text hspeaks hch hc hmem => exact hl.touched hspeaks.touched
  | say text hspeaks hch hc hmem => exact hl.touched hspeaks.touched
  | list hs hch => exact hl.seen hs
  | who ch hs hch => exact hl.seen hs
  | keepAlive hs hch => exact hl.seen hs
  | scan hdir hch hrec =>
      obtain ⟨st₁, hst₁, hok⟩ := bind_eq_ok.mp hok
      cases hok
      obtain ⟨entries, -, hscan⟩ := bind_eq_ok.mp hst₁
      exact hl.removeInactive hscan

/-! ## Channels -/

/-- The channels of a table are freed one after the other. -/
theorem freeChannels_spec {A : Assertion (LLNode ℕ)} {channels : Channels}
    {leaked : List (ℕ × Uname)} {cs : List Cname} {ps : List ℕ}
    (hr : Rooms A channels leaked m.nodes m.channels m.names)
    (hps : cs.map (fun c => (channels c).map StoredChannel.ptr) = ps.map some)
    (hnd : cs.Nodup) (hall : ∀ c, c ∉ cs → channels c = none) :
    ∃ m', m.freeChannels ps = .ok m' ∧ m'.users = m.users ∧ m'.entries = m.entries ∧
      Rooms A (fun _ => none) leaked m'.nodes m'.channels m'.names := by
  induction cs generalizing m channels ps with
  | nil =>
      obtain rfl : ps = [] := List.map_eq_nil_iff.mp hps.symm
      obtain rfl : channels = fun _ => none := funext fun c => hall c (by simp)
      exact ⟨m, rfl, rfl, rfl, hr⟩
  | cons c cs ih =>
      obtain ⟨p, ps, rfl, hp, hrest⟩ := List.map_eq_cons_iff.mp hps.symm
      obtain ⟨hc, hnd'⟩ := List.nodup_cons.mp hnd
      obtain ⟨ch, hch, rfl⟩ := Option.map_eq_some_iff.mp hp.symm
      have hread := forall₂_objects (hr.record hch).1
      rw [List.forall₂_cons] at hread
      obtain ⟨nodes, names, recs, hdestroy, hfree, hfreerec, hr₁⟩ := hr.freeChannel hch
      have hps₁ : cs.map (fun c' => (Function.update channels c none c').map StoredChannel.ptr) =
          ps.map some := by
        rw [hrest]
        refine List.map_congr_left fun c' hc' => ?_
        rw [Function.update_of_ne (ne_of_mem_of_not_mem hc' hc)]
      obtain ⟨m', hrun, husers, hentries, hr'⟩ := ih
        (m := { m with nodes := nodes, names := names, channels := recs }) hr₁ hps₁ hnd'
        fun c' hc' => by
          rcases eq_or_ne c' c with rfl | hne
          · rw [Function.update_self]
          · rw [Function.update_of_ne hne]
            exact hall c' (by simp [hne, hc'])
      refine ⟨m', ?_, husers, hentries, hr'⟩
      rw [freeChannels, read_eq_ok.mpr hread.1]
      simp only [bind_ok, hdestroy, hfree, hfreerec, hrun]

/-! ## Tables -/

theorem destroy_table {A : TableName → Assertion (HMEntry ℕ)} {h : Heap (HMEntry ℕ)}
    (hf : Filled A h) {t : TableName} {hmd : HmData} {f : Key → Option ℕ}
    (hA : A t = mapAt (some hmd) (some f)) :
    ∃ h' pairs, hmDestroy h hmd = .ok (h', pairs.map Prod.snd) ∧ Lists pairs f ∧
      Filled (Function.update A t .absent) h' := by
  obtain ⟨ps, hps, hreplace⟩ := hf.focus t
  rw [hA] at hps
  obtain ⟨f', hff, ht, hs⟩ := MapAt.some hps
  obtain rfl := Option.some.inj hff
  obtain ⟨h', pairs, hdestroy, hlists, hframe⟩ := hmDestroy_spec ht hs
  exact ⟨h', pairs, hdestroy, hlists, hreplace hframe rfl⟩

/-! ## The state -/

/-- Only lost copies of names are left. -/
structure Released (m : Memory) (k : ℕ) : Prop where
  users : ∀ p, m.users.cells p = none
  channels : ∀ p, m.channels.cells p = none
  nodes : ∀ p, m.nodes.cells p = none
  entries : ∀ p, m.entries.cells p = none
  names : m.names.liveCells.length = k

theorem Rooms.released {leaked : List (ℕ × Uname)} {nodes : Heap (LLNode ℕ)}
    {recs : Heap ChannelRecord} {names : Heap Uname}
    (hr : Rooms .absent (fun _ => none) leaked nodes recs names) :
    (∀ p, nodes.cells p = none) ∧ (∀ p, recs.cells p = none) ∧
      names.liveCells.length = leaked.length := by
  refine ⟨hr.nodes.freed fun i ps hps => ?_, hr.records.freed fun _ _ hps => hps, ?_⟩
  · cases i with
    | none => exact hps
    | some c => exact ListAt.of_none hps
  · obtain ⟨cells, ho, hcovered⟩ := hr.names
    have hobjects := ho.each none
    obtain hcells : cells none = leaked.map Prod.fst := hobjects.1
    have hperm := perm_liveCells hobjects fun p a hp => by
      obtain ⟨i, hi⟩ := hcovered p a hp
      cases i with
      | none => rwa [← hcells]
      | some c =>
          obtain hnil : cells (some c) = [] := ho.each (some c)
          rw [hnil] at hi
          cases hi
    rw [hperm.length_eq, List.length_map]

/-- The tables are destroyed. The last of them hands over the channels. -/
theorem Layout.destroyTables {channels : Channels} {leaked : List (ℕ × Uname)}
    (hl : Layout m st channels leaked) :
    ∃ h₁ h₂ h₃ es₁ es₂ pairs, hmDestroy m.entries m.userByIp = .ok (h₁, es₁) ∧
      hmDestroy h₁ m.userByUsername = .ok (h₂, es₂) ∧
      hmDestroy h₂ m.channelUserLists = .ok (h₃, pairs.map Prod.snd) ∧
      Lists pairs (byBytes fun c => (channels c).map StoredChannel.ptr) ∧
      ∀ p, h₃.cells p = none := by
  obtain ⟨h₁, pairs₁, hrun₁, -, hf₁⟩ := destroy_table hl.entries (t := .byIp) rfl
  obtain ⟨h₂, pairs₂, hrun₂, -, hf₂⟩ := destroy_table hf₁ (t := .byUsername) rfl
  obtain ⟨h₃, pairs, hrun₃, hlists, hf₃⟩ := destroy_table hf₂ (t := .channels) rfl
  refine ⟨h₁, h₂, h₃, _, _, pairs, hrun₁, hrun₂, hrun₃, hlists, hf₃.freed fun t ps hps => ?_⟩
  cases t <;> exact hps

theorem Layout.freeState {channels : Channels} {leaked : List (ℕ × Uname)}
    (hl : Layout m st channels leaked) (hdir : st.Directory) (hlisted : Listed st) :
    ∃ m', m.freeState = .ok m' ∧ m'.Released leaked.length := by
  obtain ⟨cells, hlist, hreplace⟩ := hl.nodes.focus none
  obtain ⟨ns, fs, xs, hxs, rfl, hh⟩ := ListAt.of_some hlist
  obtain rfl := Option.some.inj hxs
  obtain ⟨nodes, hdestroy, hframe⟩ := llDestroy_spec hh
  have hnodes : Filled (listsAt .absent channels) nodes :=
    (hreplace (B := .absent) hframe rfl).congr fun i => by cases i <;> rfl
  obtain ⟨users, hfree, hframe⟩ := freeAll_spec (h := m.users) (by rw [hl.users]; exact hdir.live)
    hdir.nodup
  obtain ⟨h₁, h₂, entries, _, _, pairs, hrun₁, hrun₂, hrun₃, hlists, hentries⟩ := hl.destroyTables
  have hps : ((pairs.map Prod.fst).map (CString.ofBuffer channelMax channelMax_pos)).map
      (fun c => (channels c).map StoredChannel.ptr) = (pairs.map Prod.snd).map some := by
    rw [List.map_map, List.map_map, List.map_map]
    exact List.map_congr_left fun pair hpair => (string_of_pair channelMax_pos hlists hpair).2
  obtain ⟨m', hrun, husers', hentries', hr⟩ := freeChannels_spec
    (m := { m with nodes := nodes, users := users, entries := entries })
    ⟨hnodes, hl.records, hl.names⟩ hps (nodup_strings channelMax_pos hlists) fun c hc => by
      rw [mem_strings channelMax_pos hlists, Option.isSome_map, Option.not_isSome_iff_eq_none] at hc
      exact hc
  obtain ⟨hnodes', hrecs', hnames'⟩ := hr.released
  refine ⟨m', ?_, fun p => ?_, hrecs', hnodes', ?_, hnames'⟩
  · rw [Memory.freeState, hdestroy]
    simp only [bind_ok, hfree, hrun₁, hrun₂, hrun₃, hrun]
  · rw [husers']
    by_cases hp : p ∈ st.userList
    · exact hframe.gone p hp (by simp)
    · rw [hframe.others p hp (by simp), hl.users]
      cases hcell : st.users.cells p with
      | none => rfl
      | some user => exact absurd (hlisted p user hcell) hp
  · rw [hentries']
    exact hentries

/-! ## Runs -/

theorem listed_of_run {qs : List Pass} (hrun : Run State.Step State.initial qs st) : Listed st := by
  have hinv : st.Inv ∧ Listed st := hrun.invariant (P := fun _ => True)
    (I := fun st => st.Inv ∧ Listed st)
    (fun _ _ _ ⟨hinv, hl⟩ _ hstep =>
      ⟨hinv.of_effect (hinv.effect_of_ok hstep), hl.react hinv hstep⟩)
    (fun _ _ => trivial) ⟨State.inv_initial, fun _ _ hp => by cases hp⟩
  exact hinv.2

/-- After any run of sound passes `free_state` frees everything but the lost copies, of which
there are as many as JOINs of clients to channels that they were on. -/
theorem freeState_releases {ps : List StoredPass} (hm : allocState mem = .ok m)
    (hrun : Run Memory.Step m ps m') (hps : ∀ p ∈ ps, p.Sound) :
    ∃ qs st k m'', Run Counts (State.initial, 0) qs (st, k) ∧ List.Forall₂ Matches ps qs ∧
      m'.freeState = .ok m'' ∧ m''.Released k := by
  obtain ⟨qs, ⟨st, k⟩, hcounts, hmatches, channels, leaked, hl, rfl⟩ :=
    represents_of_run hm hrun hps
  have hrun' : Run State.Step State.initial qs st := run_of_counts hcounts
  obtain ⟨m'', hfree, hreleased⟩ :=
    hl.freeState (State.Reachable.inv ⟨qs, hrun'⟩).directory (listed_of_run hrun')
  exact ⟨qs, st, _, m'', hcounts, hmatches, hfree, hreleased⟩

theorem freeState_releases_visit :
    ∃ (m m' m'' : Memory) (k : ℕ), Run Memory.Step m visit m' ∧ m'.freeState = .ok m'' ∧
      m''.Released k := by
  obtain ⟨m, m', hm, hrun⟩ := visit_runs
  obtain ⟨qs, st, k, m'', -, -, hfree, hreleased⟩ := freeState_releases hm hrun visit_sound
  exact ⟨m, m', m'', k, hrun, hfree, hreleased⟩

end CliMessaging.Standalone.Memory
