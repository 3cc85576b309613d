import CliMessaging.Model.Standalone.MemoryHandlers
import CliMessaging.Verification.Standalone.MemoryChannels

/-! # The handlers in memory

Every pass of the server in memory keeps step with the pass of the state that the memory
holds. What it sends is the same, up to the order of a list of channels. -/

namespace CliMessaging.Standalone.Memory

open Heap LinkedList HashMap

variable {m m' : Memory} {st st' : State} {channels : Channels} {leaked : List (ℕ × Uname)}
  {mem : Malloc} {env : Env} {client : SockAddr} {c : Cname} {name : Uname} {text : SayText}

/-! ## Answers -/

/-- Two datagrams that are the same, or two lists of the same channels. -/
inductive Similar : Datagram → Datagram → Prop where
  | refl (d) : Similar d d
  | list (dst) {cs cs' : List Cname} (h : cs.Perm cs') : Similar ⟨dst, .list cs⟩ ⟨dst, .list cs'⟩

theorem similar_refl (ds : List Datagram) : List.Forall₂ Similar ds ds :=
  List.forall₂_same.mpr fun d _ => .refl d

/-- The results of a pass: memory and state, and what both sent. -/
def Answers (k : ℕ) (x : Memory × List Datagram) (y : State × List Datagram) : Prop :=
  Represents k x.1 y.1 ∧ List.Forall₂ Similar x.2 y.2

theorem Layout.answers (hl : Layout m st channels leaked) (sent : List Datagram) :
    Answers leaked.length (m, sent) (st, sent) :=
  ⟨⟨channels, leaked, hl, rfl⟩, similar_refl sent⟩

/-! ## Arrays -/

theorem arrayEntries_map {α β : Type} (f : α → β) (arr : Option (List α)) (count : ℤ) :
    Lockstep (fun xs ys => xs = ys.map f) (arrayEntries (arr.map (List.map f)) count)
      (arrayEntries arr count) := by
  rw [arrayEntries, arrayEntries]
  by_cases hcount : count ≤ 0
  · rw [if_pos hcount, if_pos hcount]
    exact .ok rfl
  · rw [if_neg hcount, if_neg hcount]
    cases arr with
    | none => exact .error _
    | some xs =>
        simp only [Option.map_some, deref_some, bind_ok, List.length_map]
        split
        · exact .ok List.map_take.symm
        · exact .error _

theorem readEach_lockstep {α : Type} (h : Heap α) (ps : List ℕ) :
    Lockstep (fun _ _ => True) (readEach h (ps.map some)) (h.readAll ps) := by
  induction ps with
  | nil => exact .ok trivial
  | cons p ps ih =>
      rw [List.map_cons, readEach, deref_some, bind_ok, readAll]
      refine .bind_same fun a _ => ih.bind fun _ _ _ => .ok trivial

theorem readEach_eq {α : Type} {h : Heap α} {ps : List ℕ} {as : List α}
    (has : List.Forall₂ (fun p a => h.cells p = some a) ps as) :
    readEach h (ps.map some) = .ok as := by
  induction has with
  | nil => rfl
  | cons hp _ ih =>
      rw [List.map_cons, readEach, deref_some, bind_ok, read_eq_ok.mpr hp, bind_ok, ih]
      rfl

/-! ## Handlers -/

theorem handleLogin_lockstep (hl : Layout m st channels leaked) (hmem : mem.Ample)
    (hname : Hashable name.bytes) :
    Lockstep (Answers leaked.length) (m.handleLogin mem env client name)
      (Standalone.handleLogin st env client name) :=
  (idempotentAddUser_lockstep hl hmem hname (hashable_clientKey client) env.now client).bind
    fun _ _ hl' => .ok (hl'.answers [])

theorem handleLogout_lockstep (hl : Layout m st channels leaked) :
    Lockstep (Answers leaked.length) (m.handleLogout client)
      (Standalone.handleLogout st client) := by
  refine (idempotentRemoveUser_lockstep hl (by simp) ?_).bind fun _ _ hl' => .ok (hl'.answers [])
  simpa using hashable_clientKey client

theorem rejectStranger_lockstep (hl : Layout m st channels leaked) (hmem : mem.Ample) :
    Lockstep (Answers leaked.length) (m.rejectStranger mem env client)
      (Standalone.rejectStranger st env client) := by
  rw [rejectStranger, listUsers_eq hl hmem, Standalone.rejectStranger, hl.users]
  refine (arrayEntries_map some _ _).bind fun xs ys hxs => ?_
  rw [hxs]
  exact (readEach_lockstep _ _).bind fun _ _ _ => .ok (hl.answers _)

theorem channelUserLists_updateLastSeen {now : ℕ} {username : Option Uname}
    {cliaddr : Option SockAddr} (h : st.updateLastSeen now username cliaddr = .ok st') :
    st'.channelUserLists = st.channelUserLists := by
  rw [State.updateLastSeen] at h
  split at h
  · cases h
    rfl
  · obtain ⟨users, -, h⟩ := bind_eq_ok.mp h
    cases h
    rfl

/-- No more than a user has been written. -/
theorem eq_of_updateLastSeen {now : ℕ} {username : Option Uname} {cliaddr : Option SockAddr}
    (h : m.updateLastSeen now username cliaddr = .ok m') : m' = { m with users := m'.users } := by
  obtain ⟨found, -, h⟩ := bind_eq_ok.mp h
  cases found with
  | none =>
      cases h
      rfl
  | some p =>
      obtain ⟨users, -, h⟩ := bind_eq_ok.mp h
      cases h
      rfl

/-- The copies that a pass loses: one when a client joins a channel that it is on. -/
def leaks (st : State) : Input → ℕ
  | .recv client (.join channel) =>
      (((st.getUser none (some (clientKey client))).bind st.users.cells).any fun user =>
        subscribed st channel user.username).toNat
  | _ => 0

theorem handleRequestJoin_lockstep (hl : Layout m st channels leaked) (hmem : mem.Ample)
    (hc : Hashable c.bytes) :
    Lockstep (Answers (leaked.length + leaks st (.recv client (.join c))))
      (m.handleRequestJoin mem env client c) (Standalone.handleRequestJoin st env client c) := by
  rw [handleRequestJoin, getUser_client hl, Standalone.handleRequestJoin, bind_ok, leaks]
  cases hget : st.getUser none (some (clientKey client)) with
  | none => exact rejectStranger_lockstep hl hmem
  | some p =>
      simp only [hl.users]
      refine .bind_same fun user hread => ?_
      have huser := read_eq_ok.mp hread
      obtain ⟨hname, -⟩ := hl.userKeys p user huser
      refine (updateLastSeen_lockstep hl env.now (by simpa using hname) none).with_eq.bind ?_
      rintro m₁ st₁ ⟨hl₁, -, hst₁⟩
      obtain ⟨m', st', channels', leaked', hrun, hstate, hl', hlen⟩ :=
        idempotentChannelAddUser_spec hl₁ hmem hc hname
      have hsub : subscribed st₁ c user.username = subscribed st c user.username := by
        rw [subscribed, subscribed, State.getChannel, State.getChannel,
          channelUserLists_updateLastSeen hst₁]
      rw [Option.bind_some, huser, Option.any_some, ← hsub, ← hlen, hrun, hstate]
      exact .ok (hl'.answers [])

theorem handleRequestLeave_lockstep (hl : Layout m st channels leaked) (hmem : mem.Ample)
    (hc : Hashable c.bytes) :
    Lockstep (Answers leaked.length) (m.handleRequestLeave mem env client c)
      (Standalone.handleRequestLeave st env client c) := by
  rw [handleRequestLeave, getUser_client hl, Standalone.handleRequestLeave, bind_ok]
  cases hget : st.getUser none (some (clientKey client)) with
  | none => exact rejectStranger_lockstep hl hmem
  | some p =>
      simp only [hl.users]
      refine .bind_same fun user hread => ?_
      obtain ⟨hname, -⟩ := hl.userKeys p user (read_eq_ok.mp hread)
      refine (updateLastSeen_lockstep hl env.now (by simpa using hname) none).bind ?_
      intro m₁ st₁ hl₁
      obtain ⟨m₂, st₂, channels₂, hrun, hstate, hl₂⟩ :=
        idempotentChannelRemoveUser_spec hl₁ hc user.username
      obtain ⟨m₃, channels₃, hrun₃, hl₃⟩ := idempotentRemoveChannelIfEmpty_spec hl₂ hc
      rw [hrun, hstate, bind_ok, bind_ok, hrun₃]
      exact .ok (hl₃.answers [])

theorem sendToUsers_eq (hl : Layout m st channels leaked) {ps : List ℕ} {us : List Uname}
    (hps : List.Forall₂ (fun p u => m.names.cells p = some u) ps us)
    (hkeys : ∀ u ∈ us, Hashable u.bytes) (name : Uname) :
    m.sendToUsers text c name (ps.map some) = Standalone.sendToUsers st text c name us := by
  induction hps with
  | nil => rfl
  | @cons p u ps us hp _ ih =>
      have hget : m.getUser (some u) none = .ok (st.getUser (some u) none) :=
        getUser_eq hl (by simpa using hkeys u List.mem_cons_self) (by simp)
      have hrest := ih fun u' hu => hkeys u' (List.mem_cons_of_mem u hu)
      rw [List.map_cons, sendToUsers, deref_some, bind_ok, read_eq_ok.mpr hp, bind_ok, hget,
        Standalone.sendToUsers, hrest, hl.users]
      rfl

/-- The client at the address is logged in under a name on the list of the channel. -/
def speaksOn (st : State) (client : SockAddr) (c : Cname) : Prop :=
  ∃ p user, st.getUser none (some (clientKey client)) = some p ∧ st.users.cells p = some user ∧
    subscribed st c user.username = true

/-- The index of the channel matters only to clients that are logged in, and the array of
names only to subscribers. -/
theorem handleRequestSay_lockstep (hl : Layout m st channels leaked)
    (hc : st.getUser none (some (clientKey client)) ≠ none →
      m.channelUserLists.HasBucket c.bytes)
    (hroom : speaksOn st client c → mem.room = true) :
    Lockstep (fun x y => Layout x.1 y.1 channels leaked ∧ x.1 = { m with users := x.1.users } ∧
        x.2 = y.2)
      (m.handleRequestSay mem env client c text)
      (Standalone.handleRequestSay st env client c text) := by
  rw [handleRequestSay, getUser_client hl, Standalone.handleRequestSay, bind_ok]
  cases hget : st.getUser none (some (clientKey client)) with
  | none => exact .ok ⟨hl, rfl, rfl⟩
  | some p =>
      simp only [hl.users]
      refine .bind_same fun user hread => ?_
      have huser := read_eq_ok.mp hread
      obtain ⟨hname, -⟩ := hl.userKeys p user huser
      refine (updateLastSeen_lockstep hl env.now (by simpa using hname) none).with_eq.bind ?_
      rintro m₁ st₁ ⟨hl₁, hm₁, hst₁⟩
      have hsame : m₁ = { m with users := m₁.users } := eq_of_updateLastSeen hm₁
      have hbucket : m₁.channelUserLists.HasBucket c.bytes := by
        rw [hsame]
        exact hc (by simp [hget])
      rw [getChannel_eq hl₁ hbucket, bind_ok, hl₁.getChannel_state c]
      cases hch : channels c with
      | none => exact .ok ⟨hl₁, hsame, rfl⟩
      | some ch =>
          have hnames := forall₂_objects (hl₁.channelNames hch).1
          simp only [Option.map_some, channelContainsUser_eq hl₁ hch]
          refine .bind_same fun contains hcontains => ?_
          cases contains with
          | false => exact .ok ⟨hl₁, hsame, rfl⟩
          | true =>
              have hsub : subscribed st c user.username = true := by
                rw [Standalone.channelContainsUser_eq, Except.ok.injEq] at hcontains
                rw [subscribed, hl.getChannel_state c, hch]
                simpa using hcontains
              simp only [channelGetUserList_eq hl₁ (hroom ⟨p, user, hget, huser, hsub⟩) hch,
                bind_ok, Standalone.channelGetUserList, Standalone.toArray, ← hnames.length_eq,
                List.length_eq_zero_iff]
              by_cases hnil : ch.copies = []
              · rw [if_pos hnil, if_pos hnil]
                exact .ok ⟨hl₁, hsame, rfl⟩
              · rw [if_neg hnil, if_neg hnil]
                have hcopies := arrayEntries_self (ch.copies.map some)
                have hlist := arrayEntries_self ch.channel.userList
                rw [List.length_map] at hcopies
                rw [← hnames.length_eq] at hlist
                simp only [hcopies, hlist, bind_ok,
                  sendToUsers_eq hl₁ hnames (hl₁.listKeys c ch hch)]
                exact .bind_same fun sent _ => .ok ⟨hl₁, hsame, rfl⟩

theorem handleRequestList_lockstep (hl : Layout m st channels leaked) (hmem : mem.Ample) :
    Lockstep (Answers leaked.length) (m.handleRequestList mem env client)
      (Standalone.handleRequestList st env client) := by
  refine (updateLastSeen_lockstep hl env.now (by simp) (some client)).bind ?_
  intro m₁ st₁ hl₁
  obtain ⟨names, hperm, hlist⟩ := getChannelList_spec hl₁ hmem 0
  rw [hlist, State.getChannelList, bind_ok, Standalone.toArray, Standalone.toArray,
    ← hperm.length_eq]
  by_cases hnil : names.length = 0
  · rw [if_pos hnil, if_pos hnil]
    exact .ok (hl₁.answers _)
  · rw [if_neg hnil, if_neg hnil]
    have hkeys := arrayEntries_self st₁.channelUserLists.keys
    rw [← hperm.length_eq] at hkeys
    simp only [arrayEntries_self, hkeys, bind_ok]
    exact .ok ⟨⟨channels, leaked, hl₁, rfl⟩, .cons (.list client hperm) .nil⟩

theorem handleRequestWho_lockstep (hl : Layout m st channels leaked) (hmem : mem.Ample)
    (hc : Hashable c.bytes) :
    Lockstep (Answers leaked.length) (m.handleRequestWho mem env client c)
      (Standalone.handleRequestWho st env client c) := by
  refine (updateLastSeen_lockstep hl env.now (by simp) (some client)).bind ?_
  intro m₁ st₁ hl₁
  rw [getChannel_eq hl₁ (hl₁.hasBucket hc), bind_ok, hl₁.getChannel_state c]
  cases hch : channels c with
  | none => exact .ok (hl₁.answers _)
  | some ch =>
      have hnames := forall₂_objects (hl₁.channelNames hch).1
      simp only [Option.map_some, channelGetUserList_eq hl₁ hmem.room hch, bind_ok,
        Standalone.channelGetUserList, Standalone.toArray, ← hnames.length_eq,
        List.length_eq_zero_iff]
      by_cases hnil : ch.copies = []
      · rw [if_pos hnil, if_pos hnil]
        exact .ok (hl₁.answers _)
      · rw [if_neg hnil, if_neg hnil]
        have hcopies := arrayEntries_self (ch.copies.map some)
        have hlist := arrayEntries_self ch.channel.userList
        rw [List.length_map] at hcopies
        rw [← hnames.length_eq] at hlist
        simp only [hcopies, hlist, bind_ok, readEach_eq hnames]
        exact .ok (hl₁.answers _)

theorem handleRequestKeepAlive_lockstep (hl : Layout m st channels leaked) :
    Lockstep (Answers leaked.length) (m.handleRequestKeepAlive env client)
      (Standalone.handleRequestKeepAlive st env client) :=
  (updateLastSeen_lockstep hl env.now (by simp) (some client)).bind
    fun _ _ hl' => .ok (hl'.answers [])

/-! ## The cleanup loop -/

theorem removeInactive_lockstep (clock : ℕ → ℕ) (ps : List ℕ) (i : ℕ)
    (hl : Layout m st channels leaked) :
    Lockstep (fun m' st' => Layout m' st' channels leaked)
      (removeInactive clock i (ps.map some) m) (Standalone.removeInactive clock i ps st) := by
  induction ps generalizing m st i with
  | nil => exact .ok hl
  | cons p ps ih =>
      rw [List.map_cons, removeInactive, deref_some, bind_ok, Standalone.removeInactive, hl.users]
      refine .bind_same fun user hread => ?_
      obtain ⟨hname, -⟩ := hl.userKeys p user (read_eq_ok.mp hread)
      cases isInactive (clock i) user with
      | true =>
          exact (idempotentRemoveUser_lockstep hl (by simpa using hname) (by simp)).bind
            fun _ _ hl' => ih (i + 1) hl'
      | false => exact ih (i + 1) hl

theorem scanAndRemoveInactiveUsers_lockstep (hl : Layout m st channels leaked)
    (hmem : mem.Ample) :
    Lockstep (fun m' st' => Layout m' st' channels leaked)
      (m.scanAndRemoveInactiveUsers mem env) (Standalone.scanAndRemoveInactiveUsers st env) := by
  rw [scanAndRemoveInactiveUsers, listUsers_eq hl hmem, Standalone.scanAndRemoveInactiveUsers]
  refine (arrayEntries_map some _ _).bind fun xs ys hxs => ?_
  rw [hxs]
  exact removeInactive_lockstep env.clock ys 0 hl

/-! ## Passes -/

/-- The names in a request have their hashes in range. -/
def HashableInput : Input → Prop
  | .recv _ req => ∀ key, requestKey req = some key → Hashable key.bytes
  | .scan => True

theorem react_lockstep (hl : Layout m st channels leaked) (hmem : mem.Ample) (input : Input)
    (hinput : HashableInput input) :
    Lockstep (Answers (leaked.length + leaks st input)) (m.react mem env input)
      (st.react env input) := by
  cases input with
  | recv client req =>
      cases req with
      | login name => exact handleLogin_lockstep hl hmem (hinput name rfl)
      | logout => exact handleLogout_lockstep hl
      | join c => exact handleRequestJoin_lockstep hl hmem (hinput c rfl)
      | leave c => exact handleRequestLeave_lockstep hl hmem (hinput c rfl)
      | say c text =>
          refine (handleRequestSay_lockstep hl (fun _ => hl.hasBucket (hinput c rfl))
            fun _ => hmem.room).mono ?_
          rintro ⟨m', sent⟩ ⟨st', sent'⟩ ⟨hl', -, rfl⟩
          exact hl'.answers sent
      | list => exact handleRequestList_lockstep hl hmem
      | who c => exact handleRequestWho_lockstep hl hmem (hinput c rfl)
      | keepAlive => exact handleRequestKeepAlive_lockstep hl
  | scan =>
      exact (scanAndRemoveInactiveUsers_lockstep hl hmem).bind
        fun _ _ hl' => .ok (hl'.answers [])

end CliMessaging.Standalone.Memory
