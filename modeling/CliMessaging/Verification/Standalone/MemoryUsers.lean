import CliMessaging.Verification.Standalone.MemoryLayout

/-! # Users in memory

The operations on users keep step with those of the state: on the tables, on the list of
users and on the users themselves. -/

namespace CliMessaging.Standalone.Memory

open Heap LinkedList HashMap

variable {m : Memory} {st : State} {channels : Channels} {leaked : List (ℕ × Uname)} {k : ℕ}
  {mem : Malloc} {name : Uname} {key : IpPort} {p : ℕ}

/-! ## Keys -/

/-- The keys of clients are digits, dots and a colon. -/
theorem hashable_clientKey (client : SockAddr) : Hashable (clientKey client).bytes := by
  refine hashable_of_ascii fun b hb => ?_
  have hmem : b ∈ (inetNtoa client.ip).take 15 ++ 58 :: decimal (ntohs client.port).toNat :=
    List.mem_of_mem_take (List.takeWhile_subset _ hb)
  by_contra hlarge
  have hdot : b ≠ 46 := by
    rintro rfl
    exact hlarge (by decide)
  have hdigit : b.toNat < 48 ∨ 57 < b.toNat := .inr (by omega)
  rcases List.mem_append.mp hmem with hip | hport
  · exact notMem_inetNtoa hdot hdigit (List.mem_of_mem_take hip)
  · rcases List.mem_cons.mp hport with rfl | hport
    · exact hlarge (by decide)
    · exact notMem_decimal hdigit hport

/-! ## Tables -/

theorem Layout.removeByUsername (hl : Layout m st channels leaked) (hname : Hashable name.bytes) :
    ∃ entries hmd, hmRemove m.entries m.userByUsername name.bytes =
        .ok (entries, hmd, st.userByUsername.lookup name) ∧
      Layout { m with entries := entries, userByUsername := hmd }
        { st with userByUsername := st.userByUsername.erase name } channels leaked := by
  obtain ⟨entries, hmd, hrun, hf⟩ := tables_remove hl.entries .byUsername hname
  refine ⟨entries, hmd, by simpa [tables, contents] using hrun,
    { hl with entries := hf.congr fun t => ?_ }⟩
  cases t with
  | byUsername =>
      rw [tablesAt, tablesAt, Function.update_self, Function.update_self]
      simp only [tables, contents, lookup_erase_eq_update, byBytes_update]
  | _ => rfl

theorem Layout.removeByIp (hl : Layout m st channels leaked) (hkey : Hashable key.bytes) :
    ∃ entries hmd, hmRemove m.entries m.userByIp key.bytes =
        .ok (entries, hmd, st.userByIp.lookup key) ∧
      Layout { m with entries := entries, userByIp := hmd }
        { st with userByIp := st.userByIp.erase key } channels leaked := by
  obtain ⟨entries, hmd, hrun, hf⟩ := tables_remove hl.entries .byIp hkey
  refine ⟨entries, hmd, by simpa [tables, contents] using hrun,
    { hl with entries := hf.congr fun t => ?_ }⟩
  cases t with
  | byIp =>
      rw [tablesAt, tablesAt, Function.update_self, Function.update_self]
      simp only [tables, contents, lookup_erase_eq_update, byBytes_update]
  | _ => rfl

theorem Layout.putUniqueByUsername (hl : Layout m st channels leaked) (hmem : mem.Ample)
    (hname : Hashable name.bytes) (p : ℕ) :
    ∃ entries hmd ok, hmPutUnique mem.grants m.entries m.userByUsername name.bytes p =
        .ok (entries, hmd, ok) ∧
      Layout { m with entries := entries, userByUsername := hmd }
        { st with userByUsername := insertNew st.userByUsername name p } channels leaked := by
  obtain ⟨entries, hmd, hrun, hf⟩ := tables_putUnique hl.entries .byUsername hname hmem p
  refine ⟨entries, hmd, _, hrun, { hl with entries := hf.congr fun t => ?_ }⟩
  cases t with
  | byUsername =>
      rw [tablesAt, tablesAt, Function.update_self, Function.update_self]
      simp only [tables, contents, lookup_insertNew_eq_update, byBytes_bytes]
      split <;> simp only [byBytes_update]
  | _ => rfl

theorem Layout.putUniqueByIp (hl : Layout m st channels leaked) (hmem : mem.Ample)
    (hkey : Hashable key.bytes) (p : ℕ) :
    ∃ entries hmd ok, hmPutUnique mem.grants m.entries m.userByIp key.bytes p =
        .ok (entries, hmd, ok) ∧
      Layout { m with entries := entries, userByIp := hmd }
        { st with userByIp := insertNew st.userByIp key p } channels leaked := by
  obtain ⟨entries, hmd, hrun, hf⟩ := tables_putUnique hl.entries .byIp hkey hmem p
  refine ⟨entries, hmd, _, hrun, { hl with entries := hf.congr fun t => ?_ }⟩
  cases t with
  | byIp =>
      rw [tablesAt, tablesAt, Function.update_self, Function.update_self]
      simp only [tables, contents, lookup_insertNew_eq_update, byBytes_bytes]
      split <;> simp only [byBytes_update]
  | _ => rfl

/-! ## The list of users -/

theorem userCompare_eq (hl : Layout m st channels leaked) (e₁ e₂ : ℕ) :
    m.userCompare e₁ e₂ = st.userCompare e₁ e₂ := by
  rw [userCompare, State.userCompare, hl.users]

theorem Layout.userList (hl : Layout m st channels leaked) :
    ∃ ns fs, Holds m.nodes m.userList ns fs (st.userList.map some) ∧
      ∀ {nodes ll ns' fs' list},
        m.nodes.Frame nodes (cellsOf m.userList ns fs) (cellsOf ll ns' fs') →
        Holds nodes ll ns' fs' (list.map some) →
          Layout { m with nodes := nodes, userList := ll } { st with userList := list }
            channels leaked := by
  obtain ⟨cells, hlist, hreplace⟩ := hl.nodes.focus none
  obtain ⟨ns, fs, xs, hxs, rfl, hh⟩ := ListAt.of_some hlist
  obtain rfl := Option.some.inj hxs
  refine ⟨ns, fs, hh, fun {nodes ll ns' fs' list} hframe hh' => { hl with nodes := ?_ }⟩
  refine (hreplace (B := listAt (some ll) (some (list.map some))) hframe (.present hh')).congr
    fun c => ?_
  cases c with
  | none => rfl
  | some c => rfl

theorem agree_users (hl : Layout m st channels leaked) (p : ℕ) (ps : List ℕ) :
    Agree (fun e => m.userCompare e p) st.userCompare p ps ps :=
  List.forall₂_same.mpr fun e _ => userCompare_eq hl e p

/-- A user is freed. -/
theorem Layout.freeUser (hl : Layout m st channels leaked) {users : Heap User}
    (hfree : st.users.free p = .ok users) :
    Layout { m with users := users } { st with users := users } channels leaked where
  users := rfl
  lookup := hl.lookup
  nodes := hl.nodes
  records := hl.records
  names := hl.names
  entries := hl.entries
  userKeys q user hq := by
    have hcells : users.cells = Function.update st.users.cells p none := cells_of_free hfree
    rw [hcells] at hq
    rcases eq_or_ne q p with rfl | hne
    · rw [Function.update_self] at hq
      cases hq
    · rw [Function.update_of_ne hne] at hq
      exact hl.userKeys q user hq
  listKeys := hl.listKeys

theorem removeFromList_lockstep (hl : Layout m st channels leaked) (p : ℕ) :
    Lockstep (fun m' st' => Layout m' st' channels leaked) (m.removeFromList p)
      (st.removeFromList p) := by
  obtain ⟨ns, fs, hh, hreplace⟩ := hl.userList
  refine (llIdempotentRemove_lockstep hh (agree_users hl p st.userList)).bind ?_
  rintro ⟨nodes, ll, removed⟩ ⟨list, removed'⟩ ⟨ns', fs', ps', hh', hframe, hcases⟩
  have hl' := hreplace hframe hh'
  rcases hcases with ⟨rfl, hnone, heq⟩ | ⟨i, q, b, hq, hb, rfl, hsome, heq⟩
  · obtain ⟨rfl, rfl⟩ := Prod.mk.inj heq
    obtain rfl : removed = none := hnone
    exact .ok hl'
  · obtain ⟨rfl, rfl⟩ := Prod.mk.inj heq
    obtain rfl : removed = some (some q) := hsome
    obtain rfl : q = b := Option.some.inj (hq.symm.trans hb)
    simp only [freePointer, hl.users]
    refine .bind_same fun users hfree => .ok ?_
    exact hl'.freeUser hfree

/-! ## Users -/

theorem idempotentRemoveUser_lockstep (hl : Layout m st channels leaked)
    {username : Option Uname} {ipPort : Option IpPort}
    (hname : ∀ name, username = some name → Hashable name.bytes)
    (hkey : ∀ key, ipPort = some key → Hashable key.bytes) :
    Lockstep (fun m' st' => Layout m' st' channels leaked)
      (m.idempotentRemoveUser username ipPort) (st.idempotentRemoveUser username ipPort) := by
  cases username with
  | some name =>
      obtain ⟨entries, hmd, hrun, hl₁⟩ := hl.removeByUsername (hname name rfl)
      rw [idempotentRemoveUser, hrun, State.idempotentRemoveUser]
      cases hlookup : st.userByUsername.lookup name with
      | none =>
          rw [erase_of_lookup_none hlookup] at hl₁
          exact .ok hl₁
      | some p =>
          simp only [bind_ok, hl.users]
          refine .bind_same fun user hread => ?_
          obtain ⟨-, hip⟩ := hl.userKeys p user (read_eq_ok.mp hread)
          obtain ⟨entries₂, hmd₂, hrun₂, hl₂⟩ := hl₁.removeByIp hip
          simp only [hl.users] at hrun₂ hl₂
          simp only [hrun₂, bind_ok]
          exact removeFromList_lockstep hl₂ p
  | none =>
      cases ipPort with
      | none => exact .ok hl
      | some key =>
          obtain ⟨entries, hmd, hrun, hl₁⟩ := hl.removeByIp (hkey key rfl)
          rw [idempotentRemoveUser, hrun, State.idempotentRemoveUser]
          cases hlookup : st.userByIp.lookup key with
          | none =>
              rw [erase_of_lookup_none hlookup] at hl₁
              exact .ok hl₁
          | some p =>
              simp only [bind_ok, hl.users]
              refine .bind_same fun user hread => ?_
              obtain ⟨huser, -⟩ := hl.userKeys p user (read_eq_ok.mp hread)
              obtain ⟨entries₂, hmd₂, hrun₂, hl₂⟩ := hl₁.removeByUsername huser
              simp only [hl.users] at hrun₂ hl₂
              simp only [hrun₂, bind_ok]
              exact removeFromList_lockstep hl₂ p

/-- A user is allocated. -/
theorem Layout.allocUser (hl : Layout m st channels leaked) (user : User)
    (hkeys : Hashable user.username.bytes ∧ Hashable user.ipPort.bytes) :
    Layout { m with users := m.users.alloc user } { st with users := st.users.alloc user }
      channels leaked where
  users := by rw [hl.users]
  lookup := hl.lookup
  nodes := hl.nodes
  records := hl.records
  names := hl.names
  entries := hl.entries
  userKeys q user' hq := by
    rw [cells_alloc] at hq
    rcases eq_or_ne q st.users.next with rfl | hne
    · rw [Function.update_self, Option.some.injEq] at hq
      exact hq ▸ hkeys
    · rw [Function.update_of_ne hne] at hq
      exact hl.userKeys q user' hq
  listKeys := hl.listKeys

theorem ample_blocks (hmem : mem.Ample) : mem.blocks ≠ [] := by
  intro hnil
  have hlen := hmem.blocks
  rw [hnil] at hlen
  exact absurd hlen (by decide)

theorem idempotentAddUser_lockstep (hl : Layout m st channels leaked) (hmem : mem.Ample)
    (hname : Hashable name.bytes) (hkey : Hashable key.bytes) (now : ℕ) (cliaddr : SockAddr) :
    Lockstep (fun m' st' => Layout m' st' channels leaked)
      (m.idempotentAddUser mem now name key cliaddr)
      (st.idempotentAddUser now name key cliaddr) := by
  refine (idempotentRemoveUser_lockstep hl (by simpa using hname) (by simp)).bind ?_
  intro m st hl
  refine (idempotentRemoveUser_lockstep hl (by simp) (by simpa using hkey)).bind ?_
  intro m st hl
  have hl₁ := hl.allocUser ⟨name, key, cliaddr, UInt32.ofNat now⟩ ⟨hname, hkey⟩
  obtain ⟨ns, fs, hh, hreplace⟩ := hl₁.userList
  simp only [hl.users] at hh hreplace hl₁ ⊢
  refine (llIdempotentAdd_lockstep hh (agree_users hl₁ st.users.next st.userList)
    (ample_blocks hmem) st.users.next).bind ?_
  rintro ⟨nodes, ll⟩ list ⟨ns', fs', ps', hh', hframe, hcases⟩
  obtain rfl : ps' = list := by
    rcases hcases with ⟨rfl, rfl⟩ | ⟨rfl, rfl⟩ <;> rfl
  have hl₂ := hreplace hframe hh'
  obtain ⟨entries₃, hmd₃, ok₃, hrun₃, hl₃⟩ := hl₂.putUniqueByIp hmem hkey st.users.next
  obtain ⟨entries₄, hmd₄, ok₄, hrun₄, hl₄⟩ := hl₃.putUniqueByUsername hmem hname st.users.next
  simp only at hrun₃ hrun₄
  simp only [hrun₃, bind_ok, hrun₄]
  exact .ok hl₄

theorem listUsers_eq (hl : Layout m st channels leaked) (hmem : mem.Ample) (count : ℤ) :
    m.listUsers mem count =
      .ok ((st.listUsers count).1.map (List.map some), (st.listUsers count).2) := by
  obtain ⟨ns, fs, hh, -⟩ := hl.userList
  rw [listUsers, llToArray_spec hh, hmem.room, State.listUsers, Standalone.toArray]
  cases st.userList <;> simp

theorem getUser_eq (hl : Layout m st channels leaked) {username : Option Uname}
    {ipPort : Option IpPort} (hname : ∀ name, username = some name → Hashable name.bytes)
    (hkey : ∀ key, ipPort = some key → Hashable key.bytes) :
    m.getUser username ipPort = .ok (st.getUser username ipPort) := by
  cases username with
  | some name =>
      have hget := tables_get hl.entries .byUsername
        (tables_hasBucket hl.entries .byUsername (hname name rfl))
      simpa [getUser, State.getUser, tables, contents] using hget
  | none =>
      cases ipPort with
      | none => rfl
      | some key =>
          have hget := tables_get hl.entries .byIp
            (tables_hasBucket hl.entries .byIp (hkey key rfl))
          simpa [getUser, State.getUser, tables, contents] using hget

theorem getUser_client (hl : Layout m st channels leaked) (client : SockAddr) :
    m.getUser none (some (clientKey client)) = .ok (st.getUser none (some (clientKey client))) :=
  getUser_eq hl (by simp) (by simpa using hashable_clientKey client)

theorem updateLastSeen_lockstep (hl : Layout m st channels leaked) (now : ℕ)
    {username : Option Uname} (hname : ∀ name, username = some name → Hashable name.bytes)
    (cliaddr : Option SockAddr) :
    Lockstep (fun m' st' => Layout m' st' channels leaked)
      (m.updateLastSeen now username cliaddr) (st.updateLastSeen now username cliaddr) := by
  have hkey : ∀ key, cliaddr.map clientKey = some key → Hashable key.bytes := by
    intro key hkey
    obtain ⟨client, -, rfl⟩ := Option.map_eq_some_iff.mp hkey
    exact hashable_clientKey client
  rw [updateLastSeen, State.updateLastSeen, getUser_eq hl hname hkey]
  cases hget : st.getUser username (cliaddr.map clientKey) with
  | none => exact .ok hl
  | some p =>
      simp only [bind_ok, hl.users]
      refine .bind_same fun users hmod => .ok ?_
      obtain ⟨user, huser, hcells⟩ := cells_of_modify hmod
      exact {
        hl with
        users := rfl
        userKeys := fun q user' hq => by
          simp only at hq
          rw [hcells] at hq
          rcases eq_or_ne q p with rfl | hne
          · rw [Function.update_self, Option.some.injEq] at hq
            subst hq
            exact hl.userKeys q user huser
          · rw [Function.update_of_ne hne] at hq
            exact hl.userKeys q user' hq }

end CliMessaging.Standalone.Memory
