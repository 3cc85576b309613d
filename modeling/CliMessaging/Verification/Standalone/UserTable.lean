import CliMessaging.Model.Standalone.Handlers

/-! # The tables of users

The list of users and its two indexes describe one partial bijection between names and
addresses. -/

namespace CliMessaging.Standalone

variable {α : Type} {compare : α → α → Except Fault Bool} {test : α → Bool} {target : α}
  {ll : List α}

/-! ## Linked lists -/

theorem llIndexOf_eq (h : ∀ e ∈ ll, compare e target = .ok (test e)) :
    llIndexOf compare target ll = .ok (ll.findIdx? test) := by
  induction ll with
  | nil => rfl
  | cons e ll ih =>
      have hrest := ih fun d hd => h d (List.mem_cons_of_mem _ hd)
      rw [llIndexOf, h e List.mem_cons_self, List.findIdx?_cons]
      cases test e <;> simp [hrest]

theorem llIdempotentAdd_eq (h : ∀ e ∈ ll, compare e target = .ok (test e)) :
    llIdempotentAdd compare target ll = .ok (if ll.any test then ll else ll ++ [target]) := by
  have hany : (ll.findIdx? test).isSome = ll.any test := List.findIdx?_isSome
  rw [llIdempotentAdd, llIndexOf_eq h, bind_ok]
  cases hidx : ll.findIdx? test with
  | none =>
      rw [hidx] at hany
      simp [← hany]
  | some i =>
      rw [hidx] at hany
      simp [← hany]

theorem llIdempotentRemove_eq (h : ∀ e ∈ ll, compare e target = .ok (test e)) :
    llIdempotentRemove compare target ll = .ok (ll.eraseP test, ll.find? test) := by
  rw [llIdempotentRemove, llIndexOf_eq h, bind_ok]
  induction ll with
  | nil => rfl
  | cons e ll ih =>
      have hrest := ih fun d hd => h d (List.mem_cons_of_mem _ hd)
      rw [List.findIdx?_cons, List.eraseP_cons, List.find?_cons]
      cases hte : test e with
      | true => rfl
      | false =>
          cases hidx : ll.findIdx? test with
          | none =>
              rw [hidx] at hrest
              simpa [hidx] using hrest
          | some i =>
              rw [hidx] at hrest
              simpa [hidx] using hrest

theorem toArray_nil (len : ℤ) : toArray ([] : List α) len = (none, len) := rfl

theorem toArray_of_ne_nil (h : ll ≠ []) (len : ℤ) :
    toArray ll len = (some ll, (ll.length : ℤ)) := by
  rw [toArray, if_neg]
  simpa using h

theorem arrayEntries_self (ll : List α) : arrayEntries (some ll) ll.length = .ok ll := by
  cases ll with
  | nil => rfl
  | cons e ll => simp [arrayEntries]

theorem arrayEntries_none (count : ℤ) : arrayEntries (none : Option (List α)) count =
    if 0 < count then .error .nullPointer else .ok [] := by
  by_cases hcount : 0 < count
  · simp [arrayEntries, hcount]
  · simp [arrayEntries, hcount, Int.not_lt.mp hcount]

theorem arrayEntries_toArray (ll : List α) (count : ℤ) :
    arrayEntries (toArray ll count).1 (toArray ll count).2 =
      if ll = [] ∧ 0 < count then .error .nullPointer else .ok ll := by
  by_cases hll : ll = []
  · simp [hll, toArray_nil, arrayEntries_none]
  · simp [hll, toArray_of_ne_nil hll, arrayEntries_self]

/-! ## Keys of clients -/

theorem clientKey_bytes (a : SockAddr) :
    (clientKey a).bytes = inetNtoa a.ip ++ 58 :: decimal (ntohs a.port).toNat := by
  have htake : (inetNtoa a.ip).take 15 = inetNtoa a.ip :=
    List.take_of_length_le (length_inetNtoa_le a.ip)
  have hport : (decimal (ntohs a.port).toNat).length ≤ 5 :=
    length_decimal_le (by omega) (lt_trans (ntohs a.port).toNat_lt (by omega))
  have hip := length_inetNtoa_le a.ip
  rw [clientKey, constructIpPortKey, htake]
  apply CString.ofBuffer_bytes
  · simp only [List.length_append, List.length_cons, ipPortSize]
    omega
  · simp [notMem_inetNtoa, notMem_decimal]

/-- Clients with one key are one client. -/
theorem clientKey_injective : Function.Injective clientKey := by
  intro a b h
  have hbytes := congrArg CString.bytes h
  rw [clientKey_bytes, clientKey_bytes] at hbytes
  have hcolon : ∀ ip : InAddr, (58 : UInt8) ∉ inetNtoa ip := fun ip =>
    notMem_inetNtoa (by decide) (by decide)
  obtain ⟨hip, hport⟩ := append_separator_inj (hcolon a.ip) (hcolon b.ip) hbytes
  have hnum := UInt16.toNat_inj.mp (decimal_injective hport)
  cases a
  cases b
  simp only [SockAddr.mk.injEq]
  exact ⟨inetNtoa_injective hip, ntohs_injective hnum⟩

/-! ## The directory -/

def nameOf (h : Heap User) (p : ℕ) : Option Uname := (h.cells p).map User.username

def ipPortOf (h : Heap User) (p : ℕ) : Option IpPort := (h.cells p).map User.ipPort

namespace State

/-- The list holds live users, once each, and the indexes find exactly these under
their names and their keys. -/
structure Directory (st : State) : Prop where
  nodup : st.userList.Nodup
  live : st.users.Live st.userList
  byName : Indexes (nameOf st.users) st.userList st.userByUsername
  byIp : Indexes (ipPortOf st.users) st.userList st.userByIp
  keyed : ∀ p ∈ st.userList, ∀ u, st.users.cells p = some u → u.ipPort = clientKey u.cliaddr

/-- `u` is the record of a user that is logged in. -/
def Record (st : State) (u : User) : Prop := ∃ p ∈ st.userList, st.users.cells p = some u

/-- The user `p` is gone from all tables. -/
structure Removed (st : State) (p : ℕ) (st' : State) : Prop where
  list : st'.userList = st.userList.erase p
  cells : st'.users.cells = Function.update st.users.cells p none
  channels : st'.channelUserLists = st.channelUserLists

/-- Only the time at which the user `p` was last seen has changed, channels aside. -/
structure Touched (st : State) (now : ℕ) (p : ℕ) (st' : State) : Prop where
  list : st'.userList = st.userList
  byName : st'.userByUsername = st.userByUsername
  byIp : st'.userByIp = st.userByIp
  cells : ∀ q, st'.users.cells q = (st.users.cells q).map fun u =>
    if q = p then { u with lastSeen := UInt32.ofNat now } else u

variable {st st' st₁ : State} {p q : ℕ} {u v : User} {name : Uname} {key : IpPort}
  {a : SockAddr} {now : ℕ}

theorem Touched.map_eq {β : Type} (ht : st.Touched now p st') (f : User → β)
    (hf : ∀ (u : User) t, f { u with lastSeen := t } = f u) (q : ℕ) :
    (st'.users.cells q).map f = (st.users.cells q).map f := by
  rw [ht.cells, Option.map_map]
  congr 1
  funext u
  by_cases hqp : q = p <;> simp [hqp, hf]

theorem directory_initial : initial.Directory where
  nodup := List.nodup_nil
  live p hp := by cases hp
  byName := Indexes.nil
  byIp := Indexes.nil
  keyed p hp := by cases hp

namespace Directory

theorem eq_of_name (h : st.Directory) (hp : p ∈ st.userList) (hq : q ∈ st.userList)
    (hu : st.users.cells p = some u) (hv : st.users.cells q = some v)
    (hname : u.username = v.username) : p = q :=
  h.byName.eq_of_key_eq hp hq (k := u.username) (by simp [nameOf, hu])
    (by simp [nameOf, hv, hname])

theorem eq_of_key (h : st.Directory) (hp : p ∈ st.userList) (hq : q ∈ st.userList)
    (hu : st.users.cells p = some u) (hv : st.users.cells q = some v)
    (hkey : u.ipPort = v.ipPort) : p = q :=
  h.byIp.eq_of_key_eq hp hq (k := u.ipPort) (by simp [ipPortOf, hu])
    (by simp [ipPortOf, hv, hkey])

theorem getUser_name (h : st.Directory) :
    st.getUser (some name) none = some p ↔
      p ∈ st.userList ∧ ∃ u, st.users.cells p = some u ∧ u.username = name := by
  rw [getUser, h.byName name p, nameOf, Option.map_eq_some_iff]

theorem getUser_key (h : st.Directory) :
    st.getUser none (some key) = some p ↔
      p ∈ st.userList ∧ ∃ u, st.users.cells p = some u ∧ u.ipPort = key := by
  rw [getUser, h.byIp key p, ipPortOf, Option.map_eq_some_iff]

theorem getUser_client (h : st.Directory) :
    st.getUser none (some (clientKey a)) = some p ↔
      p ∈ st.userList ∧ ∃ u, st.users.cells p = some u ∧ u.cliaddr = a := by
  rw [h.getUser_key]
  apply and_congr_right
  intro hp
  apply exists_congr
  intro u
  apply and_congr_right
  intro hu
  rw [h.keyed p hp u hu]
  exact clientKey_injective.eq_iff

/-! ## Removal -/

theorem userCompare_eq (h : st.Directory) (hlist : st₁.userList = st.userList)
    (husers : st₁.users = st.users) (hp : p ∈ st.userList) :
    ∀ q ∈ st₁.userList, st₁.userCompare q p = .ok (decide (q = p)) := by
  intro q hq
  rw [hlist] at hq
  obtain ⟨u, hu⟩ := h.live p hp
  obtain ⟨v, hv⟩ := h.live q hq
  have hiff : v.username = u.username ∧ v.ipPort = u.ipPort ↔ q = p := by
    constructor
    · rintro ⟨hname, -⟩
      exact h.eq_of_name hq hp hv hu hname
    · rintro rfl
      rw [hu] at hv
      cases hv
      exact ⟨rfl, rfl⟩
  rw [userCompare, husers, Heap.read_eq_ok.mpr hv, bind_ok, Heap.read_eq_ok.mpr hu, bind_ok]
  exact congrArg Except.ok (decide_eq_decide.mpr hiff)

/-- A user of the list is freed and taken out of the list, whatever the indexes are. -/
theorem removeFromList (h : st.Directory) (hlist : st₁.userList = st.userList)
    (husers : st₁.users = st.users) (hp : p ∈ st.userList) :
    ∃ st', st₁.removeFromList p = .ok st' ∧ st₁.Removed p st' ∧
      st'.userByUsername = st₁.userByUsername ∧ st'.userByIp = st₁.userByIp := by
  have hp₁ : p ∈ st₁.userList := hlist ▸ hp
  obtain ⟨u, hu⟩ := h.live p hp
  rw [← husers] at hu
  obtain ⟨users, hfree, hcells, -⟩ := Heap.free_of_live hu
  have herase : st₁.userList.eraseP (fun q => decide (q = p)) = st₁.userList.erase p :=
    eraseP_eq_erase hp₁ fun q _ => by simp
  have hfind : st₁.userList.find? (fun q => decide (q = p)) = some p := by
    obtain ⟨q, hq⟩ := Option.isSome_iff_exists.mp
      (List.find?_isSome.mpr ⟨p, hp₁, by simp⟩ :
        (st₁.userList.find? fun q => decide (q = p)).isSome)
    have hqp : q = p := by simpa using List.find?_some hq
    rw [hq, hqp]
  refine ⟨{ st₁ with users := users, userList := st₁.userList.erase p }, ?_,
    ⟨rfl, hcells, rfl⟩, rfl, rfl⟩
  rw [State.removeFromList, llIdempotentRemove_eq (h.userCompare_eq hlist husers hp), bind_ok,
    hfind, herase]
  simp [hfree]

/-- What is left when a user is gone from the list and from both indexes. -/
theorem of_removed (h : st.Directory) (hp : p ∈ st.userList) (hu : st.users.cells p = some u)
    (hrm : st.Removed p st') (hname : st'.userByUsername = st.userByUsername.erase u.username)
    (hip : st'.userByIp = st.userByIp.erase u.ipPort) : st'.Directory := by
  have hold : ∀ q ∈ st'.userList, q ∈ st.userList ∧ st'.users.cells q = st.users.cells q := by
    intro q hq
    rw [hrm.list, h.nodup.mem_erase_iff] at hq
    exact ⟨hq.2, by rw [hrm.cells, Function.update_of_ne hq.1]⟩
  refine ⟨?_, fun q hq => ?_, ?_, ?_, fun q hq v hv => ?_⟩
  · rw [hrm.list]
    exact h.nodup.erase p
  · obtain ⟨hq', hcells⟩ := hold q hq
    rw [hcells]
    exact h.live q hq'
  · have hidx := h.byName.erase h.nodup hp (k := u.username) (by simp [nameOf, hu])
    rw [← hrm.list, ← hname] at hidx
    exact hidx.congr_key fun q hq => by rw [nameOf, nameOf, (hold q hq).2]
  · have hidx := h.byIp.erase h.nodup hp (k := u.ipPort) (by simp [ipPortOf, hu])
    rw [← hrm.list, ← hip] at hidx
    exact hidx.congr_key fun q hq => by rw [ipPortOf, ipPortOf, (hold q hq).2]
  · obtain ⟨hq', hcells⟩ := hold q hq
    rw [hcells] at hv
    exact h.keyed q hq' v hv

/-- A user that has been erased from both indexes is removed everywhere. -/
theorem removeFromTables (h : st.Directory) (hp : p ∈ st.userList)
    (hu : st.users.cells p = some u) :
    ∃ st', State.removeFromList { st with
        userByUsername := st.userByUsername.erase u.username
        userByIp := st.userByIp.erase u.ipPort } p = .ok st' ∧
      st'.Directory ∧ st.Removed p st' := by
  let st₁ : State := { st with
    userByUsername := st.userByUsername.erase u.username
    userByIp := st.userByIp.erase u.ipPort }
  obtain ⟨st', hok, hrm, hname, hip⟩ :=
    h.removeFromList (show st₁.userList = st.userList from rfl) rfl hp
  have hrm' : st.Removed p st' := ⟨hrm.list, hrm.cells, hrm.channels⟩
  exact ⟨st', hok, h.of_removed hp hu hrm' hname hip, hrm'⟩

theorem removeUser_name (h : st.Directory) (hp : p ∈ st.userList)
    (hu : st.users.cells p = some u) :
    ∃ st', st.idempotentRemoveUser (some u.username) none = .ok st' ∧ st'.Directory ∧
      st.Removed p st' := by
  have hlookup : st.userByUsername.lookup u.username = some p :=
    h.byName.lookup_of_mem hp (by simp [nameOf, hu])
  simp only [idempotentRemoveUser, hlookup, Heap.read_eq_ok.mpr hu]
  exact h.removeFromTables hp hu

theorem removeUser_key (h : st.Directory) (hp : p ∈ st.userList)
    (hu : st.users.cells p = some u) :
    ∃ st', st.idempotentRemoveUser none (some u.ipPort) = .ok st' ∧ st'.Directory ∧
      st.Removed p st' := by
  have hlookup : st.userByIp.lookup u.ipPort = some p :=
    h.byIp.lookup_of_mem hp (by simp [ipPortOf, hu])
  simp only [idempotentRemoveUser, hlookup, Heap.read_eq_ok.mpr hu]
  exact h.removeFromTables hp hu

section Keys

variable {κ : Type} [DecidableEq κ] {field : User → κ} {index : AList fun _ : κ => ℕ} {k : κ}

/-- A key that an index does not find is the key of no record. -/
theorem record_of_lookup_none
    (hidx : Indexes (fun q => (st.users.cells q).map field) st.userList index)
    (hnone : index.lookup k = none) (v : User) : st.Record v ↔ st.Record v ∧ field v ≠ k := by
  constructor
  · rintro ⟨q, hq, hv⟩
    refine ⟨⟨q, hq, hv⟩, fun hk => ?_⟩
    exact hidx.lookup_eq_none_iff.mp hnone q hq (by simp [hv, hk])
  · exact And.left

/-- The user that an index finds under a key is the only one with that key. -/
theorem record_of_removed (h : st.Directory) (hrm : st.Removed p st')
    (hidx : Indexes (fun q => (st.users.cells q).map field) st.userList index)
    (hfound : index.lookup k = some p) (v : User) :
    st'.Record v ↔ st.Record v ∧ field v ≠ k := by
  simp only [Record, hrm.list, h.nodup.mem_erase_iff]
  constructor
  · rintro ⟨q, ⟨hqp, hq⟩, hv⟩
    rw [hrm.cells, Function.update_of_ne hqp] at hv
    refine ⟨⟨q, hq, hv⟩, fun hk => hqp ?_⟩
    have hq' := hidx.lookup_of_mem hq (k := k) (by simp [hv, hk])
    rw [hfound] at hq'
    exact (Option.some.inj hq').symm
  · rintro ⟨⟨q, hq, hv⟩, hk⟩
    have hqp : q ≠ p := by
      rintro rfl
      have hkey := hidx.key_of_lookup hfound
      exact hk (by simpa [hv] using hkey)
    exact ⟨q, ⟨hqp, hq⟩, by rw [hrm.cells, Function.update_of_ne hqp, hv]⟩

end Keys

theorem removeUserName_spec (h : st.Directory) (name : Uname) :
    ∃ st', st.idempotentRemoveUser (some name) none = .ok st' ∧ st'.Directory ∧
      (∀ v, st'.Record v ↔ st.Record v ∧ v.username ≠ name) ∧
      st'.channelUserLists = st.channelUserLists := by
  cases hlookup : st.userByUsername.lookup name with
  | none =>
      exact ⟨st, by simp [idempotentRemoveUser, hlookup], h,
        record_of_lookup_none h.byName hlookup, rfl⟩
  | some p =>
      obtain ⟨hp, u, hu, rfl⟩ := h.getUser_name.mp hlookup
      obtain ⟨st', hok, hdir, hrm⟩ := h.removeUser_name hp hu
      exact ⟨st', hok, hdir, h.record_of_removed hrm h.byName hlookup, hrm.channels⟩

theorem removeUserKey_spec (h : st.Directory) (key : IpPort) :
    ∃ st', st.idempotentRemoveUser none (some key) = .ok st' ∧ st'.Directory ∧
      (∀ v, st'.Record v ↔ st.Record v ∧ v.ipPort ≠ key) ∧
      st'.channelUserLists = st.channelUserLists := by
  cases hlookup : st.userByIp.lookup key with
  | none =>
      exact ⟨st, by simp [idempotentRemoveUser, hlookup], h,
        record_of_lookup_none h.byIp hlookup, rfl⟩
  | some p =>
      obtain ⟨hp, u, hu, rfl⟩ := h.getUser_key.mp hlookup
      obtain ⟨st', hok, hdir, hrm⟩ := h.removeUser_key hp hu
      exact ⟨st', hok, hdir, h.record_of_removed hrm h.byIp hlookup, hrm.channels⟩

/-! ## Addition -/

/-- A user whose name and key are not in use is allocated and entered everywhere. -/
theorem enter (h : st.Directory) (hname : ∀ v, st.Record v → v.username ≠ u.username)
    (hkey : ∀ v, st.Record v → v.ipPort ≠ u.ipPort) (hkeyed : u.ipPort = clientKey u.cliaddr)
    (hlist : st'.userList = st.userList ++ [st.users.next])
    (husers : st'.users = st.users.alloc u)
    (hbyName : st'.userByUsername = insertNew st.userByUsername u.username st.users.next)
    (hbyIp : st'.userByIp = insertNew st.userByIp u.ipPort st.users.next) :
    st'.Directory ∧ ∀ v, st'.Record v ↔ st.Record v ∨ v = u := by
  have hne : ∀ q ∈ st.userList, q ≠ st.users.next := by
    intro q hq
    obtain ⟨v, hv⟩ := h.live q hq
    exact Heap.ne_next hv
  have hold : ∀ q ∈ st.userList, st'.users.cells q = st.users.cells q := by
    intro q hq
    rw [husers, Heap.cells_alloc, Function.update_of_ne (hne q hq)]
  have hnew : st'.users.cells st.users.next = some u := by
    rw [husers, Heap.cells_alloc, Function.update_self]
  have hfreeName : st.userByUsername.lookup u.username = none := by
    apply h.byName.lookup_eq_none_iff.mpr
    intro q hq hu
    obtain ⟨v, hv, heq⟩ := Option.map_eq_some_iff.mp hu
    exact hname v ⟨q, hq, hv⟩ heq
  have hfreeKey : st.userByIp.lookup u.ipPort = none := by
    apply h.byIp.lookup_eq_none_iff.mpr
    intro q hq hu
    obtain ⟨v, hv, heq⟩ := Option.map_eq_some_iff.mp hu
    exact hkey v ⟨q, hq, hv⟩ heq
  refine ⟨⟨?_, fun q hq => ?_, ?_, ?_, fun q hq v hv => ?_⟩, fun v => ?_⟩
  · rw [hlist]
    exact h.nodup.append (List.nodup_singleton _) fun q hq hnext =>
      hne q hq (List.mem_singleton.mp hnext)
  · rw [hlist] at hq
    rcases List.mem_append.mp hq with hq | hq
    · rw [hold q hq]
      exact h.live q hq
    · rw [List.mem_singleton.mp hq]
      exact ⟨u, hnew⟩
  · rw [hlist, hbyName, insertNew_of_lookup_none hfreeName]
    exact (h.byName.congr_key fun q hq => by rw [nameOf, nameOf, hold q hq]).append
      (by simp [nameOf, hnew]) hfreeName
  · rw [hlist, hbyIp, insertNew_of_lookup_none hfreeKey]
    exact (h.byIp.congr_key fun q hq => by rw [ipPortOf, ipPortOf, hold q hq]).append
      (by simp [ipPortOf, hnew]) hfreeKey
  · rw [hlist] at hq
    rcases List.mem_append.mp hq with hq | hq
    · rw [hold q hq] at hv
      exact h.keyed q hq v hv
    · rw [List.mem_singleton.mp hq, hnew] at hv
      cases hv
      exact hkeyed
  · simp only [Record, hlist, List.mem_append, List.mem_singleton]
    constructor
    · rintro ⟨q, hq | rfl, hv⟩
      · exact Or.inl ⟨q, hq, by rw [← hold q hq, hv]⟩
      · rw [hnew] at hv
        exact Or.inr (Option.some.inj hv).symm
    · rintro (⟨q, hq, hv⟩ | rfl)
      · exact ⟨q, Or.inl hq, by rw [hold q hq, hv]⟩
      · exact ⟨_, Or.inr rfl, hnew⟩

theorem addUser_spec (h : st.Directory) (now : ℕ) (name : Uname) (a : SockAddr) :
    ∃ st', st.idempotentAddUser now name (clientKey a) a = .ok st' ∧ st'.Directory ∧
      (∀ v, st'.Record v ↔ (st.Record v ∧ v.username ≠ name ∧ v.ipPort ≠ clientKey a) ∨
        v = ⟨name, clientKey a, a, UInt32.ofNat now⟩) ∧
      st'.channelUserLists = st.channelUserLists := by
  obtain ⟨st₁, hok₁, h₁, hrec₁, hch₁⟩ := h.removeUserName_spec name
  obtain ⟨st₂, hok₂, h₂, hrec₂, hch₂⟩ := h₁.removeUserKey_spec (clientKey a)
  have hrec : ∀ v, st₂.Record v ↔
      st.Record v ∧ v.username ≠ name ∧ v.ipPort ≠ clientKey a := by
    intro v
    rw [hrec₂, hrec₁, and_assoc]
  let user : User := ⟨name, clientKey a, a, UInt32.ofNat now⟩
  let st₃ : State := { st₂ with users := st₂.users.alloc user }
  have hcompare : ∀ q ∈ st₃.userList,
      st₃.userCompare q st₂.users.next = .ok ((fun _ => false) q) := by
    intro q hq
    obtain ⟨v, hv⟩ := h₂.live q hq
    have hq' : st₃.users.read q = .ok v := by
      apply Heap.read_eq_ok.mpr
      rw [Heap.cells_alloc, Function.update_of_ne (Heap.ne_next hv), hv]
    have hnew : st₃.users.read st₂.users.next = .ok user := by
      apply Heap.read_eq_ok.mpr
      rw [Heap.cells_alloc, Function.update_self]
    have hname : v.username ≠ name := ((hrec v).mp ⟨q, hq, hv⟩).2.1
    rw [userCompare, hq', bind_ok, hnew, bind_ok, decide_eq_false fun heq => hname heq.1]
    rfl
  have hadd := llIdempotentAdd_eq hcompare
  rw [List.any_eq_false.mpr fun _ _ => Bool.false_ne_true, if_neg Bool.false_ne_true] at hadd
  let st₄ : State := { st₃ with
    userList := st₂.userList ++ [st₂.users.next]
    userByIp := insertNew st₂.userByIp (clientKey a) st₂.users.next
    userByUsername := insertNew st₂.userByUsername name st₂.users.next }
  have henter : st₄.Directory ∧ ∀ v, st₄.Record v ↔ st₂.Record v ∨ v = user :=
    h₂.enter (fun v hv => ((hrec v).mp hv).2.1) (fun v hv => ((hrec v).mp hv).2.2) rfl rfl rfl
      rfl rfl
  obtain ⟨hdir, hrec'⟩ := henter
  refine ⟨st₄, ?_, hdir, fun v => ?_, hch₂.trans hch₁⟩
  · rw [idempotentAddUser, hok₁, bind_ok, hok₂, bind_ok]
    exact congrArg (· >>= _) hadd
  · rw [hrec', hrec]

/-! ## Times -/

theorem touched (h : st.Directory) (ht : st.Touched now p st') : st'.Directory := by
  have hname : ∀ q, nameOf st'.users q = nameOf st.users q := fun q =>
    ht.map_eq User.username (fun _ _ => rfl) q
  have hkey : ∀ q, ipPortOf st'.users q = ipPortOf st.users q := fun q =>
    ht.map_eq User.ipPort (fun _ _ => rfl) q
  refine ⟨ht.list ▸ h.nodup, fun q hq => ?_, ?_, ?_, fun q hq v hv => ?_⟩
  · rw [ht.list] at hq
    obtain ⟨u, hu⟩ := h.live q hq
    exact ⟨_, by rw [ht.cells, hu, Option.map_some]⟩
  · rw [ht.list, ht.byName]
    exact h.byName.congr_key fun q _ => hname q
  · rw [ht.list, ht.byIp]
    exact h.byIp.congr_key fun q _ => hkey q
  · rw [ht.list] at hq
    rw [ht.cells] at hv
    obtain ⟨u, hu, rfl⟩ := Option.map_eq_some_iff.mp hv
    have hkeyed := h.keyed q hq u hu
    split
    · exact hkeyed
    · exact hkeyed

/-- The user found under a name is touched. -/
theorem updateLastSeen_of_getUser (h : st.Directory) (name : Option Uname)
    (client : Option SockAddr) (hget : st.getUser name (client.map clientKey) = some p)
    (hp : p ∈ st.userList) (now : ℕ) :
    ∃ st', st.updateLastSeen now name client = .ok st' ∧ st.Touched now p st' ∧
      st'.channelUserLists = st.channelUserLists := by
  obtain ⟨u, hu⟩ := h.live p hp
  obtain ⟨users, hmod, hcells, -⟩ :=
    Heap.modify_of_live hu fun user => { user with lastSeen := UInt32.ofNat now }
  refine ⟨{ st with users := users }, ?_, ⟨rfl, rfl, rfl, fun q => ?_⟩, rfl⟩
  · simp [updateLastSeen, hget, hmod]
  · by_cases hqp : q = p
    · subst hqp
      simp [hcells, hu]
    · simp [hcells, hqp]

end Directory

end State

end CliMessaging.Standalone
