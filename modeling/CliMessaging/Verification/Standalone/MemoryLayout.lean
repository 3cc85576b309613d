import CliMessaging.Verification.Standalone.HashRuns
import CliMessaging.Verification.Standalone.MemoryLists

/-! # The layout of the state in memory

What it means that the memory of the server holds a state: which list, table or copy every
cell belongs to, and what it says. -/

namespace CliMessaging.Standalone.Memory

open Heap LinkedList HashMap

/-! ## Tables with strings for keys -/

section ByBytes

variable {n : ℕ} {β : Type} {f : CString n → Option β} {s : CString n} {o : Option β} {k : Key}

/-- A map on strings as a map on their bytes. -/
def byBytes (f : CString n → Option β) (k : Key) : Option β :=
  if hk : 0 ∉ k ∧ k.length < n then f ⟨k, hk.1, hk.2⟩ else none

@[simp] theorem byBytes_bytes (f : CString n → Option β) (s : CString n) :
    byBytes f s.bytes = f s := dif_pos ⟨s.noNul, s.length_lt⟩

theorem byBytes_eq_some {b : β} (h : byBytes f k = some b) :
    ∃ s : CString n, s.bytes = k ∧ f s = some b := by
  rw [byBytes] at h
  split at h
  · exact ⟨_, rfl, h⟩
  · cases h

theorem byBytes_update (f : CString n → Option β) (s : CString n) (o : Option β) :
    byBytes (Function.update f s o) = Function.update (byBytes f) s.bytes o := by
  funext k
  by_cases hk : 0 ∉ k ∧ k.length < n
  · obtain ⟨s', rfl⟩ : ∃ s' : CString n, s'.bytes = k := ⟨⟨k, hk.1, hk.2⟩, rfl⟩
    rw [byBytes_bytes]
    rcases eq_or_ne s' s with rfl | hne
    · rw [Function.update_self, Function.update_self]
    · have hbytes : s'.bytes ≠ s.bytes := fun heq => hne (by
        cases s'
        cases s
        simpa using heq)
      rw [Function.update_of_ne hne, Function.update_of_ne hbytes, byBytes_bytes]
  · have hbytes : k ≠ s.bytes := by
      rintro rfl
      exact hk ⟨s.noNul, s.length_lt⟩
    rw [Function.update_of_ne hbytes, byBytes, byBytes, dif_neg hk, dif_neg hk]

end ByBytes

/-! ## Tables -/

inductive TableName where
  | byIp
  | byUsername
  | channels
  deriving DecidableEq

def tablesAt (hmds : TableName → HmData) (fs : TableName → Key → Option ℕ) (t : TableName) :
    Assertion (HMEntry ℕ) :=
  mapAt (some (hmds t)) (some (fs t))

section Tables

variable {hmds : TableName → HmData} {fs : TableName → Key → Option ℕ} {h : Heap (HMEntry ℕ)}
  {key : Key}

theorem tables_focus (hf : Filled (tablesAt hmds fs) h) (t : TableName) :
    ∃ ps, Table h (hmds t) ps ∧ Stores h ps (fs t) ∧ ∀ {h' hmd' ps' f'}, h.Frame h' ps ps' →
      Table h' hmd' ps' → Stores h' ps' f' →
        Filled (tablesAt (Function.update hmds t hmd') (Function.update fs t f')) h' := by
  obtain ⟨ps, hmap, hreplace⟩ := hf.focus t
  obtain ⟨f, hft, ht, hs⟩ := MapAt.some hmap
  obtain rfl := Option.some.inj hft
  refine ⟨ps, ht, hs, fun {h' hmd' ps' f'} hframe ht' hs' => ?_⟩
  refine (hreplace (B := mapAt (some hmd') (some f')) hframe (.present ht' hs')).congr fun t' => ?_
  rw [tablesAt]
  rcases eq_or_ne t' t with rfl | hne
  · simp
  · simp [hne, tablesAt]

/-- A key with its index in range at every size has a bucket. -/
theorem tables_hasBucket (hf : Filled (tablesAt hmds fs) h) (t : TableName)
    (hkey : Hashable key) : (hmds t).HasBucket key := by
  obtain ⟨ps, ht, -⟩ := tables_focus hf t
  exact hkey _ ht.capacity

theorem tables_get (hf : Filled (tablesAt hmds fs) h) (t : TableName)
    (hkey : (hmds t).HasBucket key) : hmGet h (hmds t) key = .ok (fs t key) := by
  obtain ⟨ps, ht, hs, -⟩ := tables_focus hf t
  exact hmGet_spec ht hs hkey

theorem tables_containsKey (hf : Filled (tablesAt hmds fs) h) (t : TableName)
    (hkey : Hashable key) : hmContainsKey h (hmds t) key = .ok (fs t key).isSome := by
  obtain ⟨ps, ht, hs, -⟩ := tables_focus hf t
  exact hmContainsKey_spec ht hs (hkey _ ht.capacity)

theorem tables_remove (hf : Filled (tablesAt hmds fs) h) (t : TableName) (hkey : Hashable key) :
    ∃ h' hmd', hmRemove h (hmds t) key = .ok (h', hmd', fs t key) ∧
      Filled (tablesAt (Function.update hmds t hmd')
        (Function.update fs t (Function.update (fs t) key none))) h' := by
  obtain ⟨ps, ht, hs, hreplace⟩ := tables_focus hf t
  obtain ⟨h', hmd', ps', hrun, ht', hs', hframe, -⟩ := hmRemove_spec ht hs hkey
  exact ⟨h', hmd', hrun, hreplace hframe ht' hs'⟩

theorem tables_putUnique (hf : Filled (tablesAt hmds fs) h) (t : TableName)
    (hkey : Hashable key) {mem : Malloc} (hmem : mem.Ample) (p : ℕ) :
    ∃ h' hmd', hmPutUnique mem.grants h (hmds t) key p =
        .ok (h', hmd', decide (fs t key = none)) ∧
      Filled (tablesAt (Function.update hmds t hmd') (Function.update fs t
        (if fs t key = none then Function.update (fs t) key (some p) else fs t))) h' := by
  obtain ⟨ps, ht, hs, hreplace⟩ := tables_focus hf t
  obtain ⟨h', hmd', ps', hrun, ht', hs', hframe⟩ := hmPutUnique_spec mem.grants ht hs hkey p
  refine ⟨h', hmd', by simpa [hmem.entry, hmem.key] using hrun, hreplace hframe ht' ?_⟩
  simpa [hmem.entry, hmem.key] using hs'

end Tables

/-! ## Channels -/

/-- A channel in memory: its record, its list, and the copies of the names on it. -/
structure StoredChannel where
  ptr : ℕ
  list : LlData
  copies : List ℕ
  channel : ChannelUsersList

abbrev Channels := Cname → Option StoredChannel

def recordAt : Option StoredChannel → Assertion ChannelRecord
  | none => .absent
  | some c => .objects [c.ptr] [⟨c.channel.channelName, c.list⟩]

def channelListAt (c : Option StoredChannel) : Assertion (LLNode ℕ) :=
  listAt (c.map StoredChannel.list) (c.map fun c => c.copies.map some)

def namesAt : Option StoredChannel → Assertion Uname
  | none => .absent
  | some c => .objects c.copies c.channel.userList

def userListAt (userList : LlData) (users : List ℕ) : Assertion (LLNode ℕ) :=
  listAt (some userList) (some (users.map some))

/-- What there is beside the channels, and for every channel the list of its copies. -/
def listsAt (A : Assertion (LLNode ℕ)) (channels : Channels) : Option Cname → Assertion (LLNode ℕ)
  | none => A
  | some c => channelListAt (channels c)

/-- For every channel the names on it. Beside them there are copies that nothing leads to
any more. -/
def copiesAt (leaked : List (ℕ × Uname)) (channels : Channels) :
    Option Cname → Assertion Uname
  | none => .objects (leaked.map Prod.fst) (leaked.map Prod.snd)
  | some c => namesAt (channels c)

section Update

variable {channels : Channels} {c : Cname} {o : Option StoredChannel}

theorem recordAt_update (c' : Cname) :
    Function.update (fun c => recordAt (channels c)) c (recordAt o) c' =
      recordAt (Function.update channels c o c') := by
  rcases eq_or_ne c' c with rfl | hne
  · rw [Function.update_self, Function.update_self]
  · rw [Function.update_of_ne hne, Function.update_of_ne hne]

theorem listsAt_update {A : Assertion (LLNode ℕ)} (i : Option Cname) :
    Function.update (listsAt A channels) (some c) (channelListAt o) i =
      listsAt A (Function.update channels c o) i := by
  cases i with
  | none => rfl
  | some c' =>
      rw [listsAt]
      rcases eq_or_ne c' c with rfl | hne
      · rw [Function.update_self, Function.update_self]
      · rw [Function.update_of_ne hne, Function.update_of_ne (by simpa using hne), listsAt]

theorem copiesAt_update {leaked : List (ℕ × Uname)} (i : Option Cname) :
    Function.update (copiesAt leaked channels) (some c) (namesAt o) i =
      copiesAt leaked (Function.update channels c o) i := by
  cases i with
  | none => rfl
  | some c' =>
      rw [copiesAt]
      rcases eq_or_ne c' c with rfl | hne
      · rw [Function.update_self, Function.update_self]
      · rw [Function.update_of_ne hne, Function.update_of_ne (by simpa using hne), copiesAt]

end Update

/-! ## States -/

def tables (m : Memory) : TableName → HmData
  | .byIp => m.userByIp
  | .byUsername => m.userByUsername
  | .channels => m.channelUserLists

def contents (st : State) (channels : Channels) : TableName → Key → Option ℕ
  | .byIp => byBytes fun key => st.userByIp.lookup key
  | .byUsername => byBytes fun name => st.userByUsername.lookup name
  | .channels => byBytes fun c => (channels c).map StoredChannel.ptr

/-- Where the channels are in memory. Their lists share it with the list `A`. -/
structure Rooms (A : Assertion (LLNode ℕ)) (channels : Channels) (leaked : List (ℕ × Uname))
    (nodes : Heap (LLNode ℕ)) (recs : Heap ChannelRecord) (names : Heap Uname) : Prop where
  nodes : Filled (listsAt A channels) nodes
  records : Filled (fun c => recordAt (channels c)) recs
  names : Filled (copiesAt leaked channels) names

/-- Where the parts of a state are in memory. The keys of the users and the names on the
channels have their indices in range. -/
structure Layout (m : Memory) (st : State) (channels : Channels) (leaked : List (ℕ × Uname)) :
    Prop extends Rooms (userListAt m.userList st.userList) channels leaked m.nodes m.channels
      m.names where
  users : m.users = st.users
  lookup : ∀ c, st.channelUserLists.lookup c = (channels c).map StoredChannel.channel
  entries : Filled (tablesAt m.tables (contents st channels)) m.entries
  userKeys : ∀ p user, st.users.cells p = some user →
    Hashable user.username.bytes ∧ Hashable user.ipPort.bytes
  listKeys : ∀ c ch, channels c = some ch → ∀ name ∈ ch.channel.userList, Hashable name.bytes

/-- The memory holds the state and `k` leaked copies of names. -/
def Represents (k : ℕ) (m : Memory) (st : State) : Prop :=
  ∃ channels leaked, Layout m st channels leaked ∧ leaked.length = k

end CliMessaging.Standalone.Memory
