import CliMessaging.Verification.Standalone.HashResize

/-! # Entries of hash maps

What each function does to the finite map that the entries of a table make up. -/

namespace CliMessaging.Standalone.HashMap

open Linked Heap

variable {α : Type} {h h' : Heap (HMEntry α)} {hmd hmd' : HmData} {N i : ℕ} {p q : ℕ}
  {ps ps' qs l r : List ℕ} {o o' : Option ℕ} {key k : Key} {v element : α}
  {array : List (Option ℕ)} {f : Key → Option α}

/-! ## Finite maps -/

/-- The entries `ps` make up the map `f`. -/
def Stores (h : Heap (HMEntry α)) (ps : List ℕ) (f : Key → Option α) : Prop :=
  ∀ k v, f k = some v ↔ ∃ p ∈ ps, pairOf h p = some (k, v)

theorem Stores.congr (hs : Stores h ps f) (hmem : ∀ p, p ∈ ps' ↔ p ∈ ps)
    (hpair : ∀ p ∈ ps, pairOf h' p = pairOf h p) : Stores h' ps' f := by
  intro k v
  rw [hs k v]
  constructor
  · rintro ⟨p, hp, hk⟩
    exact ⟨p, (hmem p).mpr hp, (hpair p hp).trans hk⟩
  · rintro ⟨p, hp, hk⟩
    have hp' := (hmem p).mp hp
    exact ⟨p, hp', (hpair p hp').symm.trans hk⟩

/-- An entry with a new key is added. -/
theorem Stores.insert (hs : Stores h ps f) (hp : pairOf h' p = some (key, element))
    (hfree : f key = none) (hpair : ∀ q ∈ ps, pairOf h' q = pairOf h q) :
    Stores h' (p :: ps) (Function.update f key (some element)) := by
  intro k v
  by_cases hk : k = key
  · subst hk
    rw [Function.update_self, Option.some.injEq]
    constructor
    · rintro rfl
      exact ⟨p, List.mem_cons_self, hp⟩
    · rintro ⟨q, hq, hkv⟩
      rcases List.mem_cons.mp hq with rfl | hq
      · rw [hp, Option.some.injEq, Prod.mk.injEq] at hkv
        exact hkv.2
      · rw [hpair q hq] at hkv
        have hsome := (hs k v).mpr ⟨q, hq, hkv⟩
        rw [hfree] at hsome
        cases hsome
  · rw [Function.update_of_ne hk, hs k v]
    constructor
    · rintro ⟨q, hq, hkv⟩
      exact ⟨q, List.mem_cons_of_mem p hq, (hpair q hq).trans hkv⟩
    · rintro ⟨q, hq, hkv⟩
      rcases List.mem_cons.mp hq with rfl | hq
      · rw [hp, Option.some.injEq, Prod.mk.injEq] at hkv
        exact absurd hkv.1.symm hk
      · exact ⟨q, hq, (hpair q hq).symm.trans hkv⟩

/-- The entry of a key is removed. -/
theorem Stores.erase (hs : Stores h ps f) (ht : Table h hmd ps) (hp : p ∈ ps)
    (hpk : pairOf h p = some (key, v)) (hmem : ∀ q, q ∈ ps' ↔ q ∈ ps ∧ q ≠ p)
    (hpair : ∀ q ∈ ps', pairOf h' q = pairOf h q) :
    Stores h' ps' (Function.update f key none) := by
  intro k w
  by_cases hk : k = key
  · subst hk
    rw [Function.update_self]
    constructor
    · rintro ⟨⟩
    · rintro ⟨q, hq, hkw⟩
      rw [hpair q hq] at hkw
      obtain ⟨hqps, hne⟩ := (hmem q).mp hq
      exact absurd (ht.keys q hqps p hp k w v hkw hpk) hne
  · rw [Function.update_of_ne hk, hs k w]
    constructor
    · rintro ⟨q, hq, hkw⟩
      have hne : q ≠ p := by
        rintro rfl
        rw [hpk, Option.some.injEq, Prod.mk.injEq] at hkw
        exact hk hkw.1.symm
      have hq' := (hmem q).mpr ⟨hq, hne⟩
      exact ⟨q, hq', (hpair q hq').trans hkw⟩
    · rintro ⟨q, hq, hkw⟩
      exact ⟨q, ((hmem q).mp hq).1, (hpair q hq).symm.trans hkw⟩

/-! ## Finding a key -/

/-- The bucket of a key, with the entry of the key cut out if there is one. -/
theorem findKey_spec (ht : Table h hmd ps) (hkey : hmd.HasBucket key) :
    ∃ found, findKey h hmd key = .ok (found, hash key hmd.capacity) ∧
      ∀ p, found = some p ↔ p ∈ ps ∧ ∃ v, pairOf h p = some (key, v) := by
  obtain ⟨hpos, hlt⟩ := hkey
  obtain ⟨first, hfirst, hat⟩ := bucketAt_eq hpos (by rwa [ht.buckets.length])
  obtain ⟨qs, hchain, hnd, hqs⟩ := ht.buckets.bucket _ _ hfirst
  have hcast : ((hash key hmd.capacity).toNat : ℤ) = hash key hmd.capacity :=
    Int.toNat_of_nonneg hpos
  have hseek := seek_spec key h.next hchain (chain_length_le hchain hnd)
  refine ⟨_, by rw [findKey, hat, bind_ok, hseek]; rfl, fun p => ?_⟩
  have hhas : ∀ p, hasKey h key p = true ↔ ∃ v, pairOf h p = some (key, v) := by
    intro p
    cases hpair : pairOf h p with
    | none => simp [hasKey, hpair]
    | some pair =>
        obtain ⟨k, v⟩ := pair
        simp [hasKey, hpair]
  constructor
  · intro hfind
    exact ⟨((hqs p).mp (List.mem_of_find?_eq_some hfind)).1,
      (hhas p).mp (List.find?_some hfind)⟩
  · rintro ⟨hp, v, hpair⟩
    have hpqs : p ∈ qs := (hqs p).mpr ⟨hp, by rw [indexOf_eq hpair, hcast]⟩
    cases hfind : qs.find? (hasKey h key) with
    | none => exact absurd ((hhas p).mpr ⟨v, hpair⟩) (List.find?_eq_none.mp hfind p hpqs)
    | some q =>
        obtain ⟨w, hw⟩ := (hhas q).mp (List.find?_some hfind)
        have hq := ((hqs q).mp (List.mem_of_find?_eq_some hfind)).1
        rw [ht.keys q hq p hp key w v hw hpair]

/-- What `findKey` finds, by the map. -/
theorem findKey_cases (ht : Table h hmd ps) (hs : Stores h ps f) (hkey : hmd.HasBucket key) :
    (f key = none ∧ findKey h hmd key = .ok (none, hash key hmd.capacity)) ∨
      ∃ p v, f key = some v ∧ p ∈ ps ∧ pairOf h p = some (key, v) ∧
        findKey h hmd key = .ok (some p, hash key hmd.capacity) := by
  obtain ⟨found, hfind, hfound⟩ := findKey_spec ht hkey
  cases found with
  | none =>
      refine .inl ⟨?_, hfind⟩
      cases hf : f key with
      | none => rfl
      | some v =>
          obtain ⟨p, hp, hpair⟩ := (hs key v).mp hf
          exact absurd ((hfound p).mpr ⟨hp, v, hpair⟩) (by simp)
  | some p =>
      obtain ⟨hp, v, hpair⟩ := (hfound p).mp rfl
      exact .inr ⟨p, v, (hs key v).mpr ⟨p, hp, hpair⟩, hp, hpair, hfind⟩

theorem hmContainsKey_spec (ht : Table h hmd ps) (hs : Stores h ps f) (hkey : hmd.HasBucket key) :
    hmContainsKey h hmd key = .ok (f key).isSome := by
  rcases findKey_cases ht hs hkey with ⟨hf, hfind⟩ | ⟨p, v, hf, -, -, hfind⟩
  · simp [hmContainsKey, hfind, hf]
  · simp [hmContainsKey, hfind, hf]

theorem hmGet_spec (ht : Table h hmd ps) (hs : Stores h ps f) (hkey : hmd.HasBucket key) :
    hmGet h hmd key = .ok (f key) := by
  rcases findKey_cases ht hs hkey with ⟨hf, hfind⟩ | ⟨p, v, hf, -, hpair, hfind⟩
  · simp [hmGet, hfind, hf]
  · obtain ⟨entry, hread, -, rfl⟩ := read_of_pair hpair
    simp [hmGet, hfind, hf, hread]

/-! ## Arrays of entries -/

/-- An array that lists the map: each key once, with its element. -/
structure Lists (pairs : List (Key × α)) (f : Key → Option α) : Prop where
  nodup : (pairs.map Prod.fst).Nodup
  mem_iff : ∀ k v, (k, v) ∈ pairs ↔ f k = some v

/-- The entries, in whatever order, list the map. -/
theorem Stores.lists {es : List (HMEntry α)} (hs : Stores h ps f) (ht : Table h hmd ps)
    (hnd : qs.Nodup) (hqs : ∀ p, p ∈ qs ↔ p ∈ ps) (hcells : qs.map h.cells = es.map some) :
    es.length = hmd.size ∧ Lists (es.map fun entry => (entry.key, entry.element)) f := by
  have hperm : qs.Perm ps := (List.perm_ext_iff_of_nodup hnd ht.nodup).mpr hqs
  have hlen : es.length = ps.length := by
    have hlen := congrArg List.length hcells
    rw [List.length_map, List.length_map, hperm.length_eq] at hlen
    exact hlen.symm
  have hpairs : qs.map (pairOf h) =
      (es.map fun entry => (entry.key, entry.element)).map some := by
    have hmap := congrArg (List.map (Option.map fun entry : HMEntry α =>
      (entry.key, entry.element))) hcells
    rw [List.map_map, List.map_map] at hmap
    rw [List.map_map]
    exact hmap
  refine ⟨by rw [hlen, ht.size], ?_, fun k v => ?_⟩
  · have hkeys : (qs.map fun p => (pairOf h p).map Prod.fst).Nodup := by
      refine hnd.map_on fun p hp q hq heq => ?_
      obtain ⟨k, v, hpair, -⟩ := ht.hashable p ((hqs p).mp hp)
      obtain ⟨k', w, hpair', -⟩ := ht.hashable q ((hqs q).mp hq)
      rw [hpair, hpair', Option.map_some, Option.map_some, Option.some.injEq] at heq
      obtain rfl : k = k' := heq
      exact ht.keys p ((hqs p).mp hp) q ((hqs q).mp hq) k v w hpair hpair'
    have heq := congrArg (List.map (Option.map Prod.fst)) hpairs
    rw [List.map_map, List.map_map] at heq
    refine List.Nodup.of_map some ?_
    rw [List.map_map]
    exact heq ▸ hkeys
  · rw [hs k v]
    have hmem : (k, v) ∈ (es.map fun entry => (entry.key, entry.element)) ↔
        some (k, v) ∈ qs.map (pairOf h) := by
      rw [hpairs, List.mem_map_of_injective (Option.some_injective _)]
    rw [hmem, List.mem_map]
    exact exists_congr fun p => and_congr_left fun _ => hqs p

/-- The array of the entries, when `malloc` finds room for it and there is an entry. -/
theorem entries_spec (room : Bool) (ht : Table h hmd ps) (hs : Stores h ps f) :
    (¬(0 < hmd.size ∧ room) ∧ entries room h hmd = .ok none) ∨
      ∃ es, (0 < hmd.size ∧ room) ∧ entries room h hmd = .ok (some es) ∧
        es.length = hmd.size ∧ Lists (es.map fun entry => (entry.key, entry.element)) f := by
  by_cases hroom : 0 < hmd.size ∧ room
  · obtain ⟨css, hchains, hnd, hcss⟩ := ht.exists_chains
    obtain ⟨es, hes, hcells⟩ := chains_spec hchains hnd
    obtain ⟨hlen, hlists⟩ := hs.lists ht hnd hcss hcells
    refine .inr ⟨es, hroom, ?_, hlen, hlists⟩
    rw [entries, if_pos hroom, hes, bind_ok, if_pos hlen]
    rfl
  · exact .inl ⟨hroom, by rw [entries, if_neg hroom]⟩

/-- `hm_entryArray` lists the map, in whatever order. -/
theorem hmEntryArray_spec (room : Bool) (ht : Table h hmd ps) (hs : Stores h ps f) (len : ℤ) :
    (¬(0 < hmd.size ∧ room) ∧ hmEntryArray room h hmd len = .ok (none, len)) ∨
      ∃ pairs : List (Key × α), (0 < hmd.size ∧ room) ∧ (pairs.length : ℤ) = hmd.size ∧
        hmEntryArray room h hmd len = .ok (some pairs, pairs.length) ∧ Lists pairs f := by
  rcases entries_spec room ht hs with ⟨hroom, hes⟩ | ⟨es, hroom, hes, hlen, hlists⟩
  · exact .inl ⟨hroom, by rw [hmEntryArray, hes]; rfl⟩
  · refine .inr ⟨_, hroom, by rw [List.length_map, hlen], ?_, hlists⟩
    rw [hmEntryArray, hes, List.length_map, hlen]
    rfl

/-- `hm_keyArray` lists the keys. -/
theorem hmKeyArray_spec (room : Bool) (ht : Table h hmd ps) (hs : Stores h ps f) (len : ℤ) :
    (¬(0 < hmd.size ∧ room) ∧ hmKeyArray room h hmd len = .ok (none, len)) ∨
      ∃ pairs : List (Key × α), (0 < hmd.size ∧ room) ∧ (pairs.length : ℤ) = hmd.size ∧
        hmKeyArray room h hmd len = .ok (some (pairs.map Prod.fst), pairs.length) ∧
        Lists pairs f := by
  rcases entries_spec room ht hs with ⟨hroom, hes⟩ | ⟨es, hroom, hes, hlen, hlists⟩
  · exact .inl ⟨hroom, by rw [hmKeyArray, hes]; rfl⟩
  · refine .inr ⟨_, hroom, by rw [List.length_map, hlen], ?_, hlists⟩
    rw [hmKeyArray, hes, List.length_map, List.map_map, hlen]
    rfl

theorem Lists.mem_keys {pairs : List (Key × α)} (hl : Lists pairs f) :
    k ∈ pairs.map Prod.fst ↔ (f k).isSome := by
  rw [List.mem_map, Option.isSome_iff_exists]
  constructor
  · rintro ⟨⟨_, v⟩, hkv, rfl⟩
    exact ⟨v, (hl.mem_iff _ v).mp hkv⟩
  · rintro ⟨v, hv⟩
    exact ⟨(k, v), (hl.mem_iff k v).mpr hv, rfl⟩

/-! ## Adding entries -/

/-- A new entry for a key that has none. -/
theorem insertEntry_spec {mem : Grants} (ht : Table h hmd ps) (hs : Stores h ps f)
    (hkey : Hashable key) (hfree : f key = none) (hmem : mem.entry ∧ mem.key) (element : α) :
    ∃ h' hmd', insertEntry mem h hmd key element (hash key hmd.capacity) = .ok (h', hmd', true) ∧
      Table h' hmd' (h.next :: ps) ∧
      Stores h' (h.next :: ps) (Function.update f key (some element)) ∧
      h.Frame h' ps (h.next :: ps) ∧ hmd'.capacity = hmd.capacity ∧
      hmd'.changes = hmd.changes + 1 ∧ hmd'.loadFactor = hmd.loadFactor := by
  obtain ⟨hpos, hlt⟩ := hkey _ ht.capacity
  obtain ⟨first, hfirst, hat⟩ := bucketAt_eq hpos (by rwa [ht.buckets.length])
  have hnew : h.next ∉ ps := ht.live.next_notMem
  have hcells : (h.alloc ⟨first, key, element⟩).cells =
      Function.update h.cells h.next (some ⟨first, key, element⟩) := cells_alloc ..
  have hpair : pairOf (h.alloc ⟨first, key, element⟩) h.next = some (key, element) := by
    rw [pairOf, field_update hcells, Function.update_self]
  have hother : ∀ q ∈ ps, (h.alloc ⟨first, key, element⟩).cells q = h.cells q := fun q hq => by
    rw [hcells, Function.update_of_ne (ne_of_mem_of_not_mem hq hnew)]
  refine ⟨h.alloc ⟨first, key, element⟩, { hmd with
      buckets := hmd.buckets.set (hash key hmd.capacity).toNat (some h.next)
      size := hmd.size + 1
      load := hmd.load + hmd.increment
      changes := hmd.changes + 1 }, by rw [insertEntry, if_pos hmem, hat]; rfl, ?_,
    hs.insert hpair hfree fun q hq => field_congr (hother q hq), alloc_frame h _ ps, rfl, rfl, rfl⟩
  have ht' := ht.congr hother
  exact {
    capacity := ht.capacity
    buckets := ht.buckets.push hnew hpos hfirst (indexOf_eq hpair)
      (by rw [nextOf, field_update hcells, Function.update_self])
      (fun q hq => field_congr (hother q hq)) fun q hq => indexOf_congr (field_congr (hother q hq))
    nodup := List.nodup_cons.mpr ⟨hnew, ht.nodup⟩
    hashable := by
      intro p hp
      rcases List.mem_cons.mp hp with rfl | hp
      · exact ⟨key, element, hpair, hkey⟩
      · exact ht'.hashable p hp
    keys := by
      have hfresh : ∀ q ∈ ps, ∀ w, pairOf (h.alloc ⟨first, key, element⟩) q ≠ some (key, w) := by
        intro q hq w hw
        rw [pairOf, field_congr (hother q hq)] at hw
        have hsome := (hs key w).mpr ⟨q, hq, hw⟩
        rw [hfree] at hsome
        cases hsome
      intro p hp q hq k v w hv hw
      rcases List.mem_cons.mp hp with rfl | hp
      · rw [hpair, Option.some.injEq, Prod.mk.injEq] at hv
        obtain ⟨rfl, -⟩ := hv
        rcases List.mem_cons.mp hq with rfl | hq
        · rfl
        · exact absurd hw (hfresh q hq w)
      · rcases List.mem_cons.mp hq with rfl | hq
        · rw [hpair, Option.some.injEq, Prod.mk.injEq] at hw
          obtain ⟨rfl, -⟩ := hw
          exact absurd hv (hfresh p hp v)
        · exact ht'.keys p hp q hq k v w hv hw
    size := by
      rw [List.length_cons, ht.size]
      push_cast
      rfl
    load := by
      simp only [ht.load, ht.increment, List.length_cons]
      push_cast
      ring
    increment := ht.increment }

/-- `hm_putUnique` adds the key unless it is there or `malloc` fails. -/
theorem hmPutUnique_spec (mem : Grants) (ht : Table h hmd ps) (hs : Stores h ps f)
    (hkey : Hashable key) (element : α) :
    ∃ h' hmd' ps', hmPutUnique mem h hmd key element =
        .ok (h', hmd', decide (f key = none) && mem.entry && mem.key) ∧
      Table h' hmd' ps' ∧
      Stores h' ps' (if f key = none ∧ mem.entry ∧ mem.key then
        Function.update f key (some element) else f) ∧ h.Frame h' ps ps' := by
  obtain ⟨h₁, hmd₁, hcheck, ht₁, hpair₁, hframe₁, -⟩ := checkLoad_spec mem.array ht
  have hs₁ : Stores h₁ ps f := hs.congr (fun _ => Iff.rfl) fun p _ => by rw [hpair₁]
  rcases findKey_cases ht₁ hs₁ (hkey _ ht₁.capacity) with ⟨hf, hfind⟩ | ⟨p, v, hf, -, -, hfind⟩
  · by_cases hmem : mem.entry ∧ mem.key
    · obtain ⟨h₂, hmd₂, hinsert, ht₂, hs₂, hframe₂, -⟩ :=
        insertEntry_spec ht₁ hs₁ hkey hf hmem element
      refine ⟨h₂, hmd₂, h₁.next :: ps, ?_, ht₂, ?_, hframe₁.trans hframe₂⟩
      · rw [hmPutUnique, hcheck, bind_ok]
        simp only [hfind, bind_ok, hinsert, hf, hmem.1, hmem.2, decide_true, Bool.and_self]
      · rwa [if_pos ⟨hf, hmem⟩]
    · refine ⟨h₁, hmd₁, ps, ?_, ht₁, ?_, hframe₁⟩
      · rw [hmPutUnique, hcheck, bind_ok]
        simp only [hfind, bind_ok, insertEntry, if_neg hmem, hf, decide_true, Bool.true_and,
          Except.ok.injEq, Prod.mk.injEq, true_and]
        simpa using hmem
      · rwa [if_neg fun hc => hmem hc.2]
  · refine ⟨h₁, hmd₁, ps, ?_, ht₁, ?_, hframe₁⟩
    · rw [hmPutUnique, hcheck, bind_ok]
      simp [hfind, hf]
    · rwa [if_neg (by simp [hf])]

/-- The element of a key is replaced. -/
theorem replace_spec (ht : Table h hmd ps) (hs : Stores h ps f) (hp : p ∈ ps)
    (hpair : pairOf h p = some (key, v)) (element : α) :
    ∃ h', h.modify p (fun entry => { entry with element := element }) = .ok h' ∧
      Table h' hmd ps ∧ Stores h' ps (Function.update f key (some element)) ∧
      h.Frame h' ps ps := by
  obtain ⟨h', entry, hentry, hmod, hcells, -, hlive, hframe⟩ :=
    modify_frame ht.live hp fun entry => { entry with element := element }
  have hkey : entry.key = key := by
    rw [pairOf, field, hentry, Option.map_some, Option.some.injEq, Prod.mk.injEq] at hpair
    exact hpair.1
  have hnext : nextOf h' = nextOf h := field_update_same hcells hentry rfl
  have hpair' : pairOf h' = Function.update (pairOf h) p (some (key, element)) := by
    rw [pairOf, field_update hcells, hkey]
  have hkeys : ∀ q, (pairOf h' q).map Prod.fst = (pairOf h q).map Prod.fst := by
    intro q
    rw [hpair']
    rcases eq_or_ne q p with rfl | hne
    · rw [Function.update_self, hpair]
      rfl
    · rw [Function.update_of_ne hne]
  have hindex : ∀ q, indexOf h' hmd.capacity q = indexOf h hmd.capacity q := by
    intro q
    have hmap := congrArg (Option.map fun k : Key => hash k hmd.capacity) (hkeys q)
    rwa [Option.map_map, Option.map_map] at hmap
  have hback : ∀ q k w, pairOf h' q = some (k, w) → ∃ w', pairOf h q = some (k, w') := by
    intro q k w hq
    have hfst := hkeys q
    rw [hq, Option.map_some, eq_comm, Option.map_eq_some_iff] at hfst
    obtain ⟨⟨_, w'⟩, hw', rfl⟩ := hfst
    exact ⟨w', hw'⟩
  refine ⟨h', hmod, ?_, fun k w => ?_, hframe⟩
  · exact {
      capacity := ht.capacity
      buckets := ⟨ht.buckets.length, fun i o ho => (ht.buckets.bucket i o ho).congr
        (fun _ => Iff.rfl) (fun q _ _ => by rw [hnext]) fun q _ => hindex q⟩
      nodup := ht.nodup
      hashable := by
        intro q hq
        obtain ⟨k, w, hk, hhash⟩ := ht.hashable q hq
        have hfst := hkeys q
        rw [hk, Option.map_some, Option.map_eq_some_iff] at hfst
        obtain ⟨⟨_, w'⟩, hw', rfl⟩ := hfst
        exact ⟨_, w', hw', hhash⟩
      keys := by
        intro q hq r hr k w₁ w₂ h₁ h₂
        obtain ⟨w₁', h₁'⟩ := hback q k w₁ h₁
        obtain ⟨w₂', h₂'⟩ := hback r k w₂ h₂
        exact ht.keys q hq r hr k w₁' w₂' h₁' h₂'
      size := ht.size
      load := ht.load
      increment := ht.increment }
  · by_cases hk : k = key
    · subst hk
      rw [Function.update_self, Option.some.injEq]
      constructor
      · rintro rfl
        exact ⟨p, hp, by rw [hpair', Function.update_self]⟩
      · rintro ⟨q, hq, hkw⟩
        obtain ⟨w', hw'⟩ := hback q _ w hkw
        obtain rfl := ht.keys q hq p hp _ w' v hw' hpair
        rw [hpair', Function.update_self, Option.some.injEq, Prod.mk.injEq] at hkw
        exact hkw.2
    · rw [Function.update_of_ne hk, hs k w]
      refine exists_congr fun q => and_congr_right fun hq => ?_
      rcases eq_or_ne q p with rfl | hne
      · rw [hpair, hpair', Function.update_self]
        simp [Ne.symm hk]
      · rw [hpair', Function.update_of_ne hne]

/-- `hm_put` sets the element of the key, unless `malloc` fails for a new entry. -/
theorem hmPut_spec (mem : Grants) (ht : Table h hmd ps) (hs : Stores h ps f)
    (hkey : Hashable key) (element : α) {previous : Bool}
    (hprevious : previous = true ∨ f key = none) :
    ∃ h' hmd' ps', hmPut mem h hmd key element previous =
        .ok (h', hmd', (f key).isSome || (mem.entry && mem.key), f key) ∧
      Table h' hmd' ps' ∧
      Stores h' ps' (if (f key).isSome ∨ mem.entry ∧ mem.key then
        Function.update f key (some element) else f) ∧ h.Frame h' ps ps' := by
  obtain ⟨h₁, hmd₁, hcheck, ht₁, hpair₁, hframe₁, -⟩ := checkLoad_spec mem.array ht
  have hs₁ : Stores h₁ ps f := hs.congr (fun _ => Iff.rfl) fun p _ => by rw [hpair₁]
  rcases findKey_cases ht₁ hs₁ (hkey _ ht₁.capacity) with ⟨hf, hfind⟩ | ⟨p, v, hf, hp, hpair, hfind⟩
  · by_cases hmem : mem.entry ∧ mem.key
    · obtain ⟨h₂, hmd₂, hinsert, ht₂, hs₂, hframe₂, -⟩ :=
        insertEntry_spec ht₁ hs₁ hkey hf hmem element
      refine ⟨h₂, hmd₂, h₁.next :: ps, ?_, ht₂, ?_, hframe₁.trans hframe₂⟩
      · rw [hmPut, hcheck, bind_ok]
        cases previous <;> simp [hfind, hinsert, hf, hmem.1, hmem.2]
      · rwa [if_pos (.inr hmem)]
    · refine ⟨h₁, hmd₁, ps, ?_, ht₁, ?_, hframe₁⟩
      · have hfalse : (mem.entry && mem.key) = false := by simpa using hmem
        rw [hmPut, hcheck, bind_ok]
        cases previous <;> simp [hfind, insertEntry, hmem, hf, hfalse]
      · rwa [if_neg (by simp [hf, hmem])]
  · have htrue : previous = true := hprevious.resolve_right (by simp [hf])
    obtain ⟨entry, hread, -, helement⟩ := read_of_pair hpair
    obtain ⟨h₂, hmod, ht₂, hs₂, hframe₂⟩ := replace_spec ht₁ hs₁ hp hpair element
    refine ⟨h₂, hmd₁, ps, ?_, ht₂, ?_, hframe₁.trans hframe₂⟩
    · rw [hmPut, hcheck, bind_ok]
      simp [hfind, htrue, hread, hmod, helement, hf]
    · rwa [if_pos (.inl (by simp [hf]))]

/-! ## Removing entries -/

theorem findPrevious_spec (fuel : ℕ) (previous : Option ℕ)
    (hc : Chain (nextOf h) o (l ++ p :: r)) (hp : p ∉ l) (hfuel : l.length < fuel) :
    findPrevious h p fuel previous o = .ok (l.getLast?.or previous) := by
  induction l generalizing o fuel previous with
  | nil =>
      cases fuel with
      | zero => simp at hfuel
      | succ fuel =>
          obtain ⟨rfl, -⟩ := hc
          rw [findPrevious, if_pos rfl]
          rfl
  | cons q l ih =>
      cases fuel with
      | zero => simp at hfuel
      | succ fuel =>
          obtain ⟨rfl, o', hnext, hrest⟩ := hc
          obtain ⟨entry, hread, rfl⟩ := read_of_field hnext
          have hne : some q ≠ some p := fun heq => hp (by simp [Option.some.inj heq])
          have hstep := ih fuel (some q) hrest (fun hmem => hp (List.mem_cons_of_mem q hmem))
            (by simpa using hfuel)
          rw [findPrevious, if_neg hne, deref_some, bind_ok, hread, bind_ok, hstep,
            List.getLast?_cons]
          cases l.getLast? <;> rfl

/-- A bucket without one of its entries. -/
theorem Buckets.remove (hb : Buckets h N ps array) (hi : i < array.length)
    (hqs : ∀ q, q ∈ l ++ p :: r ↔ q ∈ ps ∧ indexOf h N q = some (i : ℤ))
    (hnd : (l ++ p :: r).Nodup) (hchain : Chain (nextOf h') o (l ++ r))
    (hmem : ∀ q, q ∈ ps' ↔ q ∈ ps ∧ q ≠ p)
    (hnext : ∀ q ∈ ps', indexOf h N q ≠ some (i : ℤ) → nextOf h' q = nextOf h q)
    (hpair : ∀ q ∈ ps', pairOf h' q = pairOf h q) : Buckets h' N ps' (array.set i o) where
  length := by rw [List.length_set, hb.length]
  bucket j o' ho' := by
    rcases eq_or_ne i j with rfl | hij
    · rw [List.getElem?_set_self hi, Option.some.injEq] at ho'
      subst ho'
      have hperm : (l ++ p :: r).Perm (p :: (l ++ r)) := List.perm_middle
      obtain ⟨hp, hlr⟩ := List.nodup_cons.mp (hperm.nodup_iff.mp hnd)
      refine ⟨l ++ r, hchain, hlr, fun q => ?_⟩
      have hq := hqs q
      rw [hperm.mem_iff, List.mem_cons] at hq
      rw [hmem q]
      constructor
      · intro hqlr
        have hne := ne_of_mem_of_not_mem hqlr hp
        obtain ⟨hps, hindex⟩ := hq.mp (.inr hqlr)
        exact ⟨⟨hps, hne⟩, (indexOf_congr (hpair q ((hmem q).mpr ⟨hps, hne⟩))).trans hindex⟩
      · rintro ⟨⟨hps, hne⟩, hindex⟩
        rw [indexOf_congr (hpair q ((hmem q).mpr ⟨hps, hne⟩))] at hindex
        exact (hq.mpr ⟨hps, hindex⟩).resolve_left hne
    · rw [List.getElem?_set_ne hij] at ho'
      obtain ⟨qs, hchain', hnd', hqs'⟩ := hb.bucket j o' ho'
      have hp : p ∉ qs := fun hpqs => by
        have hpi := ((hqs p).mp (by simp)).2
        rw [((hqs' p).mp hpqs).2, Option.some.injEq, Nat.cast_inj] at hpi
        exact hij hpi.symm
      have hps' : ∀ q ∈ qs, q ∈ ps' := fun q hq =>
        (hmem q).mpr ⟨((hqs' q).mp hq).1, ne_of_mem_of_not_mem hq hp⟩
      refine ⟨qs, hchain'.congr fun q hq => hnext q (hps' q hq) ?_, hnd', fun q => ?_⟩
      · rw [((hqs' q).mp hq).2, ne_eq, Option.some.injEq, Nat.cast_inj]
        exact hij.symm
      · constructor
        · intro hq
          exact ⟨hps' q hq, (indexOf_congr (hpair q (hps' q hq))).trans ((hqs' q).mp hq).2⟩
        · rintro ⟨hq, hindex⟩
          rw [indexOf_congr (hpair q hq)] at hindex
          exact (hqs' q).mpr ⟨((hmem q).mp hq).1, hindex⟩

/-- The entry that has been unlinked from its bucket is freed. -/
theorem free_spec {h₁ : Heap (HMEntry α)} (ht : Table h hmd ps) (hs : Stores h ps f)
    (hp : p ∈ ps) (hpk : pairOf h p = some (key, v)) (hi : i < hmd.buckets.length)
    (hqs : ∀ q, q ∈ l ++ p :: r ↔ q ∈ ps ∧ indexOf h hmd.capacity q = some (i : ℤ))
    (hnd : (l ++ p :: r).Nodup) (hframe : h.Frame h₁ ps ps) (hlive : h₁.Live ps)
    (hpair : pairOf h₁ = pairOf h) (hchain : Chain (nextOf h₁) o (l ++ r))
    (hnext : ∀ q, indexOf h hmd.capacity q ≠ some (i : ℤ) → nextOf h₁ q = nextOf h q) :
    ∃ h₂, h₁.free p = .ok h₂ ∧
      Table h₂ { hmd with
        size := hmd.size - 1
        load := hmd.load - hmd.increment
        changes := hmd.changes + 1
        buckets := hmd.buckets.set i o } (ps.erase p) ∧
      Stores h₂ (ps.erase p) (Function.update f key none) ∧ h.Frame h₂ ps (ps.erase p) := by
  have hperm : ps.Perm (p :: ps.erase p) := List.perm_cons_erase hp
  have hpe : p ∉ ps.erase p := ht.nodup.not_mem_erase
  have hmem : ∀ q, q ∈ ps.erase p ↔ q ∈ ps ∧ q ≠ p := fun q => by
    rw [ht.nodup.mem_erase_iff, and_comm]
  obtain ⟨h₂, hfree, hcells, -, hlive₂, hframe₂⟩ :=
    free_frame (hlive.mono fun q hq => hperm.mem_iff.mpr hq) hpe
  have hother : ∀ q, q ≠ p → h₂.cells q = h₁.cells q := fun q hq => by
    rw [hcells, Function.update_of_ne hq]
  have hpair₂ : ∀ q ∈ ps.erase p, pairOf h₂ q = pairOf h q := fun q hq => by
    rw [pairOf, field_congr (hother q ((hmem q).mp hq).2)]
    exact congrFun hpair q
  refine ⟨h₂, hfree, ?_, hs.erase ht hp hpk hmem hpair₂,
    hframe.trans (hframe₂.congr (fun q => hperm.mem_iff) fun q => Iff.rfl)⟩
  have hlen : ps.length = (ps.erase p).length + 1 := hperm.length_eq
  have hchain₂ : Chain (nextOf h₂) o (l ++ r) := hchain.congr fun q hq => by
    refine field_congr (hother q (ne_of_mem_of_not_mem hq ?_))
    exact (List.nodup_cons.mp (List.perm_middle.nodup_iff.mp hnd)).1
  exact {
    capacity := ht.capacity
    buckets := ht.buckets.remove hi hqs hnd hchain₂ hmem
      (fun q hq hindex => (field_congr (hother q ((hmem q).mp hq).2)).trans (hnext q hindex)) hpair₂
    nodup := ht.nodup.erase p
    hashable := fun q hq => by
      rw [hpair₂ q hq]
      exact ht.hashable q ((hmem q).mp hq).1
    keys := fun q hq r hr => by
      rw [hpair₂ q hq, hpair₂ r hr]
      exact ht.keys q ((hmem q).mp hq).1 r ((hmem r).mp hr).1
    size := by
      simp only [ht.size, hlen]
      push_cast
      ring
    load := by
      simp only [ht.load, ht.increment, hlen]
      push_cast
      ring
    increment := ht.increment }

theorem hmRemove_spec (ht : Table h hmd ps) (hs : Stores h ps f) (hkey : Hashable key) :
    ∃ h' hmd' ps', hmRemove h hmd key = .ok (h', hmd', f key) ∧ Table h' hmd' ps' ∧
      Stores h' ps' (Function.update f key none) ∧ h.Frame h' ps ps' ∧
      hmd'.capacity = hmd.capacity ∧ hmd'.loadFactor = hmd.loadFactor ∧
      hmd'.changes = (if f key = none then hmd.changes else hmd.changes + 1) := by
  rcases findKey_cases ht hs (hkey _ ht.capacity) with ⟨hf, hfind⟩ | ⟨p, v, hf, hp, hpair, hfind⟩
  · refine ⟨h, hmd, ps, ?_, ht, ?_, .refl h ps, rfl, rfl, by rw [if_pos hf]⟩
    · rw [hmRemove, hfind, bind_ok, hf]
      rfl
    · rwa [Function.update_eq_self_iff.mpr hf.symm]
  · obtain ⟨hpos, hlt⟩ := hkey _ ht.capacity
    have hlt' : hash key hmd.capacity < hmd.buckets.length := by rwa [ht.buckets.length]
    obtain ⟨first, hfirst, hat⟩ := bucketAt_eq hpos hlt'
    obtain ⟨qs, hchain, hnd, hqs⟩ := ht.buckets.bucket _ _ hfirst
    have hpqs : p ∈ qs := (hqs p).mpr
      ⟨hp, by rw [indexOf_eq hpair, Int.toNat_of_nonneg hpos]⟩
    obtain ⟨l, r, rfl⟩ := List.append_of_mem hpqs
    obtain ⟨o, hnext, hr⟩ := hchain.next_eq
    obtain ⟨entry, hread, rfl⟩ := read_of_field hnext
    have helement : entry.element = v := by
      have hpk : pairOf h p = some (entry.key, entry.element) := field_of_read hread
      rw [hpair, Option.some.injEq, Prod.mk.injEq] at hpk
      exact hpk.2.symm
    have hi : (hash key hmd.capacity).toNat < hmd.buckets.length := by omega
    have hpl : p ∉ l := fun hmem =>
      (List.nodup_cons.mp (List.perm_middle.nodup_iff.mp hnd)).1 (List.mem_append_left r hmem)
    have hllen : l.length < h.next + 1 := by
      have hle := chain_length_le hchain hnd
      rw [List.length_append] at hle
      omega
    have hprev := findPrevious_spec (h.next + 1) none hchain hpl hllen
    have hne : ¬f key = none := by simp [hf]
    rcases l.eq_nil_or_concat' with rfl | ⟨l, q, rfl⟩
    · obtain ⟨h₂, hfree, ht₂, hs₂, hframe₂⟩ := free_spec ht hs hp hpair hi hqs hnd
        (.refl h ps) ht.live rfl hr fun _ _ => rfl
      refine ⟨h₂, _, ps.erase p, ?_, ht₂, hs₂, hframe₂, rfl, rfl, by rw [if_neg hne]⟩
      rw [hmRemove, hfind, bind_ok]
      simp only [hread, bind_ok, hat, hprev, List.getLast?_nil, Option.or_none, hfree,
        pure_eq_ok, helement, hf]
    · have hq : q ∈ ps := ((hqs q).mp (by simp)).1
      have hqi := ((hqs q).mp (by simp)).2
      obtain ⟨h₁, hmod, hlive₁, hframe₁, -, hnext₁, hpair₁⟩ := set_next ht.live hq entry.next
      have hqother : ∀ x ∈ l ++ r, x ≠ q := by
        rw [List.append_assoc, List.singleton_append] at hnd
        have hq' := (List.nodup_cons.mp (List.perm_middle.nodup_iff.mp hnd)).1
        refine fun x hx => ne_of_mem_of_not_mem (List.mem_append.mpr ?_) hq'
        exact (List.mem_append.mp hx).imp_right (List.mem_cons_of_mem p)
      have hchain₁ : Chain (nextOf h₁) first (l ++ [q] ++ r) := by
        have hchain' : Chain (nextOf h) first (l ++ q :: p :: r) := by simpa using hchain
        have hunlinked : Chain (nextOf h₁) first (l ++ q :: r) := hchain'.unlink
          (by rw [hnext₁, Function.update_self, hnext])
          fun x hx => by rw [hnext₁, Function.update_of_ne (hqother x hx)]
        simpa using hunlinked
      have hset : hmd.buckets.set (hash key hmd.capacity).toNat first = hmd.buckets := by
        rw [List.getElem?_eq_getElem hi, Option.some.injEq] at hfirst
        rw [← hfirst, List.set_getElem_self]
      obtain ⟨h₂, hfree, ht₂, hs₂, hframe₂⟩ := free_spec ht hs hp hpair hi hqs hnd hframe₁
        hlive₁ hpair₁ hchain₁ fun x hx => by
          rw [hnext₁, Function.update_of_ne]
          rintro rfl
          exact hx hqi
      rw [hset] at ht₂
      refine ⟨h₂, _, ps.erase p, ?_, ht₂, hs₂, hframe₂, rfl, rfl, by rw [if_neg hne]⟩
      rw [hmRemove, hfind, bind_ok]
      simp only [hread, bind_ok, hat, hprev, List.getLast?_concat, Option.some_or, hmod, hfree,
        pure_eq_ok, helement, hf]

end CliMessaging.Standalone.HashMap
