import CliMessaging.Library.Footprint
import CliMessaging.Library.Linked
import CliMessaging.Model.Standalone.HashMap
import CliMessaging.Verification.Standalone.HashIndex

/-! # Hash maps and their cells

A hash map in memory is a set of entries, spread over the buckets by the index of their
keys. The order within a bucket is left open: `resize` reverses it. -/

namespace CliMessaging.Standalone.HashMap

open Linked Heap

variable {α : Type} {h h' : Heap (HMEntry α)} {hmd : HmData} {N i : ℕ} {p q : ℕ}
  {ps qs done : List ℕ} {o : Option ℕ} {key k : Key} {v : α} {buckets array : List (Option ℕ)}

/-! ## The fields of the entries -/

abbrev nextOf (h : Heap (HMEntry α)) : ℕ → Option (Option ℕ) := h.field HMEntry.next

abbrev pairOf (h : Heap (HMEntry α)) : ℕ → Option (Key × α) :=
  h.field fun entry => (entry.key, entry.element)

/-- The index of the bucket that an entry belongs to. -/
def indexOf (h : Heap (HMEntry α)) (N p : ℕ) : Option ℤ :=
  (pairOf h p).map fun pair => hash pair.1 N

theorem read_of_pair (hp : pairOf h p = some (k, v)) :
    ∃ entry, h.read p = .ok entry ∧ entry.key = k ∧ entry.element = v := by
  obtain ⟨entry, hread, heq⟩ := read_of_field hp
  rw [Prod.mk.injEq] at heq
  exact ⟨entry, hread, heq⟩

theorem indexOf_eq (hp : pairOf h p = some (k, v)) : indexOf h N p = some (hash k N) := by
  rw [indexOf, hp, Option.map_some]

theorem indexOf_congr (hp : pairOf h' p = pairOf h p) : indexOf h' N p = indexOf h N p := by
  rw [indexOf, indexOf, hp]

/-! ## Buckets -/

/-- A key whose index is in range at every size that a table of the server can have. -/
def Hashable (key : Key) : Prop := ∀ N, TableSize N → 0 ≤ hash key N ∧ hash key N < N

/-- The index of the key is that of a bucket. -/
def HmData.HasBucket (hmd : HmData) (key : Key) : Prop :=
  0 ≤ hash key hmd.capacity ∧ hash key hmd.capacity < hmd.capacity

theorem hashable_of_ascii (hkey : ∀ b ∈ key, b.toNat < 128) : Hashable key :=
  fun _ hN => hash_mem_range_of_ascii hN.pos hkey

/-- The pointer `o` leads to those of the entries `ps` that have the index `i`. -/
def Bucket (h : Heap (HMEntry α)) (N : ℕ) (ps : List ℕ) (i : ℕ) (o : Option ℕ) : Prop :=
  ∃ qs, Chain (nextOf h) o qs ∧ qs.Nodup ∧ ∀ p, p ∈ qs ↔ p ∈ ps ∧ indexOf h N p = some (i : ℤ)

/-- The entries `ps` hang in the array by their indices. -/
structure Buckets (h : Heap (HMEntry α)) (N : ℕ) (ps : List ℕ) (array : List (Option ℕ)) :
    Prop where
  length : array.length = N
  bucket : ∀ i o, array[i]? = some o → Bucket h N ps i o

theorem Bucket.congr {qs : List ℕ} (hb : Bucket h N ps i o) (hmem : ∀ p, p ∈ qs ↔ p ∈ ps)
    (hnext : ∀ p ∈ ps, indexOf h N p = some (i : ℤ) → nextOf h' p = nextOf h p)
    (hindex : ∀ p ∈ ps, indexOf h' N p = indexOf h N p) : Bucket h' N qs i o := by
  obtain ⟨rs, hchain, hnd, hrs⟩ := hb
  refine ⟨rs, hchain.congr fun p hp => ?_, hnd, fun p => ?_⟩
  · obtain ⟨hps, hi⟩ := (hrs p).mp hp
    exact hnext p hps hi
  · rw [hrs p, hmem p]
    constructor
    · rintro ⟨hp, hi⟩
      exact ⟨hp, (hindex p hp).trans hi⟩
    · rintro ⟨hp, hi⟩
      exact ⟨hp, (hindex p hp).symm.trans hi⟩

theorem bucketAt_eq {j : ℤ} (hj : 0 ≤ j) (hlt : j < array.length) :
    ∃ o, array[j.toNat]? = some o ∧ bucketAt array j = .ok o := by
  have hn : j.toNat < array.length := by omega
  refine ⟨array[j.toNat], List.getElem?_eq_getElem hn, ?_⟩
  rw [bucketAt, if_pos hj, List.getElem?_eq_getElem hn]

theorem buckets_nil (h : Heap (HMEntry α)) (N : ℕ) : Buckets h N [] (List.replicate N none) where
  length := List.length_replicate
  bucket i o hi := by
    obtain rfl := List.eq_of_mem_replicate (List.mem_of_getElem? hi)
    exact ⟨[], rfl, .nil, by simp⟩

/-- An entry goes to the front of its bucket. -/
theorem Buckets.push (hb : Buckets h N ps array) (hp : p ∉ ps) {j : ℤ}
    (hj : 0 ≤ j) (ho : array[j.toNat]? = some o) (hindex : indexOf h' N p = some j)
    (hnext : nextOf h' p = some o) (hsame : ∀ q ∈ ps, nextOf h' q = nextOf h q)
    (hpair : ∀ q ∈ ps, indexOf h' N q = indexOf h N q) :
    Buckets h' N (p :: ps) (array.set j.toNat (some p)) where
  length := by rw [List.length_set, hb.length]
  bucket i o' ho' := by
    have hcast : (j.toNat : ℤ) = j := Int.toNat_of_nonneg hj
    by_cases hij : j.toNat = i
    · subst hij
      rw [List.getElem?_set_self (List.getElem?_eq_some_iff.mp ho).1, Option.some.injEq] at ho'
      subst ho'
      obtain ⟨qs, hchain, hnd, hqs⟩ := hb.bucket _ _ ho
      have hpqs : p ∉ qs := fun hmem => hp ((hqs p).mp hmem).1
      refine ⟨p :: qs, hchain.cons hnext fun q hq => hsame q ((hqs q).mp hq).1,
        List.nodup_cons.mpr ⟨hpqs, hnd⟩, fun q => ?_⟩
      rw [List.mem_cons, List.mem_cons, hqs q]
      constructor
      · rintro (rfl | ⟨hq, hi⟩)
        · exact ⟨.inl rfl, by rw [hindex, hcast]⟩
        · exact ⟨.inr hq, (hpair q hq).trans hi⟩
      · rintro ⟨rfl | hq, hi⟩
        · exact .inl rfl
        · exact .inr ⟨hq, (hpair q hq).symm.trans hi⟩
    · rw [List.getElem?_set_ne hij] at ho'
      obtain ⟨qs, hchain, hnd, hqs⟩ := hb.bucket _ _ ho'
      refine ⟨qs, hchain.congr fun q hq => hsame q ((hqs q).mp hq).1, hnd, fun q => ?_⟩
      rw [List.mem_cons, hqs q]
      constructor
      · rintro ⟨hq, hi⟩
        exact ⟨.inr hq, (hpair q hq).trans hi⟩
      · rintro ⟨rfl | hq, hi⟩
        · rw [hindex, Option.some.injEq] at hi
          omega
        · exact ⟨hq, (hpair q hq).symm.trans hi⟩

/-- The chains of the buckets from the index `n` on, one by one. -/
theorem exists_chains_from {n : ℕ}
    (hb : ∀ i o, buckets[i]? = some o → Bucket h N ps (n + i) o) :
    ∃ css : List (List ℕ), List.Forall₂ (Chain (nextOf h)) buckets css ∧ css.flatten.Nodup ∧
      ∀ p, p ∈ css.flatten ↔
        p ∈ ps ∧ ∃ i, i < buckets.length ∧ indexOf h N p = some ((n + i : ℕ) : ℤ) := by
  induction buckets generalizing n with
  | nil => exact ⟨[], .nil, List.nodup_nil, by simp⟩
  | cons o buckets ih =>
      obtain ⟨qs, hchain, hnd, hqs⟩ := hb 0 o rfl
      obtain ⟨css, hchains, hnds, hcss⟩ := ih (n := n + 1) fun i o' ho' => by
        have hnext := hb (i + 1) o' (by simpa using ho')
        rwa [show n + (i + 1) = n + 1 + i by omega] at hnext
      refine ⟨qs :: css, .cons hchain hchains, ?_, fun p => ?_⟩
      · rw [List.flatten_cons, List.nodup_append']
        refine ⟨hnd, hnds, fun p hp hp' => ?_⟩
        obtain ⟨-, hi⟩ := (hqs p).mp hp
        obtain ⟨-, i, -, hi'⟩ := (hcss p).mp hp'
        rw [hi, Option.some.injEq, Nat.cast_inj] at hi'
        omega
      · rw [List.flatten_cons, List.mem_append, hqs p, hcss p, ← and_or_left]
        refine and_congr_right fun _ => ?_
        constructor
        · rintro (hi | ⟨i, hlt, hi⟩)
          · exact ⟨0, by simp, hi⟩
          · exact ⟨i + 1, by simpa using hlt, by rw [hi]; congr 2; omega⟩
        · rintro ⟨_ | i, hlt, hi⟩
          · exact .inl hi
          · exact .inr ⟨i, by simpa using hlt, by rw [hi]; congr 2; omega⟩

/-- The entries, bucket by bucket. -/
theorem Buckets.exists_chains (hb : Buckets h N ps array)
    (hrange : ∀ p ∈ ps, ∃ j : ℤ, indexOf h N p = some j ∧ 0 ≤ j ∧ j < N) :
    ∃ css : List (List ℕ), List.Forall₂ (Chain (nextOf h)) array css ∧ css.flatten.Nodup ∧
      ∀ p, p ∈ css.flatten ↔ p ∈ ps := by
  obtain ⟨css, hchains, hnd, hcss⟩ := exists_chains_from (n := 0) fun i o ho => by
    rw [Nat.zero_add]
    exact hb.bucket i o ho
  refine ⟨css, hchains, hnd, fun p => (hcss p).trans (and_iff_left_of_imp fun hp => ?_)⟩
  obtain ⟨j, hindex, hpos, hlt⟩ := hrange p hp
  refine ⟨j.toNat, by rw [hb.length]; omega, ?_⟩
  rw [hindex, Nat.zero_add, Int.toNat_of_nonneg hpos]

/-! ## Walking a chain -/

theorem chain_live (hc : Chain (nextOf h) o qs) : h.Live qs := by
  induction qs generalizing o with
  | nil => simp [Live]
  | cons p qs ih =>
      obtain ⟨-, o', hp, hqs⟩ := hc
      obtain ⟨entry, hentry, -⟩ := cells_of_field hp
      intro q hq
      rcases List.mem_cons.mp hq with rfl | hq
      · exact ⟨entry, hentry⟩
      · exact ih hqs q hq

theorem chain_length_le (hc : Chain (nextOf h) o qs) (hnd : qs.Nodup) : qs.length ≤ h.next :=
  (chain_live hc).length_le hnd

/-- The entry that `strcmp` finds. -/
def hasKey (h : Heap (HMEntry α)) (key : Key) (p : ℕ) : Bool :=
  (pairOf h p).any fun pair => pair.1 = key

theorem seek_spec (key : Key) (fuel : ℕ) (hc : Chain (nextOf h) o qs) (hfuel : qs.length ≤ fuel) :
    seek h key fuel o = .ok (qs.find? (hasKey h key)) := by
  induction qs generalizing o fuel with
  | nil =>
      obtain rfl : o = none := hc
      cases fuel <;> rfl
  | cons p qs ih =>
      cases fuel with
      | zero => simp at hfuel
      | succ fuel =>
          obtain ⟨rfl, o', hnext, hqs⟩ := hc
          obtain ⟨entry, hread, rfl⟩ := read_of_field hnext
          have hkey : hasKey h key p = decide (entry.key = key) := by
            rw [hasKey, pairOf, field_of_read hread, Option.any_some]
          rw [seek, hread, bind_ok, List.find?_cons, hkey]
          by_cases heq : entry.key = key
          · simp [heq]
          · simp [heq, ih fuel hqs (by simpa using hfuel)]

theorem chainFrom_spec (fuel : ℕ) (hc : Chain (nextOf h) o qs) (hfuel : qs.length ≤ fuel) :
    ∃ es, chainFrom h fuel o = .ok es ∧ qs.map h.cells = es.map some := by
  induction qs generalizing o fuel with
  | nil =>
      obtain rfl : o = none := hc
      cases fuel <;> exact ⟨[], rfl, rfl⟩
  | cons p qs ih =>
      cases fuel with
      | zero => simp at hfuel
      | succ fuel =>
          obtain ⟨rfl, o', hnext, hqs⟩ := hc
          obtain ⟨entry, hread, rfl⟩ := read_of_field hnext
          obtain ⟨es, hes, hcells⟩ := ih fuel hqs (by simpa using hfuel)
          refine ⟨entry :: es, by rw [chainFrom, hread, bind_ok, hes]; rfl, ?_⟩
          rw [List.map_cons, List.map_cons, hcells, read_eq_ok.mp hread]

theorem chains_spec {css : List (List ℕ)} (hc : List.Forall₂ (Chain (nextOf h)) buckets css)
    (hnd : css.flatten.Nodup) :
    ∃ es, chains h buckets = .ok es ∧ css.flatten.map h.cells = es.map some := by
  induction hc with
  | nil => exact ⟨[], rfl, rfl⟩
  | @cons o qs buckets css hchain _ ih =>
      rw [List.flatten_cons, List.nodup_append'] at hnd
      obtain ⟨es, hes, hcells⟩ := chainFrom_spec h.next hchain (chain_length_le hchain hnd.1)
      obtain ⟨rest, hrest, hcells'⟩ := ih hnd.2.1
      refine ⟨es ++ rest, by rw [chains, hes, bind_ok, hrest]; rfl, ?_⟩
      rw [List.flatten_cons, List.map_append, hcells, hcells', List.map_append]

end CliMessaging.Standalone.HashMap
