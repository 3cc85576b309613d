import CliMessaging.Verification.Standalone.HashCells
import Mathlib.Algebra.Order.Field.Rat
import Mathlib.Tactic.FieldSimp
import Mathlib.Tactic.Ring

/-! # Tables and their resizing

A table keeps its entries in their buckets, one entry for a key, and its load is the number
of entries over the number of buckets. Resizing moves every entry and keeps all of this. -/

namespace CliMessaging.Standalone.HashMap

open Linked Heap

variable {α : Type} {h h' : Heap (HMEntry α)} {hmd hmd' : HmData} {N i : ℕ} {p q : ℕ}
  {ps qs done : List ℕ} {o : Option ℕ} {key k : Key} {v : α} {buckets array : List (Option ℕ)}

/-! ## Moving entries -/

theorem Buckets.congr (hb : Buckets h N ps array) (hmem : ∀ p, p ∈ qs ↔ p ∈ ps)
    (hnext : ∀ p ∈ ps, nextOf h' p = nextOf h p)
    (hpair : ∀ p ∈ ps, pairOf h' p = pairOf h p) : Buckets h' N qs array where
  length := hb.length
  bucket i o ho := (hb.bucket i o ho).congr hmem (fun p hp _ => hnext p hp)
    fun p hp => indexOf_congr (hpair p hp)

/-- The index of an entry is in range. -/
def InRange (h : Heap (HMEntry α)) (N p : ℕ) : Prop :=
  ∃ j : ℤ, indexOf h N p = some j ∧ 0 ≤ j ∧ j < N

/-- The assignment `p->next = o` -/
theorem set_next (hl : h.Live ps) (hp : p ∈ ps) (o : Option ℕ) :
    ∃ h', h.modify p (fun entry => { entry with next := o }) = .ok h' ∧ h'.Live ps ∧
      h.Frame h' ps ps ∧ h'.next = h.next ∧
      nextOf h' = Function.update (nextOf h) p (some o) ∧ pairOf h' = pairOf h := by
  obtain ⟨h', entry, hentry, hmod, hcells, hnext, hlive, hframe⟩ :=
    modify_frame hl hp fun entry => { entry with next := o }
  exact ⟨h', hmod, hlive, hframe, hnext, field_update hcells,
    field_update_same hcells hentry rfl⟩

theorem moveChain_spec (fuel : ℕ) (hc : Chain (nextOf h) o qs) (hnd : qs.Nodup)
    (hdisj : qs.Disjoint done) (hb : Buckets h N done array)
    (hrange : ∀ p ∈ qs, InRange h N p) (hl : h.Live ps) (hsub : qs ⊆ ps)
    (hfuel : qs.length ≤ fuel) :
    ∃ h' array', moveChain N fuel h array o = .ok (h', array') ∧
      Buckets h' N (qs ++ done) array' ∧ pairOf h' = pairOf h ∧
      (∀ p, p ∉ qs → nextOf h' p = nextOf h p) ∧ h'.Live ps ∧ h.Frame h' ps ps := by
  induction qs generalizing h o done array fuel with
  | nil =>
      obtain rfl : o = none := hc
      refine ⟨h, array, ?_, hb, rfl, fun _ _ => rfl, hl, .refl h ps⟩
      cases fuel <;> rfl
  | cons p qs ih =>
      cases fuel with
      | zero => simp at hfuel
      | succ fuel =>
          obtain ⟨rfl, o', hnext, hqs⟩ := hc
          obtain ⟨hp, hnd'⟩ := List.nodup_cons.mp hnd
          obtain ⟨hpdone, hdisj'⟩ := List.disjoint_cons_left.mp hdisj
          obtain ⟨j, hindex, hpos, hlt⟩ := hrange p List.mem_cons_self
          obtain ⟨entry, hread, rfl⟩ := read_of_field hnext
          have hj : hash entry.key N = j := by
            have hpair : pairOf h p = some (entry.key, entry.element) := field_of_read hread
            rw [indexOf_eq hpair, Option.some.injEq] at hindex
            exact hindex
          obtain ⟨first, hfirst, hat⟩ := bucketAt_eq hpos (by rwa [hb.length])
          obtain ⟨h₁, hmod, hlive₁, hframe₁, -, hnext₁, hpair₁⟩ :=
            set_next hl (hsub List.mem_cons_self) first
          have hother : ∀ q, q ≠ p → nextOf h₁ q = nextOf h q := fun q hq => by
            rw [hnext₁, Function.update_of_ne hq]
          have hindex₁ : ∀ q, indexOf h₁ N q = indexOf h N q :=
            fun q => indexOf_congr (by rw [hpair₁])
          have hb₁ : Buckets h₁ N (p :: done) (array.set j.toNat (some p)) :=
            hb.push hpdone hpos hfirst ((hindex₁ p).trans hindex)
              (by rw [hnext₁, Function.update_self])
              (fun q hq => hother q (ne_of_mem_of_not_mem hq hpdone)) fun q _ => hindex₁ q
          obtain ⟨h₂, array₂, hrest, hb₂, hpair₂, hnext₂, hlive₂, hframe₂⟩ := ih fuel
            (hqs.congr fun q hq => hother q (ne_of_mem_of_not_mem hq hp)) hnd'
            (List.disjoint_cons_right.mpr ⟨hp, hdisj'⟩) hb₁
            (fun q hq => by
              obtain ⟨j', hj', hin⟩ := hrange q (List.mem_cons_of_mem p hq)
              exact ⟨j', (hindex₁ q).trans hj', hin⟩)
            hlive₁ (fun q hq => hsub (List.mem_cons_of_mem p hq)) (by simpa using hfuel)
          refine ⟨h₂, array₂, ?_, hb₂.congr (fun q => ?_) (fun _ _ => rfl) (fun _ _ => rfl),
            hpair₂.trans hpair₁, fun q hq => ?_, hlive₂, hframe₁.trans hframe₂⟩
          · rw [moveChain, hread, bind_ok, hj]
            simp only [hat, bind_ok, hmod, hrest]
          · simp only [List.cons_append, List.mem_cons, List.mem_append]
            tauto
          · rw [List.mem_cons, not_or] at hq
            rw [hnext₂ q hq.2, hother q hq.1]

theorem moveChains_spec {css : List (List ℕ)}
    (hc : List.Forall₂ (Chain (nextOf h)) buckets css) (hnd : css.flatten.Nodup)
    (hdisj : css.flatten.Disjoint done) (hb : Buckets h N done array)
    (hrange : ∀ p ∈ css.flatten, InRange h N p) (hl : h.Live ps) (hsub : css.flatten ⊆ ps) :
    ∃ h' array', moveChains N h array buckets = .ok (h', array') ∧
      Buckets h' N (css.flatten ++ done) array' ∧ pairOf h' = pairOf h ∧ h'.Live ps ∧
      h.Frame h' ps ps := by
  induction css generalizing h buckets done array with
  | nil =>
      cases hc
      exact ⟨h, array, rfl, hb, rfl, hl, .refl h ps⟩
  | cons qs css ih =>
      cases hc with
      | @cons o _ buckets _ hchain hchains =>
          rw [List.flatten_cons] at hnd hdisj hrange hsub
          obtain ⟨hqs, hcss, hqcs⟩ := List.nodup_append'.mp hnd
          obtain ⟨hqdone, hcdone⟩ := List.disjoint_append_left.mp hdisj
          obtain ⟨h₁, array₁, hmove, hb₁, hpair₁, hnext₁, hlive₁, hframe₁⟩ :=
            moveChain_spec h.next hchain hqs hqdone hb
              (fun p hp => hrange p (List.mem_append_left _ hp)) hl
              (fun p hp => hsub (List.mem_append_left _ hp)) (chain_length_le hchain hqs)
          have hchains₁ : List.Forall₂ (Chain (nextOf h₁)) buckets css := by
            refine List.forall₂_iff_zip.mpr ⟨hchains.length_eq, fun {o rs} hmem => ?_⟩
            have hchain' := (List.forall₂_iff_zip.mp hchains).2 hmem
            refine hchain'.congr fun p hp => hnext₁ p fun hp' => ?_
            exact hqcs hp' (List.mem_flatten.mpr ⟨rs, (List.of_mem_zip hmem).2, hp⟩)
          obtain ⟨h₂, array₂, hrest, hb₂, hpair₂, hlive₂, hframe₂⟩ := ih hchains₁ hcss
            (List.disjoint_append_right.mpr ⟨fun p hp hp' => hqcs hp' hp, hcdone⟩) hb₁
            (fun p hp => by
              obtain ⟨j, hj, hin⟩ := hrange p (List.mem_append_right _ hp)
              exact ⟨j, (indexOf_congr (by rw [hpair₁])).trans hj, hin⟩)
            hlive₁ (fun p hp => hsub (List.mem_append_right _ hp))
          refine ⟨h₂, array₂, ?_, hb₂.congr (fun q => ?_) (fun _ _ => rfl) (fun _ _ => rfl),
            hpair₂.trans hpair₁, hlive₂, hframe₁.trans hframe₂⟩
          · rw [moveChains, hmove, bind_ok]
            exact hrest
          · simp only [List.flatten_cons, List.mem_append]
            tauto

/-! ## Tables -/

/-- The entries `ps` are a table. -/
structure Table (h : Heap (HMEntry α)) (hmd : HmData) (ps : List ℕ) : Prop where
  capacity : TableSize hmd.capacity
  buckets : Buckets h hmd.capacity ps hmd.buckets
  nodup : ps.Nodup
  hashable : ∀ p ∈ ps, ∃ k v, pairOf h p = some (k, v) ∧ Hashable k
  keys : ∀ p ∈ ps, ∀ q ∈ ps, ∀ k v w,
    pairOf h p = some (k, v) → pairOf h q = some (k, w) → p = q
  size : hmd.size = ps.length
  load : hmd.load = (ps.length : ℚ) / hmd.capacity
  increment : hmd.increment = 1 / (hmd.capacity : ℚ)

namespace Table

theorem live (ht : Table h hmd ps) : h.Live ps := by
  intro p hp
  obtain ⟨k, v, hpair, -⟩ := ht.hashable p hp
  obtain ⟨entry, hentry, -⟩ := cells_of_field hpair
  exact ⟨entry, hentry⟩

theorem inRange (ht : Table h hmd ps) (hN : TableSize N) (hp : p ∈ ps) : InRange h N p := by
  obtain ⟨k, v, hpair, hk⟩ := ht.hashable p hp
  exact ⟨hash k N, indexOf_eq hpair, hk N hN⟩

theorem exists_chains (ht : Table h hmd ps) :
    ∃ css : List (List ℕ), List.Forall₂ (Chain (nextOf h)) hmd.buckets css ∧
      css.flatten.Nodup ∧ ∀ p, p ∈ css.flatten ↔ p ∈ ps :=
  ht.buckets.exists_chains fun _ hp => ht.inRange ht.capacity hp

/-- A table depends on its own entries only. -/
theorem congr (ht : Table h hmd ps) (hcells : ∀ p ∈ ps, h'.cells p = h.cells p) :
    Table h' hmd ps where
  capacity := ht.capacity
  buckets := ht.buckets.congr (fun _ => Iff.rfl) (fun p hp => field_congr (hcells p hp))
    fun p hp => field_congr (hcells p hp)
  nodup := ht.nodup
  hashable p hp := by
    rw [pairOf, field_congr (hcells p hp)]
    exact ht.hashable p hp
  keys p hp q hq := by
    rw [pairOf, field_congr (hcells p hp), field_congr (hcells q hq)]
    exact ht.keys p hp q hq
  size := ht.size
  load := ht.load
  increment := ht.increment

end Table

/-- Short of the largest capacity the number of buckets doubles. -/
theorem resize_capacity (hN : TableSize N) (hne : Standalone.resize N ≠ N) :
    Standalone.resize N = 2 * N := by
  rw [Standalone.resize] at hne ⊢
  split at hne
  · rename_i hlt
    obtain ⟨k, hk, rfl⟩ := tableSize_iff.mp hN
    rcases hk.lt_or_eq with hk | rfl
    · have hpow : 2 ^ k ≤ 2 ^ 21 := Nat.pow_le_pow_right (by decide) (by omega)
      rw [maxCapacity] at hlt
      omega
    · exact absurd rfl hne
  · rename_i hle
    rw [if_neg hle]

theorem resize_ne_self (hN : TableSize N) (hlt : N < maxCapacity) : Standalone.resize N ≠ N := by
  have hpos := hN.pos
  rw [Standalone.resize]
  split <;> omega

/-- The entries stay, in the buckets of the new array. -/
theorem resize_spec (granted : Bool) (ht : Table h hmd ps) :
    ∃ h' hmd', resize granted h hmd = .ok (h', hmd') ∧ Table h' hmd' ps ∧
      pairOf h' = pairOf h ∧ h.Frame h' ps ps ∧
      hmd'.capacity = (if granted then Standalone.resize hmd.capacity else hmd.capacity) ∧
      (hmd.changes = 0 → hmd'.changes = 0) ∧ hmd'.loadFactor = hmd.loadFactor := by
  by_cases hN : Standalone.resize hmd.capacity = hmd.capacity
  · refine ⟨h, hmd, ?_, ht, rfl, .refl h ps, ?_, id, rfl⟩
    · simp only [resize, if_pos hN]
    · rw [hN, ite_self]
  · cases granted with
    | false => exact ⟨h, hmd, by simp [resize, hN], ht, rfl, .refl h ps, rfl, id, rfl⟩
    | true =>
        have hsize : TableSize (Standalone.resize hmd.capacity) := ht.capacity.resize
        obtain ⟨css, hchains, hnd, hcss⟩ := ht.exists_chains
        obtain ⟨h', array, hmove, hb, hpair, hlive, hframe⟩ := moveChains_spec hchains hnd
          (List.disjoint_nil_right _) (buckets_nil h (Standalone.resize hmd.capacity))
          (fun p hp => ht.inRange hsize ((hcss p).mp hp)) ht.live fun p hp => (hcss p).mp hp
        refine ⟨h', { hmd with
          buckets := array
          capacity := Standalone.resize hmd.capacity
          load := hmd.load / 2
          changes := 0
          increment := 1 / (Standalone.resize hmd.capacity : ℕ) }, ?_, ?_, hpair, hframe, rfl,
          fun _ => rfl, rfl⟩
        · simp only [resize, if_neg hN, hmove]
          rfl
        exact {
          capacity := hsize
          buckets := hb.congr (fun p => by simp [hcss p]) (fun _ _ => rfl) fun _ _ => rfl
          nodup := ht.nodup
          hashable := by simpa only [hpair] using ht.hashable
          keys := by simpa only [hpair] using ht.keys
          size := ht.size
          load := by
            have hpos : (hmd.capacity : ℚ) ≠ 0 := Nat.cast_ne_zero.mpr ht.capacity.pos.ne'
            simp only [ht.load, resize_capacity ht.capacity hN]
            push_cast
            field_simp
          increment := rfl }

/-- The check before an entry is added. -/
theorem checkLoad_spec (granted : Bool) (ht : Table h hmd ps) :
    ∃ h' hmd', checkLoad granted h hmd = .ok (h', hmd') ∧ Table h' hmd' ps ∧
      pairOf h' = pairOf h ∧ h.Frame h' ps ps ∧
      hmd'.changes = (if hmd.changes > trigger then 0 else hmd.changes) ∧
      hmd'.capacity = (if hmd.changes > trigger ∧ hmd.load > hmd.loadFactor ∧ granted then
        Standalone.resize hmd.capacity else hmd.capacity) ∧
      hmd'.loadFactor = hmd.loadFactor := by
  by_cases hchanges : hmd.changes > trigger
  · have ht₀ : Table h { hmd with changes := 0 } ps :=
      ⟨ht.capacity, ht.buckets, ht.nodup, ht.hashable, ht.keys, ht.size, ht.load, ht.increment⟩
    by_cases hload : hmd.load > hmd.loadFactor
    · obtain ⟨h', hmd', hresize, ht', hpair, hframe, hcap, hzero, hfactor⟩ :=
        resize_spec granted ht₀
      refine ⟨h', hmd', ?_, ht', hpair, hframe, ?_, ?_, hfactor⟩
      · rw [checkLoad, if_pos hchanges, if_pos hload, hresize]
      · rw [if_pos hchanges, hzero rfl]
      · rw [hcap]
        simp [hchanges, hload]
    · refine ⟨h, { hmd with changes := 0 }, ?_, ht₀, rfl, .refl h ps, ?_, ?_, rfl⟩
      · rw [checkLoad, if_pos hchanges, if_neg hload]
      · rw [if_pos hchanges]
      · rw [if_neg fun hc => hload hc.2.1]
  · refine ⟨h, hmd, ?_, ht, rfl, .refl h ps, ?_, ?_, rfl⟩
    · rw [checkLoad, if_neg hchanges]
    · rw [if_neg hchanges]
    · rw [if_neg fun hc => hchanges hc.1]

end CliMessaging.Standalone.HashMap
