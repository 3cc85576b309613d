import CliMessaging.Verification.Standalone.HashEntries

/-! # Purging hash maps

`hm_clear` and `hm_destroy` free every entry once and hand every element to the caller's
function once. -/

namespace CliMessaging.Standalone.HashMap

open Linked Heap

variable {α : Type} {h h' : Heap (HMEntry α)} {hmd : HmData} {ps qs : List ℕ} {o : Option ℕ}
  {buckets : List (Option ℕ)} {f : Key → Option α}

theorem purgeChain_spec (fuel : ℕ) (hc : Chain (nextOf h) o qs) (hnd : qs.Nodup)
    (hfuel : qs.length ≤ fuel) :
    ∃ (h' : Heap (HMEntry α)) (es : List (HMEntry α)),
      purgeChain fuel h o = .ok (h', es.map HMEntry.element) ∧
      qs.map h.cells = es.map some ∧ h.Frame h' qs [] := by
  induction qs generalizing h o fuel with
  | nil =>
      obtain rfl : o = none := hc
      refine ⟨h, [], ?_, rfl, .refl h []⟩
      cases fuel <;> rfl
  | cons p qs ih =>
      cases fuel with
      | zero => simp at hfuel
      | succ fuel =>
          have hlive := chain_live hc
          obtain ⟨hp, hnd'⟩ := List.nodup_cons.mp hnd
          obtain ⟨rfl, o', hnext, hqs⟩ := hc
          obtain ⟨entry, hread, rfl⟩ := read_of_field hnext
          obtain ⟨h₁, hfree, hcells₁, -, -, hframe₁⟩ := free_frame hlive hp
          have hother : ∀ q ∈ qs, h₁.cells q = h.cells q := fun q hq => by
            rw [hcells₁, Function.update_of_ne (ne_of_mem_of_not_mem hq hp)]
          obtain ⟨h₂, es, hpurge, hes, hframe₂⟩ := ih fuel
            (hqs.congr fun q hq => field_congr (hother q hq)) hnd' (by simpa using hfuel)
          refine ⟨h₂, entry :: es, ?_, ?_, hframe₁.trans hframe₂⟩
          · rw [purgeChain, hread, bind_ok, hfree, bind_ok, hpurge]
            rfl
          · rw [List.map_cons, List.map_cons, read_eq_ok.mp hread, ← hes,
              List.map_congr_left hother]

theorem purgeChains_spec {css : List (List ℕ)}
    (hc : List.Forall₂ (Chain (nextOf h)) buckets css) (hnd : css.flatten.Nodup) :
    ∃ (h' : Heap (HMEntry α)) (es : List (HMEntry α)),
      purgeChains h buckets = .ok (h', es.map HMEntry.element) ∧
      css.flatten.map h.cells = es.map some ∧ h.Frame h' css.flatten [] := by
  induction css generalizing h buckets with
  | nil =>
      cases hc
      exact ⟨h, [], rfl, rfl, .refl h []⟩
  | cons qs css ih =>
      cases hc with
      | @cons o _ buckets _ hchain hchains =>
          rw [List.flatten_cons] at hnd ⊢
          obtain ⟨hqs, hcss, hqcs⟩ := List.nodup_append'.mp hnd
          obtain ⟨h₁, es, hpurge, hes, hframe₁⟩ :=
            purgeChain_spec h.next hchain hqs (chain_length_le hchain hqs)
          have hother : ∀ p ∈ css.flatten, h₁.cells p = h.cells p := fun p hp =>
            hframe₁.others p (fun hp' => hqcs hp' hp) List.not_mem_nil
          have hchains₁ : List.Forall₂ (Chain (nextOf h₁)) buckets css := by
            refine List.forall₂_iff_zip.mpr ⟨hchains.length_eq, fun {o rs} hmem => ?_⟩
            have hchain' := (List.forall₂_iff_zip.mp hchains).2 hmem
            refine hchain'.congr fun p hp => field_congr (hother p ?_)
            exact List.mem_flatten.mpr ⟨rs, (List.of_mem_zip hmem).2, hp⟩
          obtain ⟨h₂, es', hrest, hes', hframe₂⟩ := ih hchains₁ hcss
          refine ⟨h₂, es ++ es', ?_, ?_, (hframe₁.append css.flatten).trans hframe₂⟩
          · rw [purgeChains, hpurge, bind_ok]
            simp only [hrest, bind_ok, pure_eq_ok, List.map_append]
          · rw [List.map_append, List.map_append, hes, ← hes', List.map_congr_left hother]

/-- The elements are handed over in the order of some listing of the map. -/
theorem purge_spec (ht : Table h hmd ps) (hs : Stores h ps f) :
    ∃ (h' : Heap (HMEntry α)) (pairs : List (Key × α)), purge h hmd = .ok (h', { hmd with
        buckets := List.replicate hmd.capacity none }, pairs.map Prod.snd) ∧
      Lists pairs f ∧ h.Frame h' ps [] := by
  obtain ⟨css, hchains, hnd, hcss⟩ := ht.exists_chains
  obtain ⟨h', es, hpurge, hcells, hframe⟩ := purgeChains_spec hchains hnd
  refine ⟨h', _, ?_, (hs.lists ht hnd hcss hcells).2,
    hframe.congr (fun p => (hcss p).symm) fun _ => Iff.rfl⟩
  rw [purge, hpurge, bind_ok, List.map_const', ht.buckets.length, List.map_map]
  rfl

theorem hmDestroy_spec (ht : Table h hmd ps) (hs : Stores h ps f) :
    ∃ (h' : Heap (HMEntry α)) (pairs : List (Key × α)),
      hmDestroy h hmd = .ok (h', pairs.map Prod.snd) ∧ Lists pairs f ∧
      h.Frame h' ps [] := by
  obtain ⟨h', pairs, hpurge, hrest⟩ := purge_spec ht hs
  exact ⟨h', pairs, by rw [hmDestroy, hpurge]; rfl, hrest⟩

/-! ## Empty tables -/

theorem stores_nil (h : Heap (HMEntry α)) : Stores h [] fun _ => none := by
  simp [Stores]

/-- A table whose buckets are empty. -/
theorem table_nil (h : Heap (HMEntry α)) (hmd : HmData) (hN : TableSize hmd.capacity)
    (hincrement : hmd.increment = 1 / (hmd.capacity : ℚ)) :
    Table h { hmd with
      buckets := List.replicate hmd.capacity none
      size := 0
      load := 0
      changes := 0 } [] where
  capacity := hN
  buckets := buckets_nil h _
  nodup := .nil
  hashable := by simp
  keys := by simp
  size := rfl
  load := by simp
  increment := hincrement

theorem hmClear_spec (ht : Table h hmd ps) (hs : Stores h ps f) :
    ∃ (h' : Heap (HMEntry α)) (hmd' : HmData) (pairs : List (Key × α)),
      hmClear h hmd = .ok (h', hmd', pairs.map Prod.snd) ∧ Lists pairs f ∧
      Table h' hmd' [] ∧ h.Frame h' ps [] ∧ hmd'.capacity = hmd.capacity ∧
      hmd'.changes = 0 ∧ hmd'.loadFactor = hmd.loadFactor := by
  obtain ⟨h', pairs, hpurge, hlists, hframe⟩ := purge_spec ht hs
  exact ⟨h', _, pairs, by rw [hmClear, hpurge]; rfl, hlists,
    table_nil h' hmd ht.capacity ht.increment, hframe, rfl, rfl, rfl⟩

/-- The tables of the server start empty. -/
theorem table_create (h : Heap (HMEntry α)) : Table h serverTable [] :=
  table_nil h serverTable .create rfl

end CliMessaging.Standalone.HashMap
