import CliMessaging.Library.Heap
import Mathlib.Data.List.Nodup
import Mathlib.Data.List.Perm.Subperm
import Mathlib.Order.Nat

/-! # Footprints

The footprint of a data structure is the list of its cells. A frame says that an operation
changes no other cell, that the cells it adds are new, and that the cells it gives up are
freed. -/

namespace CliMessaging.Heap

variable {α β : Type} {h h' h'' : Heap α} {old new newer ps : List ℕ} {p : ℕ} {f : α → β}

/-! ## Fields -/

/-- A field of the object behind a pointer. -/
def field (f : α → β) (h : Heap α) (p : ℕ) : Option β := (h.cells p).map f

theorem cells_of_field {b : β} (hp : h.field f p = some b) : ∃ a, h.cells p = some a ∧ f a = b :=
  Option.map_eq_some_iff.mp hp

theorem read_of_field {b : β} (hp : h.field f p = some b) : ∃ a, h.read p = .ok a ∧ f a = b := by
  obtain ⟨a, ha, hb⟩ := cells_of_field hp
  exact ⟨a, read_eq_ok.mpr ha, hb⟩

theorem field_of_read {a : α} (hp : h.read p = .ok a) : h.field f p = some (f a) := by
  rw [field, read_eq_ok.mp hp, Option.map_some]

theorem field_congr (hp : h'.cells p = h.cells p) : h'.field f p = h.field f p := by
  rw [field, field, hp]

theorem field_update {a : α} (hcells : h'.cells = Function.update h.cells p (some a)) :
    h'.field f = Function.update (h.field f) p (some (f a)) := by
  funext q
  rw [field, hcells]
  rcases eq_or_ne q p with rfl | hne
  · simp
  · simp [hne, field]

/-- A write that leaves the field as it was. -/
theorem field_update_same {a b : α} (hcells : h'.cells = Function.update h.cells p (some b))
    (hp : h.cells p = some a) (hf : f b = f a) : h'.field f = h.field f := by
  rw [field_update hcells, hf]
  funext q
  rcases eq_or_ne q p with rfl | hne
  · simp [field, hp]
  · simp [hne]

/-! ## Frames -/

/-- The operation that turns `h` into `h'` turns the footprint `old` into `new`. -/
structure Frame (h h' : Heap α) (old new : List ℕ) : Prop where
  others : ∀ q, q ∉ old → q ∉ new → h'.cells q = h.cells q
  added : ∀ q ∈ new, q ∈ old ∨ h.next ≤ q
  gone : ∀ q ∈ old, q ∉ new → h'.cells q = none
  next_le : h.next ≤ h'.next

theorem Frame.refl (h : Heap α) (ps : List ℕ) : h.Frame h ps ps where
  others _ _ _ := rfl
  added _ hq := .inl hq
  gone _ hq hq' := absurd hq hq'
  next_le := Nat.le_refl _

theorem Frame.trans (h₁ : h.Frame h' old new) (h₂ : h'.Frame h'' new newer) :
    h.Frame h'' old newer where
  others q hold hnewer := by
    by_cases hnew : q ∈ new
    · rw [h₂.gone q hnew hnewer, h.fresh q ((h₁.added q hnew).resolve_left hold)]
    · rw [h₂.others q hnew hnewer, h₁.others q hold hnew]
  added q hq := by
    rcases h₂.added q hq with hnew | hle
    · exact h₁.added q hnew
    · exact .inr (h₁.next_le.trans hle)
  gone q hold hnewer := by
    by_cases hnew : q ∈ new
    · exact h₂.gone q hnew hnewer
    · rw [h₂.others q hnew hnewer, h₁.gone q hold hnew]
  next_le := h₁.next_le.trans h₂.next_le

/-- A footprint is a set. -/
theorem Frame.congr {old' new' : List ℕ} (hf : h.Frame h' old new)
    (hold : ∀ q, q ∈ old' ↔ q ∈ old) (hnew : ∀ q, q ∈ new' ↔ q ∈ new) :
    h.Frame h' old' new' where
  others q hq hq' := hf.others q (mt (hold q).mpr hq) (mt (hnew q).mpr hq')
  added q hq := (hf.added q ((hnew q).mp hq)).imp_left (hold q).mpr
  gone q hq hq' := hf.gone q ((hold q).mp hq) (mt (hnew q).mpr hq')
  next_le := hf.next_le

/-- A structure may own more cells than the operation uses. -/
theorem Frame.append (hf : h.Frame h' old new) (ps : List ℕ) :
    h.Frame h' (old ++ ps) (new ++ ps) where
  others q hq hq' := by
    simp only [List.mem_append, not_or] at hq hq'
    exact hf.others q hq.1 hq'.1
  added q hq := by
    rw [List.mem_append] at hq ⊢
    rcases hq with hq | hq
    · exact (hf.added q hq).imp_left .inl
    · exact .inl (.inr hq)
  gone q hq hq' := by
    simp only [List.mem_append, not_or] at hq hq'
    exact hf.gone q (hq.resolve_right hq'.2) hq'.1
  next_le := hf.next_le

theorem Live.lt_next (hl : h.Live ps) (hp : p ∈ ps) : p < h.next := by
  obtain ⟨a, ha⟩ := hl p hp
  by_contra hle
  rw [h.fresh p (by omega)] at ha
  cases ha

theorem Live.mono (hl : h.Live ps) {qs : List ℕ} (hqs : qs ⊆ ps) : h.Live qs :=
  fun q hq => hl q (hqs hq)

theorem Live.next_notMem (hl : h.Live ps) : h.next ∉ ps :=
  fun hp => absurd (hl.lt_next hp) (Nat.lt_irrefl _)

theorem live_append {qs : List ℕ} : h.Live (ps ++ qs) ↔ h.Live ps ∧ h.Live qs := by
  simp only [Live, List.mem_append]
  exact ⟨fun hl => ⟨fun p hp => hl p (.inl hp), fun p hp => hl p (.inr hp)⟩,
    fun hl p hp => hp.elim (hl.1 p) (hl.2 p)⟩

/-- The cells of another structure stay apart and as they were. -/
theorem Frame.disjoint (hf : h.Frame h' old new) (hl : h.Live ps) (hd : ps.Disjoint old) :
    ps.Disjoint new := by
  intro q hq hnew
  rcases hf.added q hnew with hold | hle
  · exact hd hq hold
  · exact absurd (hl.lt_next hq) (by omega)

theorem Frame.cells_eq (hf : h.Frame h' old new) (hl : h.Live ps) (hd : ps.Disjoint old)
    (hp : p ∈ ps) : h'.cells p = h.cells p :=
  hf.others p (fun hold => hd hp hold) fun hnew => hf.disjoint hl hd hp hnew

theorem Frame.live (hf : h.Frame h' old new) (hl : h.Live ps) (hd : ps.Disjoint old) :
    h'.Live ps := by
  intro p hp
  rw [hf.cells_eq hl hd hp]
  exact hl p hp

theorem live_modify (hcells : ∃ b, h'.cells = Function.update h.cells p (some b))
    (hl : h.Live ps) : h'.Live ps := by
  obtain ⟨b, hb⟩ := hcells
  intro q hq
  rw [hb]
  rcases eq_or_ne q p with rfl | hne
  · exact ⟨b, Function.update_self ..⟩
  · rw [Function.update_of_ne hne]
    exact hl q hq

/-- A write changes a cell of the footprint. -/
theorem modify_frame (hl : h.Live ps) (hp : p ∈ ps) (f : α → α) :
    ∃ h' a, h.cells p = some a ∧ h.modify p f = .ok h' ∧
      h'.cells = Function.update h.cells p (some (f a)) ∧ h'.next = h.next ∧
      h'.Live ps ∧ h.Frame h' ps ps := by
  obtain ⟨a, ha⟩ := hl p hp
  obtain ⟨h', hmod, hcells, hnext⟩ := modify_of_live ha f
  refine ⟨h', a, ha, hmod, hcells, hnext, live_modify ⟨_, hcells⟩ hl, ?_⟩
  exact {
    others := fun q hq _ => by
      rw [hcells, Function.update_of_ne (ne_of_mem_of_not_mem hp hq).symm]
    added := fun q hq => .inl hq
    gone := fun q hq hq' => absurd hq hq'
    next_le := hnext.ge }

theorem cells_of_free (hfree : h.free p = .ok h') : h'.cells = Function.update h.cells p none := by
  obtain ⟨a, -, hrest⟩ := bind_eq_ok.mp hfree
  cases hrest
  rfl

theorem cells_of_modify {f : α → α} (hmod : h.modify p f = .ok h') :
    ∃ a, h.cells p = some a ∧ h'.cells = Function.update h.cells p (some (f a)) := by
  obtain ⟨a, hread, hwrite⟩ := bind_eq_ok.mp hmod
  obtain ⟨h₁, hwrite₁, hcells, -⟩ := write_of_live (read_eq_ok.mp hread) (f a)
  rw [hwrite, Except.ok.injEq] at hwrite₁
  subst hwrite₁
  exact ⟨a, read_eq_ok.mp hread, hcells⟩

theorem alloc_frame (h : Heap α) (a : α) (ps : List ℕ) : h.Frame (h.alloc a) ps (h.next :: ps) where
  others q _ hq := by
    rw [cells_alloc, Function.update_of_ne (List.ne_of_not_mem_cons hq)]
  added q hq := by
    rcases List.mem_cons.mp hq with rfl | hq
    · exact .inr (Nat.le_refl _)
    · exact .inl hq
  gone q hq hq' := absurd (List.mem_cons_of_mem _ hq) hq'
  next_le := Nat.le_succ _

theorem live_alloc (hl : h.Live ps) (a : α) : (h.alloc a).Live (h.next :: ps) := by
  intro q hq
  rw [cells_alloc]
  rcases List.mem_cons.mp hq with rfl | hq
  · exact ⟨a, Function.update_self ..⟩
  · obtain ⟨b, hb⟩ := hl q hq
    exact ⟨b, by rw [Function.update_of_ne (ne_next hb), hb]⟩

/-- A cell is freed. -/
theorem free_frame (hl : h.Live (p :: ps)) (hp : p ∉ ps) :
    ∃ h', h.free p = .ok h' ∧ h'.cells = Function.update h.cells p none ∧ h'.next = h.next ∧
      h'.Live ps ∧ h.Frame h' (p :: ps) ps := by
  obtain ⟨a, ha⟩ := hl p List.mem_cons_self
  obtain ⟨h', hfree, hcells, hnext⟩ := free_of_live ha
  have hother : ∀ q, q ≠ p → h'.cells q = h.cells q := fun q hq => by
    rw [hcells, Function.update_of_ne hq]
  refine ⟨h', hfree, hcells, hnext, fun q hq => ?_, ?_⟩
  · rw [hother q (ne_of_mem_of_not_mem hq hp)]
    exact hl q (List.mem_cons_of_mem p hq)
  · exact {
      others := fun q hq _ => hother q (List.ne_of_not_mem_cons hq)
      added := fun q hq => .inl (List.mem_cons_of_mem p hq)
      gone := fun q hq hq' => by
        rw [(List.mem_cons.mp hq).resolve_right hq', hcells, Function.update_self]
      next_le := hnext.ge }

/-- Distinct live pointers are no more than the pointers handed out. -/
theorem Live.length_le (hl : h.Live ps) (hnd : ps.Nodup) : ps.length ≤ h.next := by
  have hsub : ps ⊆ List.range h.next := fun p hp => List.mem_range.mpr (hl.lt_next hp)
  simpa using (hnd.subperm hsub).length_le

/-! ## Live cells -/

/-- The pointers that lead to an object. -/
def liveCells (h : Heap α) : List ℕ := (List.range h.next).filter fun p => (h.cells p).isSome

theorem mem_liveCells : p ∈ h.liveCells ↔ ∃ a, h.cells p = some a := by
  rw [liveCells, List.mem_filter, List.mem_range, Option.isSome_iff_exists]
  refine and_iff_right_of_imp ?_
  rintro ⟨a, ha⟩
  by_contra hle
  rw [h.fresh p (by omega)] at ha
  cases ha

theorem nodup_liveCells (h : Heap α) : h.liveCells.Nodup := List.nodup_range.filter _

/-- Footprints that cover the live cells bound their number. -/
theorem length_liveCells_le (hall : ∀ p a, h.cells p = some a → p ∈ ps) :
    h.liveCells.length ≤ ps.length := by
  refine (h.nodup_liveCells.subperm fun p hp => ?_).length_le
  obtain ⟨a, ha⟩ := mem_liveCells.mp hp
  exact hall p a ha

end CliMessaging.Heap
