import CliMessaging.Library.Footprint

/-! # Ownership

Several data structures share one memory, each on cells of its own. An operation on one of
them, whose frame is known, leaves the others as they are. -/

namespace CliMessaging.Heap

variable {α ι : Type} {h h' : Heap α} {ps new : List ℕ}

/-- What a structure says about the memory, by the cells that it owns. -/
structure Assertion (α : Type) where
  holds : Heap α → List ℕ → Prop
  live : ∀ {h ps}, holds h ps → h.Live ps
  congr : ∀ {h h' ps}, holds h ps → (∀ p ∈ ps, h'.cells p = h.cells p) → holds h' ps

/-- The assertion of a structure that is not there. -/
def Assertion.absent : Assertion α where
  holds _ ps := ps = []
  live h := by simp [h, Live]
  congr h _ := h

/-- The structures of a family stand on cells apart. -/
structure Owned (A : ι → Assertion α) (h : Heap α) (cells : ι → List ℕ) : Prop where
  each : ∀ i, (A i).holds h (cells i)
  apart : ∀ i j, i ≠ j → (cells i).Disjoint (cells j)

/-- Every cell in use has an owner. -/
def Covered (h : Heap α) (cells : ι → List ℕ) : Prop :=
  ∀ p a, h.cells p = some a → ∃ i, p ∈ cells i

theorem covered_empty : Covered (Heap.empty : Heap α) fun _ : ι => [] := by
  simp [Covered, Heap.empty]

/-- The objects `as`, each behind its pointer. -/
def Assertion.objects (ps : List ℕ) (as : List α) : Assertion α where
  holds h qs := qs = ps ∧ ps.Nodup ∧ ps.map h.cells = as.map some
  live := by
    rintro h qs ⟨rfl, -, has⟩ p hp
    have hmem := List.mem_map_of_mem (f := h.cells) hp
    rw [has] at hmem
    obtain ⟨a, -, ha⟩ := List.mem_map.mp hmem
    exact ⟨a, ha.symm⟩
  congr := by
    rintro h h' qs ⟨rfl, hnd, has⟩ hcells
    exact ⟨rfl, hnd, (List.map_congr_left hcells).trans has⟩

variable {A : ι → Assertion α} {cells : ι → List ℕ} {i : ι}

theorem Owned.live (ho : Owned A h cells) (i : ι) : h.Live (cells i) := (A i).live (ho.each i)

/-- The structures of a family have the memory for themselves. -/
def Filled (A : ι → Assertion α) (h : Heap α) : Prop :=
  ∃ cells, Owned A h cells ∧ Covered h cells

/-- Structures that need no cells. -/
theorem filled_empty (hA : ∀ i, (A i).holds .empty []) : Filled A .empty :=
  ⟨fun _ => [], ⟨hA, by simp⟩, covered_empty⟩

theorem Filled.congr {B : ι → Assertion α} (hf : Filled A h) (hAB : ∀ i, A i = B i) :
    Filled B h := funext hAB ▸ hf

/-- Memory without structures is free. -/
theorem Filled.freed (hf : Filled A h) (hnone : ∀ i ps, (A i).holds h ps → ps = []) (p : ℕ) :
    h.cells p = none := by
  obtain ⟨cells, ho, hc⟩ := hf
  cases hp : h.cells p with
  | none => rfl
  | some a =>
      obtain ⟨i, hi⟩ := hc p a hp
      rw [hnone i _ (ho.each i)] at hi
      cases hi

variable [DecidableEq ι]

/-- One structure is replaced, on cells of its own. -/
theorem Owned.replace (ho : Owned A h cells) {B : Assertion α}
    (hf : h.Frame h' (cells i) new) (hB : B.holds h' new) :
    Owned (Function.update A i B) h' (Function.update cells i new) where
  each j := by
    rcases eq_or_ne j i with rfl | hne
    · simpa using hB
    · simp only [Function.update_of_ne hne]
      exact (A j).congr (ho.each j) fun p hp =>
        hf.cells_eq (ho.live j) (ho.apart j i hne) hp
  apart j k hjk := by
    have hnew : ∀ j, j ≠ i → (cells j).Disjoint new := fun j hne =>
      hf.disjoint (ho.live j) (ho.apart j i hne)
    rcases eq_or_ne j i with rfl | hj
    · rw [Function.update_self, Function.update_of_ne hjk.symm]
      exact List.disjoint_comm.mp (hnew k hjk.symm)
    · rcases eq_or_ne k i with rfl | hk
      · rw [Function.update_self, Function.update_of_ne hj]
        exact hnew j hj
      · rw [Function.update_of_ne hj, Function.update_of_ne hk]
        exact ho.apart j k hjk

/-- The cells that the structure gives up are freed, those it takes have it as owner. -/
theorem Covered.replace (hc : Covered h cells) (hf : h.Frame h' (cells i) new) :
    Covered h' (Function.update cells i new) := by
  intro p a hp
  by_cases hnew : p ∈ new
  · exact ⟨i, by simpa using hnew⟩
  · have hold : p ∉ cells i := fun hmem => by
      rw [hf.gone p hmem hnew] at hp
      cases hp
    obtain ⟨j, hj⟩ := hc p a (by rw [← hf.others p hold hnew]; exact hp)
    have hne : j ≠ i := fun heq => hold (heq ▸ hj)
    exact ⟨j, by rwa [Function.update_of_ne hne]⟩

/-- One structure in focus: what it says, and that another may take its place. -/
theorem Filled.focus (hf : Filled A h) (i : ι) :
    ∃ ps, (A i).holds h ps ∧ ∀ {B : Assertion α} {h' new}, h.Frame h' ps new →
      B.holds h' new → Filled (Function.update A i B) h' := by
  obtain ⟨cells, ho, hc⟩ := hf
  exact ⟨cells i, ho.each i, fun hframe hB => ⟨_, ho.replace hframe hB, hc.replace hframe⟩⟩

/-! ## Objects -/

variable {as : List α} {qs : List ℕ} {a : α} {p : ℕ}

omit [DecidableEq ι]

theorem objects_nil (h : Heap α) : (Assertion.objects [] []).holds h [] :=
  ⟨rfl, .nil, rfl⟩

theorem forall₂_objects (ho : (Assertion.objects ps as).holds h qs) :
    List.Forall₂ (fun p a => h.cells p = some a) ps as := by
  obtain ⟨-, -, has⟩ := ho
  rw [← List.forall₂_eq_eq_eq, List.forall₂_map_left_iff, List.forall₂_map_right_iff] at has
  exact has

/-- The pointers to the objects are all that is in use. -/
theorem perm_liveCells (ho : (Assertion.objects ps as).holds h qs)
    (hall : ∀ p a, h.cells p = some a → p ∈ ps) : h.liveCells.Perm ps := by
  have hlive := (Assertion.objects ps as).live ho
  obtain ⟨rfl, hnd, -⟩ := ho
  refine (List.perm_ext_iff_of_nodup h.nodup_liveCells hnd).mpr fun p => ?_
  rw [mem_liveCells]
  exact ⟨fun ⟨a, ha⟩ => hall p a ha, hlive p⟩

theorem objects_alloc (ho : (Assertion.objects ps as).holds h ps) (a : α) :
    h.Frame (h.alloc a) ps (ps ++ [h.next]) ∧
      (Assertion.objects (ps ++ [h.next]) (as ++ [a])).holds (h.alloc a) (ps ++ [h.next]) := by
  have hlive := (Assertion.objects ps as).live ho
  obtain ⟨-, hnd, has⟩ := ho
  refine ⟨(alloc_frame h a ps).congr (fun _ => Iff.rfl) (fun q => by simp [or_comm]), rfl, ?_, ?_⟩
  · rw [List.nodup_append_comm, List.singleton_append, List.nodup_cons]
    exact ⟨hlive.next_notMem, hnd⟩
  · have hother : ∀ q ∈ ps, (h.alloc a).cells q = h.cells q := fun q hq => by
      rw [cells_alloc, Function.update_of_ne (ne_of_mem_of_not_mem hq hlive.next_notMem)]
    rw [List.map_append, List.map_append, List.map_congr_left hother, has, List.map_singleton,
      cells_alloc, Function.update_self, List.map_singleton]

theorem objects_free {i : ℕ} (ho : (Assertion.objects ps as).holds h ps) (hp : ps[i]? = some p) :
    ∃ h', h.free p = .ok h' ∧ h.Frame h' ps (ps.eraseIdx i) ∧
      (Assertion.objects (ps.eraseIdx i) (as.eraseIdx i)).holds h' (ps.eraseIdx i) := by
  obtain ⟨hi, rfl⟩ := List.getElem?_eq_some_iff.mp hp
  have hlive := (Assertion.objects ps as).live ho
  obtain ⟨-, hnd, has⟩ := ho
  have hperm : ps.Perm (ps[i] :: ps.eraseIdx i) := (List.getElem_cons_eraseIdx_perm hi).symm
  obtain ⟨hnot, hnd'⟩ := List.nodup_cons.mp (hperm.nodup_iff.mp hnd)
  obtain ⟨h', hfree, hcells, -, -, hframe⟩ :=
    free_frame (hlive.mono fun q hq => hperm.mem_iff.mpr hq) hnot
  refine ⟨h', hfree, hframe.congr (fun q => hperm.mem_iff) (fun _ => Iff.rfl), rfl, hnd', ?_⟩
  have hother : ∀ q ∈ ps.eraseIdx i, h'.cells q = h.cells q := fun q hq => by
    rw [hcells, Function.update_of_ne (ne_of_mem_of_not_mem hq hnot)]
  rw [List.map_congr_left hother, ← List.eraseIdx_map, has, List.eraseIdx_map]

/-- An object behind a pointer of its own is changed in place. -/
theorem objects_modify (ho : (Assertion.objects [p] [a]).holds h [p]) (f : α → α) :
    ∃ h', h.modify p f = .ok h' ∧ h.Frame h' [p] [p] ∧
      (Assertion.objects [p] [f a]).holds h' [p] := by
  have hlive := (Assertion.objects [p] [a]).live ho
  obtain ⟨-, hnd, has⟩ := ho
  have ha : h.cells p = some a := by simpa using has
  obtain ⟨h', b, hb, hmod, hcells, -, -, hframe⟩ := modify_frame hlive List.mem_cons_self f
  obtain rfl := Option.some.inj (ha.symm.trans hb)
  exact ⟨h', hmod, hframe, rfl, hnd, by simp [hcells]⟩

end CliMessaging.Heap
