import CliMessaging.Verification.Standalone.ListCells

/-! # Clearing, freeing and creating linked lists

`purge` hands out each element once and puts every node on the free list, and
`ll_destroy` frees every cell that the list has. -/

namespace CliMessaging.Standalone.LinkedList

open Linked Heap

variable {α : Type} {h h' : Heap (LLNode α)} {lld : LlData} {p q : ℕ} {ps ns fs l r : List ℕ}
  {xs : List (Option α)} {e : Option α}

/-! ## Purging -/

/-- The loop of `purge` over the nodes `r`: each is put on the free list after its successor
has been read, so the nodes behind it are still linked. -/
theorem purgeFrom_spec (fuel : ℕ) (lld : LlData) (hl : h.Live ps) (hr : r ⊆ ps) (hnd : r.Nodup)
    (hs : lld.sentinel ∉ r) (hlinks : Leads (nextOf h) lld.sentinel r)
    (hxs : r.map (elementOf h) = xs.map some) (hfree : Chain (nextOf h) lld.freel fs)
    (hdisj : r.Disjoint fs) (hfuel : r.length ≤ fuel) :
    ∃ h' lld', purgeFrom fuel h lld (after lld.sentinel r) = .ok (h', lld', xs) ∧
      SameList lld lld' ∧ Chain (nextOf h') lld'.freel (r.reverse ++ fs) ∧ h'.Live ps ∧
      h.Frame h' ps ps := by
  induction r generalizing h lld fs xs fuel with
  | nil =>
      rw [List.map_nil, eq_comm, List.map_eq_nil_iff] at hxs
      refine ⟨h, lld, ?_, ⟨rfl, rfl⟩, hfree, hl, .refl h _⟩
      cases fuel <;> rw [purgeFrom, after_nil, if_pos rfl, hxs]
  | cons p r ih =>
      cases fuel with
      | zero => simp at hfuel
      | succ fuel =>
          cases xs with
          | nil => simp at hxs
          | cons e xs =>
              rw [List.map_cons, List.map_cons, List.cons.injEq] at hxs
              obtain ⟨hp, hr'⟩ := List.nodup_cons.mp hnd
              obtain ⟨node, hread, hnode, helement⟩ := read_of_next_element hlinks.1 hxs.1
              obtain ⟨h₁, hput, hedit⟩ := putEntry_spec lld hl (hr List.mem_cons_self)
              have hne : ∀ q ∈ r, q ≠ p := fun q hq => ne_of_mem_of_not_mem hq hp
              have hlinks₁ : Leads (nextOf h₁) lld.sentinel r := hlinks.2.congr fun q hq => by
                rw [hedit.next_eq, Function.update_of_ne (hne q hq)]
              have hxs₁ : r.map (elementOf h₁) = xs.map some := by
                rw [← hxs.2]
                refine List.map_congr_left fun q hq => ?_
                rw [hedit.element_eq, Function.update_of_ne (hne q hq)]
              have hfree₁ : Chain (nextOf h₁) (some p) (p :: fs) := by
                refine hfree.cons (by rw [hedit.next_eq, Function.update_self]) fun q hq => ?_
                rw [hedit.next_eq, Function.update_of_ne]
                rintro rfl
                exact hdisj List.mem_cons_self hq
              have hdisj₁ : r.Disjoint (p :: fs) :=
                List.disjoint_cons_right.mpr ⟨hp, (List.disjoint_cons_left.mp hdisj).2⟩
              obtain ⟨h₂, lld₂, hrest, hsame, hchain, hlive, hframe⟩ :=
                ih fuel { lld with freel := some p } hedit.live
                  (fun q hq => hr (List.mem_cons_of_mem p hq)) hr'
                  (fun hmem => hs (List.mem_cons_of_mem p hmem)) hlinks₁ hxs₁ hfree₁ hdisj₁
                  (by simpa using hfuel)
              refine ⟨h₂, lld₂, ?_, hsame, by simpa using hchain, hlive,
                hedit.frame.trans hframe⟩
              simp only [after_cons, purgeFrom, if_neg (List.ne_of_not_mem_cons hs).symm, hread,
                bind_ok, hput, hnode, deref_some, hrest, helement, pure_eq_ok]

theorem purge_spec (hh : Holds h lld ns fs xs) :
    ∃ h' lld', purge h lld = .ok (h', lld', xs) ∧ SameList lld lld' ∧
      Chain (nextOf h') lld'.freel (ns.reverse ++ fs) ∧ h'.Live (cellsOf lld ns fs) ∧
      h.Frame h' (cellsOf lld ns fs) (cellsOf lld ns fs) := by
  obtain ⟨sentinel, hsentinel, hnext⟩ := read_of_field hh.ring.next_sentinel
  obtain ⟨hs, hnd⟩ := List.nodup_cons.mp hh.nodup
  obtain ⟨hns, -, hdisj⟩ := List.nodup_append'.mp hnd
  have hsub : ns ⊆ cellsOf lld ns fs := fun q hq =>
    List.mem_cons_of_mem _ (List.mem_append_left fs hq)
  obtain ⟨h', lld', hpurge, hrest⟩ := purgeFrom_spec h.next lld hh.live hsub hns
    (fun hmem => hs (List.mem_append_left fs hmem)) (hh.ring.leads (l := [])) hh.elements hh.free
    hdisj ((hh.live.mono hsub).length_le hns)
  refine ⟨h', lld', ?_, hrest⟩
  rw [purge, hsentinel, bind_ok, hnext, deref_some, bind_ok, hpurge]

theorem perm_cellsOf_purged : (cellsOf lld [] (ns.reverse ++ fs)).Perm (cellsOf lld ns fs) :=
  ((ns.reverse_perm).append_right fs).cons _

theorem llClear_spec (hh : Holds h lld ns fs xs) :
    ∃ h' lld', llClear h lld = .ok (h', lld', xs) ∧
      Holds h' lld' [] (ns.reverse ++ fs) [] ∧
      h.Frame h' (cellsOf lld ns fs) (cellsOf lld' [] (ns.reverse ++ fs)) := by
  obtain ⟨h₁, lld₁, hpurge, hsame, hchain, hlive, hframe⟩ := purge_spec hh
  have hcells : (cellsOf lld₁ [] (ns.reverse ++ fs)).Perm (cellsOf lld ns fs) := by
    rw [cellsOf, hsame.1]
    exact perm_cellsOf_purged
  have hs : lld₁.sentinel ∈ cellsOf lld ns fs := hcells.mem_iff.mp List.mem_cons_self
  obtain ⟨h₂, hmod₂, hedit₂⟩ := set_next hlive hs (some lld₁.sentinel)
  obtain ⟨h₃, hmod₃, hedit₃⟩ := set_prev hedit₂.live hs (some lld₁.sentinel)
  have hnd := hcells.nodup_iff.mpr hh.nodup
  refine ⟨h₃, { lld₁ with size := 0 }, ?_, ⟨?_, ?_, hnd, rfl, rfl⟩, ?_⟩
  · rw [llClear, hpurge, bind_ok]
    simp only [hmod₂, bind_ok, hmod₃, pure_eq_ok]
  · rw [ring_nil, hedit₃.next_eq, hedit₂.next_eq, hedit₃.prev_eq]
    exact ⟨Function.update_self .., Function.update_self ..⟩
  · refine hchain.congr fun q hq => ?_
    rw [hedit₃.next_eq, hedit₂.next_eq, Function.update_of_ne]
    rintro rfl
    exact (List.nodup_cons.mp hnd).1 hq
  · exact ((hframe.trans hedit₂.frame).trans hedit₃.frame).congr (fun q => Iff.rfl)
      fun q => hcells.mem_iff

/-! ## Freeing -/

theorem freeFrom_spec (fuel : ℕ) {o : Option ℕ} (hl : h.Live (fs ++ ps))
    (hnd : (fs ++ ps).Nodup) (hfree : Chain (nextOf h) o fs) (hfuel : fs.length ≤ fuel) :
    ∃ h', freeFrom fuel h o = .ok h' ∧ h'.Live ps ∧ h.Frame h' (fs ++ ps) ps := by
  induction fs generalizing h o fuel with
  | nil =>
      refine ⟨h, ?_, hl, .refl h _⟩
      obtain rfl : o = none := hfree
      cases fuel <;> rfl
  | cons p fs ih =>
      cases fuel with
      | zero => simp at hfuel
      | succ fuel =>
          obtain ⟨rfl, o', hnext, hfs⟩ := hfree
          obtain ⟨hp, hnd'⟩ := List.nodup_cons.mp hnd
          obtain ⟨node, hread, rfl⟩ := read_of_field hnext
          obtain ⟨h₁, hfree₁, hcells, -, hlive, hframe⟩ := free_frame hl hp
          have hfs₁ : Chain (nextOf h₁) node.next fs := hfs.congr fun q hq => by
            refine field_congr ?_
            rw [hcells, Function.update_of_ne]
            rintro rfl
            exact hp (List.mem_append_left ps hq)
          obtain ⟨h₂, hrest, hlive₂, hframe₂⟩ := ih fuel hlive hnd' hfs₁ (by simpa using hfuel)
          refine ⟨h₂, ?_, hlive₂, hframe.trans hframe₂⟩
          rw [freeFrom, hread, bind_ok, hfree₁, bind_ok, hrest]

/-- Every cell of the list is freed once. -/
theorem llDestroy_spec (hh : Holds h lld ns fs xs) :
    ∃ h', llDestroy h lld = .ok (h', xs) ∧ h.Frame h' (cellsOf lld ns fs) [] := by
  obtain ⟨h₁, lld₁, hpurge, hsame, hchain, hlive, hframe⟩ := purge_spec hh
  have hperm : (ns.reverse ++ fs ++ [lld.sentinel]).Perm (cellsOf lld ns fs) :=
    (List.perm_append_singleton _ _).trans perm_cellsOf_purged
  have hlive₁ : h₁.Live (ns.reverse ++ fs ++ [lld.sentinel]) :=
    hlive.mono fun q hq => hperm.mem_iff.mp hq
  have hnd₁ := hperm.nodup_iff.mpr hh.nodup
  obtain ⟨h₂, hfree₂, hlive₂, hframe₂⟩ := freeFrom_spec h₁.next hlive₁ hnd₁ hchain
    ((hlive₁.mono (List.subset_append_left _ _)).length_le (List.nodup_append'.mp hnd₁).1)
  obtain ⟨h₃, hfree₃, -, -, -, hframe₃⟩ := free_frame hlive₂ (List.not_mem_nil)
  refine ⟨h₃, ?_,
    (hframe.trans (hframe₂.congr (fun q => hperm.mem_iff.symm) fun q => Iff.rfl)).trans hframe₃⟩
  rw [llDestroy, hpurge, bind_ok]
  simp only [hfree₂, bind_ok, hsame.1, hfree₃, pure_eq_ok]

/-! ## Creating -/

theorem linkedListCreate_spec (h : Heap (LLNode α)) {blocks : List (LLNode α)}
    (hblocks : 2 ≤ blocks.length) :
    ∃ h' lld, linkedListCreate blocks h = some (h', lld) ∧ Holds h' lld [] [] [] ∧
      h.Frame h' [] (cellsOf lld [] []) := by
  match blocks with
  | [] => simp at hblocks
  | [_] => simp at hblocks
  | _ :: block :: _ =>
      refine ⟨_, _, rfl, ⟨?_, rfl, by simp [cellsOf], rfl, rfl⟩, alloc_frame h _ []⟩
      rw [ring_nil]
      constructor
      · simp [field]
      · simp [field]

theorem linkedListCreate_eq_none (h : Heap (LLNode α)) {blocks : List (LLNode α)}
    (hblocks : ¬2 ≤ blocks.length) : linkedListCreate blocks h = none := by
  match blocks with
  | [] => rfl
  | [_] => rfl
  | _ :: _ :: _ => simp at hblocks

end CliMessaging.Standalone.LinkedList
