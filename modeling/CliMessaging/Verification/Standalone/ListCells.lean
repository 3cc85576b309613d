import CliMessaging.Library.Footprint
import CliMessaging.Library.Linked
import CliMessaging.Model.Standalone.LinkedList

/-! # Linked lists and their cells

A list in memory is a ring of nodes around the sentinel and a chain of free nodes. Writes are
described by the fields they change, and taking a free node by the cells it adds. -/

namespace CliMessaging.Standalone.LinkedList

open Linked Heap

variable {α : Type} {h h' : Heap (LLNode α)} {lld : LlData} {p q : ℕ} {ps ns fs l r : List ℕ}
  {xs xs₁ xs₂ : List (Option α)} {e : Option α} {blocks : List (LLNode α)}

/-! ## The fields of the nodes -/

abbrev nextOf (h : Heap (LLNode α)) : ℕ → Option (Option ℕ) := h.field LLNode.next

abbrev prevOf (h : Heap (LLNode α)) : ℕ → Option (Option ℕ) := h.field LLNode.prev

abbrev elementOf (h : Heap (LLNode α)) : ℕ → Option (Option α) := h.field LLNode.element

theorem read_links {o o' : Option ℕ} (hnext : nextOf h p = some o) (hprev : prevOf h p = some o') :
    ∃ node, h.read p = .ok node ∧ node.next = o ∧ node.prev = o' := by
  obtain ⟨node, hread, rfl⟩ := read_of_field hnext
  rw [prevOf, field_of_read hread] at hprev
  exact ⟨node, hread, rfl, Option.some.inj hprev⟩

theorem read_of_next_element {o : Option ℕ} (hnext : nextOf h p = some o)
    (hp : elementOf h p = some e) :
    ∃ node, h.read p = .ok node ∧ node.next = o ∧ node.element = e := by
  obtain ⟨node, hread, rfl⟩ := read_of_field hnext
  rw [elementOf, field_of_read hread] at hp
  exact ⟨node, hread, rfl, Option.some.inj hp⟩

/-- Of the live cells `ps` some fields are written, and the fields are then as given. -/
structure Edit (ps : List ℕ) (h h' : Heap (LLNode α)) (next prev : ℕ → Option (Option ℕ))
    (element : ℕ → Option (Option α)) : Prop where
  live : h'.Live ps
  frame : h.Frame h' ps ps
  next_eq : nextOf h' = next
  prev_eq : prevOf h' = prev
  element_eq : elementOf h' = element
  top : h'.next = h.next

/-- The assignment `p->next = o` -/
theorem set_next (hl : h.Live ps) (hp : p ∈ ps) (o : Option ℕ) :
    ∃ h', h.modify p (fun node => { node with next := o }) = .ok h' ∧
      Edit ps h h' (Function.update (nextOf h) p (some o)) (prevOf h) (elementOf h) := by
  obtain ⟨h', node, hnode, hmod, hcells, hnext, hlive, hframe⟩ :=
    modify_frame hl hp fun node => { node with next := o }
  exact ⟨h', hmod, hlive, hframe, field_update hcells,
    field_update_same hcells hnode rfl,
    field_update_same hcells hnode rfl, hnext⟩

/-- The assignment `p->prev = o` -/
theorem set_prev (hl : h.Live ps) (hp : p ∈ ps) (o : Option ℕ) :
    ∃ h', h.modify p (fun node => { node with prev := o }) = .ok h' ∧
      Edit ps h h' (nextOf h) (Function.update (prevOf h) p (some o)) (elementOf h) := by
  obtain ⟨h', node, hnode, hmod, hcells, hnext, hlive, hframe⟩ :=
    modify_frame hl hp fun node => { node with prev := o }
  exact ⟨h', hmod, hlive, hframe, field_update_same hcells hnode rfl,
    field_update hcells,
    field_update_same hcells hnode rfl, hnext⟩

/-- The assignment `p->element = e` -/
theorem set_element (hl : h.Live ps) (hp : p ∈ ps) (e : Option α) :
    ∃ h', h.modify p (fun node => { node with element := e }) = .ok h' ∧
      Edit ps h h' (nextOf h) (prevOf h) (Function.update (elementOf h) p (some e)) := by
  obtain ⟨h', node, hnode, hmod, hcells, hnext, hlive, hframe⟩ :=
    modify_frame hl hp fun node => { node with element := e }
  exact ⟨h', hmod, hlive, hframe, field_update_same hcells hnode rfl,
    field_update_same hcells hnode rfl,
    field_update hcells, hnext⟩

theorem putEntry_spec (lld : LlData) (hl : h.Live ps) (hp : p ∈ ps) :
    ∃ h', putEntry h lld p = .ok (h', { lld with freel := some p }) ∧
      Edit ps h h' (Function.update (nextOf h) p (some lld.freel)) (prevOf h)
        (Function.update (elementOf h) p (some none)) := by
  obtain ⟨h', node, hnode, hmod, hcells, hnext, hlive, hframe⟩ :=
    modify_frame hl hp fun node => { node with element := none, next := lld.freel }
  refine ⟨h', by rw [putEntry, hmod]; rfl, hlive, hframe,
    field_update hcells, field_update_same hcells hnode rfl,
    field_update hcells, hnext⟩

/-- `link`, with `before` and `after` possibly one node. -/
theorem link_spec {before after : ℕ} (hl : h.Live ps) (hp : p ∈ ps) (hb : before ∈ ps)
    (ha : after ∈ ps) :
    ∃ h', link h before p after = .ok h' ∧
      Edit ps h h'
        (Function.update (Function.update (nextOf h) p (some (some after))) before (some (some p)))
        (Function.update (Function.update (prevOf h) p (some (some before))) after (some (some p)))
        (elementOf h) := by
  obtain ⟨h₁, hmod₁, hedit₁⟩ := set_next hl hp (some after)
  obtain ⟨h₂, hmod₂, hedit₂⟩ := set_prev hedit₁.live hp (some before)
  obtain ⟨h₃, hmod₃, hedit₃⟩ := set_prev hedit₂.live ha (some p)
  obtain ⟨h₄, hmod₄, hedit₄⟩ := set_next hedit₃.live hb (some p)
  refine ⟨h₄, by rw [link, hmod₁, bind_ok, hmod₂, bind_ok, hmod₃, bind_ok, hmod₄],
    hedit₄.live, ((hedit₁.frame.trans hedit₂.frame).trans hedit₃.frame).trans hedit₄.frame,
    ?_, ?_, ?_, ?_⟩
  · rw [hedit₄.next_eq, hedit₃.next_eq, hedit₂.next_eq, hedit₁.next_eq]
  · rw [hedit₄.prev_eq, hedit₃.prev_eq, hedit₂.prev_eq, hedit₁.prev_eq]
  · rw [hedit₄.element_eq, hedit₃.element_eq, hedit₂.element_eq, hedit₁.element_eq]
  · rw [hedit₄.top, hedit₃.top, hedit₂.top, hedit₁.top]

/-- `unlink` of a node that is not its own neighbour. -/
theorem unlink_spec {before after : ℕ} (hl : h.Live ps) (hb : before ∈ ps) (ha : after ∈ ps)
    (hnext : nextOf h p = some (some after)) (hprev : prevOf h p = some (some before))
    (hne : p ≠ before) :
    ∃ h', unlink h p = .ok h' ∧
      Edit ps h h' (Function.update (nextOf h) before (some (some after)))
        (Function.update (prevOf h) after (some (some before))) (elementOf h) := by
  obtain ⟨node, hread, hnode, hnode'⟩ := read_links hnext hprev
  obtain ⟨h₁, hmod₁, hedit₁⟩ := set_next hl hb (some after)
  have hnext₁ : nextOf h₁ p = some (some after) := by
    rw [hedit₁.next_eq, Function.update_of_ne hne, hnext]
  have hprev₁ : prevOf h₁ p = some (some before) := by
    rw [hedit₁.prev_eq, hprev]
  obtain ⟨node₁, hread₁, hnode₁, hnode₁'⟩ := read_links hnext₁ hprev₁
  obtain ⟨h₂, hmod₂, hedit₂⟩ := set_prev hedit₁.live ha (some before)
  refine ⟨h₂, ?_, hedit₂.live, hedit₁.frame.trans hedit₂.frame, ?_, ?_, ?_, ?_⟩
  · rw [unlink, hread, bind_ok, hnode', deref_some, bind_ok, hnode, hmod₁, bind_ok, hread₁,
      bind_ok, hnode₁, deref_some, bind_ok, hnode₁', hmod₂]
  · rw [hedit₂.next_eq, hedit₁.next_eq]
  · rw [hedit₂.prev_eq, hedit₁.prev_eq]
  · rw [hedit₂.element_eq, hedit₁.element_eq]
  · rw [hedit₂.top, hedit₁.top]

/-! ## A list in memory -/

/-- The cells of a list with the nodes `ns` and the free nodes `fs`. -/
def cellsOf (lld : LlData) (ns fs : List ℕ) : List ℕ := lld.sentinel :: (ns ++ fs)

theorem perm_cellsOf_free : (cellsOf lld ns (p :: fs)).Perm (p :: cellsOf lld ns fs) :=
  (List.perm_middle.cons _).trans (List.Perm.swap _ _ _)

theorem perm_cellsOf_node :
    (cellsOf lld (l ++ p :: r) fs).Perm (p :: cellsOf lld (l ++ r) fs) := by
  refine (List.Perm.cons _ ?_).trans (List.Perm.swap _ _ _)
  simp

theorem before_mem_cellsOf : before lld.sentinel l ∈ cellsOf lld (l ++ r) fs := by
  have hmem := before_mem lld.sentinel l
  simp only [cellsOf, List.mem_cons, List.mem_append] at hmem ⊢
  tauto

theorem after_mem_cellsOf : after lld.sentinel r ∈ cellsOf lld (l ++ r) fs := by
  have hmem := after_mem lld.sentinel r
  simp only [cellsOf, List.mem_cons, List.mem_append] at hmem ⊢
  tauto

theorem before_notMem_free (hnd : (cellsOf lld (l ++ r) fs).Nodup) :
    before lld.sentinel l ∉ fs := by
  have hsub : (lld.sentinel :: (l ++ fs)).Sublist (cellsOf lld (l ++ r) fs) :=
    (((List.sublist_append_left l r).append_right fs).cons_cons _)
  exact before_notMem (hsub.nodup hnd)

/-- The nodes `ns` hold the elements `xs`. -/
structure Holds (h : Heap (LLNode α)) (lld : LlData) (ns fs : List ℕ)
    (xs : List (Option α)) : Prop where
  ring : Ring (nextOf h) (prevOf h) lld.sentinel ns
  free : Chain (nextOf h) lld.freel fs
  nodup : (cellsOf lld ns fs).Nodup
  elements : ns.map (elementOf h) = xs.map some
  size : lld.size = ns.length

namespace Holds

theorem length_eq (hh : Holds h lld ns fs xs) : ns.length = xs.length := by
  simpa using congrArg List.length hh.elements

theorem size_eq (hh : Holds h lld ns fs xs) : lld.size = xs.length := by
  rw [hh.size, hh.length_eq]

theorem nodup_ring (hh : Holds h lld ns fs xs) : (lld.sentinel :: ns).Nodup :=
  ((List.sublist_append_left ns fs).cons_cons _).nodup hh.nodup

theorem chain_live {o : Option ℕ} (hc : Chain (nextOf h) o fs) : h.Live fs := by
  induction fs generalizing o with
  | nil => simp [Live]
  | cons p fs ih =>
      obtain ⟨-, o', hp, hfs⟩ := hc
      obtain ⟨node, hnode, -⟩ := cells_of_field hp
      intro q hq
      rcases List.mem_cons.mp hq with rfl | hq
      · exact ⟨node, hnode⟩
      · exact ih hfs q hq

theorem live (hh : Holds h lld ns fs xs) : h.Live (cellsOf lld ns fs) := by
  intro p hp
  rcases List.mem_cons.mp hp with rfl | hp
  · obtain ⟨node, hnode, -⟩ := cells_of_field hh.ring.next_sentinel
    exact ⟨node, hnode⟩
  rcases List.mem_append.mp hp with hp | hp
  · have hmem : elementOf h p ∈ xs.map some := hh.elements ▸ List.mem_map_of_mem hp
    obtain ⟨e, -, he⟩ := List.mem_map.mp hmem
    obtain ⟨node, hnode, -⟩ := cells_of_field he.symm
    exact ⟨node, hnode⟩
  · exact chain_live hh.free p hp

/-- A list depends on its own cells only. -/
theorem congr (hh : Holds h lld ns fs xs)
    (hcells : ∀ p ∈ cellsOf lld ns fs, h'.cells p = h.cells p) : Holds h' lld ns fs xs where
  ring := by
    have hmem : ∀ p ∈ lld.sentinel :: ns, p ∈ cellsOf lld ns fs :=
      fun p hp => ((List.sublist_append_left ns fs).cons_cons _).mem hp
    exact hh.ring.congr (fun p hp => field_congr (hcells p (hmem p hp)))
      (fun p hp => field_congr (hcells p (hmem p hp)))
  free := hh.free.congr fun p hp =>
    field_congr (hcells p (List.mem_cons_of_mem _ (List.mem_append_right _ hp)))
  nodup := hh.nodup
  elements := by
    rw [← hh.elements]
    exact List.map_congr_left fun p hp =>
      field_congr (hcells p (List.mem_cons_of_mem _ (List.mem_append_left _ hp)))
  size := hh.size

/-- The elements before and behind a node. -/
theorem elements_append (hh : Holds h lld (l ++ r) fs (xs₁ ++ xs₂))
    (hlen : l.length = xs₁.length) :
    l.map (elementOf h) = xs₁.map some ∧ r.map (elementOf h) = xs₂.map some := by
  have helements := hh.elements
  rw [List.map_append, List.map_append] at helements
  exact List.append_inj helements (by simpa using hlen)

theorem element_eq (hh : Holds h lld (l ++ p :: r) fs (xs₁ ++ e :: xs₂))
    (hlen : l.length = xs₁.length) : elementOf h p = some e := by
  have hright := (hh.elements_append hlen).2
  rw [List.map_cons, List.map_cons, List.cons.injEq] at hright
  exact hright.1

end Holds

/-! ## Nodes from the free list -/

/-- The operation leaves the sentinel and the size of the list as they are. -/
def SameList (lld lld' : LlData) : Prop :=
  lld'.sentinel = lld.sentinel ∧ lld'.size = lld.size

/-- A cell that is not in use goes to the free list. -/
theorem Holds.push (hh : Holds h lld ns fs xs) (hp : p ∉ cellsOf lld ns fs)
    (hedit : Edit ps h h' (Function.update (nextOf h) p (some lld.freel)) (prevOf h)
      (Function.update (elementOf h) p (some none))) :
    Holds h' { lld with freel := some p } ns (p :: fs) xs := by
  have hne : ∀ q ∈ cellsOf lld ns fs, q ≠ p := fun q hq => ne_of_mem_of_not_mem hq hp
  simp only [cellsOf, List.mem_cons, List.mem_append] at hne
  exact {
    ring := by
      refine hh.ring.congr (fun q hq => ?_) (fun q _ => by rw [hedit.prev_eq])
      have hq' := List.mem_cons.mp hq
      rw [hedit.next_eq, Function.update_of_ne (hne q (by tauto))]
    free := by
      refine hh.free.cons (by rw [hedit.next_eq, Function.update_self]) fun q hq => ?_
      rw [hedit.next_eq, Function.update_of_ne (hne q (by tauto))]
    nodup := perm_cellsOf_free.nodup_iff.mpr (List.nodup_cons.mpr ⟨hp, hh.nodup⟩)
    elements := by
      rw [← hh.elements]
      refine List.map_congr_left fun q hq => ?_
      rw [hedit.element_eq, Function.update_of_ne (hne q (by tauto))]
    size := hh.size }

/-- The new nodes of `getEntry` come first on the free list. -/
theorem refill_spec (i : ℕ) (blocks : List (LLNode α)) (hh : Holds h lld ns fs xs) :
    ∃ h' lld' new, refill i blocks h lld = .ok (h', lld') ∧ SameList lld lld' ∧
      Holds h' lld' ns (new ++ fs) xs ∧ new.length = min i blocks.length ∧
      h.Frame h' (cellsOf lld ns fs) (cellsOf lld' ns (new ++ fs)) := by
  induction i generalizing blocks h lld fs with
  | zero => exact ⟨h, lld, [], rfl, ⟨rfl, rfl⟩, hh, by simp, .refl h _⟩
  | succ i ih =>
      cases blocks with
      | nil => exact ⟨h, lld, [], rfl, ⟨rfl, rfl⟩, hh, by simp, .refl h _⟩
      | cons block blocks =>
          have hnew : h.next ∉ cellsOf lld ns fs := hh.live.next_notMem
          have halloc : Holds (h.alloc block) lld ns fs xs := hh.congr fun q hq => by
            rw [cells_alloc, Function.update_of_ne (ne_of_mem_of_not_mem hq hnew)]
          obtain ⟨h₁, hput, hedit⟩ :=
            putEntry_spec lld (live_alloc hh.live block) List.mem_cons_self
          have hh₁ := halloc.push hnew hedit
          obtain ⟨h₂, lld₂, new, hrefill, hsame, hh₂, hlen, hframe₂⟩ := ih blocks hh₁
          refine ⟨h₂, lld₂, new ++ [h.next], ?_, hsame, ?_, ?_, ?_⟩
          · rw [refill, hput, bind_ok]
            exact hrefill
          · simpa using hh₂
          · simp only [List.length_append, List.length_cons, List.length_nil, hlen]
            omega
          · have hframe := ((alloc_frame h block (cellsOf lld ns fs)).trans hedit.frame).trans
              (hframe₂.congr (fun q => perm_cellsOf_free.mem_iff.symm) fun q => Iff.rfl)
            simpa using hframe

theorem Holds.freel_eq_none (hh : Holds h lld ns fs xs) : lld.freel = none ↔ fs = [] := by
  constructor
  · intro hnone
    simpa [hnone] using hh.free
  · rintro rfl
    exact hh.free

/-- The first free node is taken. -/
theorem Holds.pop (hh : Holds h lld ns (p :: fs) xs) :
    ∃ node, lld.freel = some p ∧ h.read p = .ok node ∧
      Holds h { lld with freel := node.next } ns fs xs ∧ p ∉ cellsOf lld ns fs := by
  obtain ⟨hfreel, o, hnext, hfs⟩ := hh.free
  obtain ⟨node, hread, rfl⟩ := read_of_field hnext
  obtain ⟨hp, hnd⟩ := List.nodup_cons.mp (perm_cellsOf_free.nodup_iff.mp hh.nodup)
  exact ⟨node, hfreel, hread, ⟨hh.ring, hfs, hnd, hh.elements, hh.size⟩, hp⟩

/-- `getEntry` with a node on the free list. -/
theorem getEntry_cons (blocks : List (LLNode α)) (hh : Holds h lld ns (p :: fs) xs) :
    ∃ lld', getEntry blocks h lld = .ok (h, lld', some p) ∧ SameList lld lld' ∧
      Holds h lld' ns fs xs ∧ p ∉ cellsOf lld' ns fs := by
  obtain ⟨node, hfreel, hread, hpop, hp⟩ := hh.pop
  refine ⟨{ lld with freel := node.next }, ?_, ⟨rfl, rfl⟩, hpop, hp⟩
  rw [getEntry, if_neg (by rw [hfreel]; exact Option.some_ne_none p)]
  simp [hfreel, hread]

/-- `getEntry` when the free list is empty and `malloc` returns NULL at once. -/
theorem getEntry_nil (hh : Holds h lld ns [] xs) :
    getEntry [] h lld = .ok (h, lld, none) := by
  have hfreel : lld.freel = none := hh.freel_eq_none.mpr rfl
  rw [getEntry, if_pos hfreel]
  simp [refill, flIncrement, hfreel]

/-- The number of nodes that `getEntry` finds on the free list or puts there. -/
def available (fs : List ℕ) (blocks : List (LLNode α)) : ℕ :=
  if fs = [] then min flIncrement blocks.length else fs.length

theorem available_pos : 0 < available fs blocks ↔ ¬(fs = [] ∧ blocks = []) := by
  cases fs with
  | cons p fs => simp [available]
  | nil =>
      rw [available, if_pos rfl, Nat.lt_min, List.length_pos_iff]
      simp [flIncrement]

theorem getEntry_spec (hh : Holds h lld ns fs xs) (hav : 0 < available fs blocks) :
    ∃ h' lld' p fs', getEntry blocks h lld = .ok (h', lld', some p) ∧ SameList lld lld' ∧
      Holds h' lld' ns fs' xs ∧ p ∉ cellsOf lld' ns fs' ∧ h'.Live [p] ∧
      fs'.length + 1 = available fs blocks ∧
      h.Frame h' (cellsOf lld ns fs) (p :: cellsOf lld' ns fs') := by
  cases fs with
  | cons p fs =>
      obtain ⟨lld', hget, hsame, hh', hp⟩ := getEntry_cons blocks hh
      refine ⟨h, lld', p, fs, hget, hsame, hh', hp, hh.live.mono ?_, by simp [available], ?_⟩
      · simpa using perm_cellsOf_free.mem_iff.mpr List.mem_cons_self
      · refine (Frame.refl h _).congr (fun q => Iff.rfl) fun q => ?_
        rw [perm_cellsOf_free.mem_iff, cellsOf, cellsOf, hsame.1]
  | nil =>
      obtain ⟨h₁, lld₁, new, hrefill, hsame₁, hh₁, hlen, hframe₁⟩ :=
        refill_spec flIncrement blocks hh
      rw [List.append_nil] at hh₁ hframe₁
      rw [available, if_pos rfl, ← hlen] at hav ⊢
      cases new with
      | nil => simp at hav
      | cons p fs₁ =>
          obtain ⟨node, hfreel, hread, hpop, hp⟩ := hh₁.pop
          refine ⟨h₁, { lld₁ with freel := node.next }, p, fs₁, ?_, hsame₁, hpop, hp, ?_, rfl, ?_⟩
          · rw [getEntry, if_pos (hh.freel_eq_none.mpr rfl), hrefill]
            simp [hfreel, hread]
          · exact hh₁.live.mono (by simpa using perm_cellsOf_free.mem_iff.mpr List.mem_cons_self)
          · exact hframe₁.congr (fun q => Iff.rfl) fun q => perm_cellsOf_free.mem_iff.symm

end CliMessaging.Standalone.LinkedList
