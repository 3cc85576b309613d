import CliMessaging.Verification.Standalone.ListCells

/-! # Elements of linked lists

What each function does to the sequence of elements and to the cells of the list. -/

namespace CliMessaging.Standalone.LinkedList

open Linked Heap

variable {α : Type} {h h' : Heap (LLNode α)} {lld : LlData} {p q : ℕ} {ps ns fs l r : List ℕ}
  {xs xs₁ xs₂ : List (Option α)} {e : Option α} {blocks : List (LLNode α)}

/-! ## Walking -/

theorem walk_before (n : ℕ) (hr : Ring (nextOf h) (prevOf h) q (l ++ r)) (hn : n ≤ r.length) :
    walk h n (before q l) = .ok (before q (l ++ r.take n)) := by
  induction n generalizing l r with
  | zero => simp [walk]
  | succ n ih =>
      cases r with
      | nil => simp at hn
      | cons p r =>
          obtain ⟨node, hread, hnode⟩ := read_of_field hr.link.1
          have hrest := ih (l := l ++ [p]) (r := r) (by simpa using hr) (by simpa using hn)
          rw [before_concat] at hrest
          rw [walk, hread, bind_ok, hnode, deref_some, bind_ok, after_cons, hrest]
          simp

theorem walk_after (n : ℕ) (hr : Ring (nextOf h) (prevOf h) q (l ++ r)) (hn : n ≤ r.length) :
    walk h n (after q r) = .ok (after q (r.drop n)) := by
  induction n generalizing l r with
  | zero => simp [walk]
  | succ n ih =>
      cases r with
      | nil => simp at hn
      | cons p r =>
          obtain ⟨node, hread, hnode⟩ := read_of_field hr.next_eq
          have hrest := ih (l := l ++ [p]) (r := r) (by simpa using hr) (by simpa using hn)
          rw [after_cons, walk, hread, bind_ok, hnode, deref_some, bind_ok, hrest]
          simp

theorem read_sentinel_next (hh : Holds h lld ns fs xs) :
    ∃ node, h.read lld.sentinel = .ok node ∧ node.next = some (after lld.sentinel ns) :=
  read_of_field hh.ring.next_sentinel

theorem read_sentinel_prev (hh : Holds h lld ns fs xs) :
    ∃ node, h.read lld.sentinel = .ok node ∧ node.prev = some (before lld.sentinel ns) :=
  read_of_field hh.ring.prev_sentinel

/-! ## Adding elements -/

/-- A node that holds an element is linked into the list. -/
theorem Holds.link (hh : Holds h lld (l ++ r) fs (xs₁ ++ xs₂)) (hlen : l.length = xs₁.length)
    (hlive : h.Live [p]) (hp : p ∉ cellsOf lld (l ++ r) fs) (he : elementOf h p = some e) :
    ∃ h', LinkedList.link h (before lld.sentinel l) p (after lld.sentinel r) = .ok h' ∧
      Holds h' { lld with size := lld.size + 1 } (l ++ p :: r) fs (xs₁ ++ e :: xs₂) ∧
      h.Frame h' (p :: cellsOf lld (l ++ r) fs) (cellsOf lld (l ++ p :: r) fs) := by
  have hb : before lld.sentinel l ∈ cellsOf lld (l ++ r) fs := before_mem_cellsOf
  have ha : after lld.sentinel r ∈ cellsOf lld (l ++ r) fs := after_mem_cellsOf
  have hcells : h.Live (p :: cellsOf lld (l ++ r) fs) :=
    live_append.mpr ⟨hlive, hh.live⟩
  obtain ⟨h', hlink, hedit⟩ := link_spec hcells List.mem_cons_self
    (List.mem_cons_of_mem p hb) (List.mem_cons_of_mem p ha)
  have hne : ∀ q ∈ cellsOf lld (l ++ r) fs, q ≠ p := fun q hq => ne_of_mem_of_not_mem hq hp
  have hring : ∀ q ∈ lld.sentinel :: (l ++ r), q ∈ cellsOf lld (l ++ r) fs :=
    fun q hq => ((List.sublist_append_left _ fs).cons_cons _).mem hq
  refine ⟨h', hlink, ?_, hedit.frame.congr (fun q => Iff.rfl) fun q => perm_cellsOf_node.mem_iff⟩
  exact {
    ring := by
      refine hh.ring.insert hh.nodup_ring ⟨?_, ?_⟩ ⟨?_, ?_⟩ (fun q hq hqb => ?_)
        fun q hq hqa => ?_
      · rw [hedit.next_eq, Function.update_self]
      · rw [hedit.prev_eq, Function.update_of_ne (hne _ ha).symm, Function.update_self]
      · rw [hedit.next_eq, Function.update_of_ne (hne _ hb).symm, Function.update_self]
      · rw [hedit.prev_eq, Function.update_self]
      · rw [hedit.next_eq, Function.update_of_ne hqb, Function.update_of_ne (hne q (hring q hq))]
      · rw [hedit.prev_eq, Function.update_of_ne hqa, Function.update_of_ne (hne q (hring q hq))]
    free := hh.free.congr fun q hq => by
      have hq' : q ∈ cellsOf lld (l ++ r) fs :=
        List.mem_cons_of_mem _ (List.mem_append_right _ hq)
      have hqb := ne_of_mem_of_not_mem hq (before_notMem_free hh.nodup)
      rw [hedit.next_eq, Function.update_of_ne hqb, Function.update_of_ne (hne q hq')]
    nodup := perm_cellsOf_node.nodup_iff.mpr (List.nodup_cons.mpr ⟨hp, hh.nodup⟩)
    elements := by
      obtain ⟨hleft, hright⟩ := hh.elements_append hlen
      rw [hedit.element_eq, List.map_append, List.map_cons, hleft, hright, he]
      simp
    size := by
      have hsize := hh.size
      simp only [List.length_append, List.length_cons] at hsize ⊢
      push_cast at hsize ⊢
      omega }

/-- The node that `getEntry` found takes the element and its place. -/
theorem Holds.enter (hh : Holds h lld (l ++ r) fs (xs₁ ++ xs₂)) (hlen : l.length = xs₁.length)
    (hlive : h.Live [p]) (hp : p ∉ cellsOf lld (l ++ r) fs) (e : Option α) :
    ∃ h₁ h₂, h.modify p (fun node => { node with element := e }) = .ok h₁ ∧
      Holds h₁ lld (l ++ r) fs (xs₁ ++ xs₂) ∧
      LinkedList.link h₁ (before lld.sentinel l) p (after lld.sentinel r) = .ok h₂ ∧
      Holds h₂ { lld with size := lld.size + 1 } (l ++ p :: r) fs (xs₁ ++ e :: xs₂) ∧
      h.Frame h₂ (p :: cellsOf lld (l ++ r) fs) (cellsOf lld (l ++ p :: r) fs) := by
  obtain ⟨h₁, hmod, hedit⟩ := set_element hlive List.mem_cons_self e
  have hh₁ : Holds h₁ lld (l ++ r) fs (xs₁ ++ xs₂) := hh.congr fun q hq =>
    hedit.frame.others q (by simpa using ne_of_mem_of_not_mem hq hp)
      (by simpa using ne_of_mem_of_not_mem hq hp)
  obtain ⟨h₂, hlink, hh₂, hframe⟩ := hh₁.link hlen hedit.live hp
    (by rw [hedit.element_eq, Function.update_self])
  exact ⟨h₁, h₂, hmod, hh₁, hlink, hh₂, (hedit.frame.append (cellsOf lld (l ++ r) fs)).trans hframe⟩

/-- What adding an element between `xs₁` and `xs₂` does when a node is there. -/
structure Added (h h' : Heap (LLNode α)) (lld lld' : LlData) (fs fs' l r : List ℕ) (p : ℕ)
    (xs₁ xs₂ : List (Option α)) (e : Option α) (blocks : List (LLNode α)) : Prop where
  holds : Holds h' lld' (l ++ p :: r) fs' (xs₁ ++ e :: xs₂)
  frame : h.Frame h' (cellsOf lld (l ++ r) fs) (cellsOf lld' (l ++ p :: r) fs')
  length_free : fs'.length + 1 = available fs blocks

theorem add_between (hh : Holds h lld (l ++ r) fs (xs₁ ++ xs₂)) (hlen : l.length = xs₁.length)
    (hav : 0 < available fs blocks) (e : Option α) :
    ∃ h₁ lld₁ p h₂ h₃ fs', getEntry blocks h lld = .ok (h₁, lld₁, some p) ∧ SameList lld lld₁ ∧
      h₁.modify p (fun node => { node with element := e }) = .ok h₂ ∧
      Holds h₂ lld₁ (l ++ r) fs' (xs₁ ++ xs₂) ∧
      LinkedList.link h₂ (before lld₁.sentinel l) p (after lld₁.sentinel r) = .ok h₃ ∧
      Added h h₃ lld { lld₁ with size := lld₁.size + 1 } fs fs' l r p xs₁ xs₂ e blocks := by
  obtain ⟨h₁, lld₁, p, fs', hget, hsame, hh₁, hp, hlive, hfree, hframe₁⟩ := getEntry_spec hh hav
  obtain ⟨h₂, h₃, hmod, hh₂, hlink, hh₃, hframe⟩ := hh₁.enter hlen hlive hp e
  exact ⟨h₁, lld₁, p, h₂, h₃, fs', hget, hsame, hmod, hh₂, hlink, hh₃, hframe₁.trans hframe, hfree⟩

theorem llAddFirst_spec (hh : Holds h lld ns fs xs) (hav : 0 < available fs blocks)
    (e : Option α) :
    ∃ h' lld' p fs', llAddFirst blocks h lld e = .ok (h', lld', true) ∧
      Added h h' lld lld' fs fs' [] ns p [] xs e blocks := by
  have hsplit : Holds h lld ([] ++ ns) fs ([] ++ xs) := hh
  obtain ⟨h₁, lld₁, p, h₂, h₃, fs', hget, -, hmod, hh₂, hlink, hadded⟩ :=
    add_between hsplit rfl hav e
  obtain ⟨node, hread, hnode⟩ := read_sentinel_next hh₂
  rw [List.nil_append] at hnode
  rw [before_nil] at hlink
  refine ⟨h₃, _, p, fs', ?_, hadded⟩
  simp only [llAddFirst, hget, bind_ok, hmod, hread, hnode, deref_some, hlink, pure_eq_ok]

theorem llAddLast_spec (hh : Holds h lld ns fs xs) (hav : 0 < available fs blocks)
    (e : Option α) :
    ∃ h' lld' p fs', llAddLast blocks h lld e = .ok (h', lld', true) ∧
      Added h h' lld lld' fs fs' ns [] p xs [] e blocks := by
  have hsplit : Holds h lld (ns ++ []) fs (xs ++ []) := by simpa using hh
  obtain ⟨h₁, lld₁, p, h₂, h₃, fs', hget, -, hmod, hh₂, hlink, hadded⟩ :=
    add_between hsplit hh.length_eq hav e
  obtain ⟨node, hread, hnode⟩ := read_sentinel_prev hh₂
  rw [List.append_nil] at hnode
  rw [after_nil] at hlink
  refine ⟨h₃, _, p, fs', ?_, hadded⟩
  simp only [llAddLast, hget, bind_ok, hmod, hread, hnode, deref_some, hlink, pure_eq_ok]

/-- An index below 0 stands for 0. -/
theorem llInsert_spec (hh : Holds h lld ns fs xs) (hav : 0 < available fs blocks) {index : ℤ}
    (hindex : index ≤ xs.length) (e : Option α) :
    ∃ h' lld' p fs', llInsert blocks h lld index e = .ok (h', lld', true) ∧
      Added h h' lld lld' fs fs' (ns.take index.toNat) (ns.drop index.toNat) p
        (xs.take index.toNat) (xs.drop index.toNat) e blocks := by
  have hn : index.toNat ≤ ns.length := by
    rw [hh.length_eq]
    omega
  have hsplit : Holds h lld (ns.take index.toNat ++ ns.drop index.toNat) fs
      (xs.take index.toNat ++ xs.drop index.toNat) := by
    simpa only [List.take_append_drop] using hh
  have hlen : (ns.take index.toNat).length = (xs.take index.toNat).length := by
    rw [List.length_take, List.length_take, hh.length_eq]
  obtain ⟨h₁, lld₁, p, h₂, h₃, fs', hget, hsame, hmod, hh₂, hlink, hadded⟩ :=
    add_between hsplit hlen hav e
  have hwalk := walk_before (l := []) (r := ns) index.toNat
    (by simpa only [List.take_append_drop, List.nil_append] using hh₂.ring) hn
  rw [before_nil, List.nil_append] at hwalk
  obtain ⟨node, hread, hnode⟩ := read_of_field hh₂.ring.link.1
  refine ⟨h₃, _, p, fs', ?_, hadded⟩
  simp only [llInsert, if_pos (hindex.trans_eq hh.size_eq.symm), hget, bind_ok, hmod, hwalk,
    hread, hnode, deref_some, hlink, pure_eq_ok]

/-! ## Reading elements -/

/-- A node of the list by the index of its element. -/
theorem exists_node (hh : Holds h lld ns fs xs) {n : ℕ} (hn : n < xs.length) :
    ∃ p l r, ns = l ++ p :: r ∧ l = ns.take n ∧ r = ns.drop (n + 1) ∧
      xs = xs.take n ++ xs[n] :: xs.drop (n + 1) ∧ l.length = (xs.take n).length ∧
      walk h n (after lld.sentinel ns) = .ok p := by
  have hn' : n < ns.length := hh.length_eq ▸ hn
  have hsplit : ns = ns.take n ++ ns[n] :: ns.drop (n + 1) := by simp
  have hwalk := walk_after (l := []) (r := ns) n hh.ring hn'.le
  rw [List.drop_eq_getElem_cons hn', after_cons] at hwalk
  exact ⟨ns[n], ns.take n, ns.drop (n + 1), hsplit, rfl, rfl, by simp, by simp [hh.length_eq],
    hwalk⟩

/-- An index below 0 stands for 0, so there is an element under it unless the list is
empty. -/
theorem toNat_lt_length {index : ℤ} (hindex : 0 ≤ index ∨ xs ≠ []) (hlt : index < xs.length) :
    index.toNat < xs.length := by
  rcases hindex with hpos | hne
  · omega
  · have := List.length_pos_iff.mpr hne
    omega

theorem llGet_spec (hh : Holds h lld ns fs xs) {index : ℤ} (hindex : 0 ≤ index ∨ xs ≠ []) :
    llGet h lld index = .ok (if index < xs.length then xs[index.toNat]? else none) := by
  rw [llGet, hh.size_eq]
  by_cases hlt : index < xs.length
  · have hn := toNat_lt_length hindex hlt
    obtain ⟨p, l, r, rfl, -, -, hxs, hlen, hwalk⟩ := exists_node hh hn
    obtain ⟨sentinel, hsentinel, hnext⟩ := read_sentinel_next hh
    rw [hxs] at hh
    obtain ⟨node, hread, hnode⟩ := read_of_field (hh.element_eq hlen)
    simp only [if_pos hlt, hsentinel, bind_ok, hnext, deref_some, hwalk, hread, hnode,
      List.getElem?_eq_getElem hn, pure_eq_ok]
  · rw [if_neg hlt, if_neg hlt]

theorem sentinel_notMem (hh : Holds h lld ns fs xs) : lld.sentinel ∉ ns :=
  (List.nodup_cons.mp hh.nodup_ring).1

theorem llGetFirst_spec (hh : Holds h lld ns fs xs) : llGetFirst h lld = .ok xs.head? := by
  obtain ⟨sentinel, hsentinel, hnext⟩ := read_sentinel_next hh
  cases ns with
  | nil =>
      have hxs : xs = [] := List.length_eq_zero_iff.mp (by simpa using hh.length_eq.symm)
      simp [llGetFirst, hsentinel, hnext, hxs]
  | cons p r =>
      obtain ⟨e, xs', rfl⟩ := List.exists_cons_of_length_eq_add_one hh.length_eq.symm
      have hp : p ≠ lld.sentinel := (List.ne_of_not_mem_cons (sentinel_notMem hh)).symm
      have hsplit : Holds h lld ([] ++ p :: r) fs ([] ++ e :: xs') := hh
      obtain ⟨node, hread, hnode⟩ := read_of_field (hsplit.element_eq rfl)
      simp [llGetFirst, hsentinel, hnext, hp, hread, hnode]

theorem llGetLast_spec (hh : Holds h lld ns fs xs) : llGetLast h lld = .ok xs.getLast? := by
  obtain ⟨sentinel, hsentinel, hprev⟩ := read_sentinel_prev hh
  rcases ns.eq_nil_or_concat' with rfl | ⟨l, p, rfl⟩
  · have hxs : xs = [] := List.length_eq_zero_iff.mp (by simpa using hh.length_eq.symm)
    simp [llGetLast, hsentinel, hprev, hxs]
  · rcases xs.eq_nil_or_concat' with rfl | ⟨xs', e, rfl⟩
    · simpa using hh.length_eq
    · have hp : p ≠ lld.sentinel := by
        rintro rfl
        exact sentinel_notMem hh (by simp)
      have hlen : l.length = xs'.length := by simpa using hh.length_eq
      obtain ⟨node, hread, hnode⟩ := read_of_field (hh.element_eq hlen)
      simp [llGetLast, hsentinel, hprev, hp, hread, hnode]

/-- The element of a node is replaced. -/
theorem Holds.setElement (hh : Holds h lld (l ++ p :: r) fs (xs₁ ++ e :: xs₂))
    (hlen : l.length = xs₁.length) (e' : Option α) :
    ∃ h', h.modify p (fun node => { node with element := e' }) = .ok h' ∧
      Holds h' lld (l ++ p :: r) fs (xs₁ ++ e' :: xs₂) ∧
      h.Frame h' (cellsOf lld (l ++ p :: r) fs) (cellsOf lld (l ++ p :: r) fs) := by
  obtain ⟨h', hmod, hedit⟩ := set_element hh.live (p := p)
    (perm_cellsOf_node.mem_iff.mpr List.mem_cons_self) e'
  refine ⟨h', hmod, ⟨?_, ?_, hh.nodup, ?_, ?_⟩, hedit.frame⟩
  · rw [hedit.next_eq, hedit.prev_eq]
    exact hh.ring
  · rw [hedit.next_eq]
    exact hh.free
  · obtain ⟨hleft, hright⟩ := hh.elements_append hlen
    have hnd := (List.nodup_cons.mp hh.nodup_ring).2
    rw [List.nodup_append'] at hnd
    obtain ⟨-, hpr, hdisj⟩ := hnd
    have hsame : ∀ q ∈ l ++ r, elementOf h' q = elementOf h q := by
      intro q hq
      rw [hedit.element_eq, Function.update_of_ne]
      rintro rfl
      rcases List.mem_append.mp hq with hl | hr
      · exact hdisj hl List.mem_cons_self
      · exact (List.nodup_cons.mp hpr).1 hr
    rw [List.map_append, List.map_cons, List.map_append, List.map_cons,
      List.map_congr_left fun q hq => hsame q (List.mem_append_left r hq),
      List.map_congr_left (l := r) fun q hq => hsame q (List.mem_append_right l hq), hleft,
      hedit.element_eq, Function.update_self]
    rw [List.map_cons, List.map_cons, List.cons.injEq] at hright
    rw [hright.2]
  · simpa using hh.size

theorem llSet_spec (hh : Holds h lld ns fs xs) {index : ℤ} (hindex : 0 ≤ index ∨ xs ≠ [])
    (e' : Option α) :
    ∃ h', llSet h lld index e' =
        .ok (h', if index < xs.length then xs[index.toNat]? else none) ∧
      Holds h' lld ns fs (if index < xs.length then xs.set index.toNat e' else xs) ∧
      h.Frame h' (cellsOf lld ns fs) (cellsOf lld ns fs) := by
  rw [llSet, hh.size_eq]
  by_cases hlt : index < xs.length
  · have hn := toNat_lt_length hindex hlt
    obtain ⟨p, l, r, rfl, -, -, hxs, hlen, hwalk⟩ := exists_node hh hn
    obtain ⟨sentinel, hsentinel, hnext⟩ := read_sentinel_next hh
    rw [hxs] at hh
    obtain ⟨node, hread, hnode⟩ := read_of_field (hh.element_eq hlen)
    obtain ⟨h', hmod, hh', hframe⟩ := hh.setElement hlen e'
    refine ⟨h', ?_, ?_, hframe⟩
    · simp only [if_pos hlt, hsentinel, bind_ok, hnext, deref_some, hwalk, hread, hnode, hmod,
        List.getElem?_eq_getElem hn, pure_eq_ok]
    · rw [if_pos hlt, List.set_eq_take_append_cons_drop, if_pos hn]
      exact hh'
  · simp only [if_neg hlt]
    exact ⟨h, rfl, hh, .refl h _⟩

/-- The loop of `genArray` over the nodes `r`. -/
theorem collect_spec (hr : Leads (nextOf h) q r) (hxs : r.map (elementOf h) = xs.map some) :
    collect h r.length (after q r) = .ok xs := by
  induction r generalizing xs with
  | nil =>
      rw [List.map_nil, eq_comm, List.map_eq_nil_iff] at hxs
      rw [hxs]
      rfl
  | cons p r ih =>
      cases xs with
      | nil => simp at hxs
      | cons e xs =>
          rw [List.map_cons, List.map_cons, List.cons.injEq] at hxs
          obtain ⟨node, hread, hnode, helement⟩ := read_of_next_element hr.1 hxs.1
          rw [after_cons, List.length_cons, collect, hread, bind_ok, hnode, deref_some, bind_ok,
            ih hr.2 hxs.2, helement]
          rfl

theorem llToArray_spec (hh : Holds h lld ns fs xs) (room : Bool) (len : ℤ) :
    llToArray room h lld len =
      .ok (if xs ≠ [] ∧ room then (some xs, (xs.length : ℤ)) else (none, len)) := by
  have hpos : 0 < lld.size ↔ xs ≠ [] := by
    rw [hh.size_eq, Int.natCast_pos, List.length_pos_iff]
  by_cases hc : xs ≠ [] ∧ room
  · obtain ⟨sentinel, hsentinel, hnext⟩ := read_sentinel_next hh
    have hcollect := collect_spec (hh.ring.leads (l := [])) hh.elements
    rw [hh.length_eq] at hcollect
    rw [llToArray, genArray, if_pos (by rw [hpos]; exact hc), if_pos hc]
    simp [hsentinel, hnext, hcollect, hh.size_eq]
  · rw [llToArray, genArray, if_neg (by rw [hpos]; exact hc), if_neg hc]
    rfl

/-! ## Removing elements -/

/-- A node is taken out of the list, and its element with it. -/
theorem Holds.unlink (hh : Holds h lld (l ++ p :: r) fs (xs₁ ++ e :: xs₂))
    (hlen : l.length = xs₁.length) :
    ∃ h', LinkedList.unlink h p = .ok h' ∧
      Holds h' { lld with size := lld.size - 1 } (l ++ r) fs (xs₁ ++ xs₂) ∧
      h'.Live (cellsOf lld (l ++ p :: r) fs) ∧
      h.Frame h' (cellsOf lld (l ++ p :: r) fs) (cellsOf lld (l ++ p :: r) fs) := by
  obtain ⟨hp, hnd⟩ := List.nodup_cons.mp (perm_cellsOf_node.nodup_iff.mp hh.nodup)
  have hb : before lld.sentinel l ∈ cellsOf lld (l ++ p :: r) fs := before_mem_cellsOf
  have ha : after lld.sentinel r ∈ cellsOf lld (l ++ p :: r) fs :=
    perm_cellsOf_node.mem_iff.mpr (List.mem_cons_of_mem p after_mem_cellsOf)
  have hpb : p ≠ before lld.sentinel l := fun heq => hp (heq ▸ before_mem_cellsOf)
  obtain ⟨h', hunlink, hedit⟩ :=
    unlink_spec hh.live hb ha hh.ring.next_eq hh.ring.prev_eq hpb
  refine ⟨h', hunlink, ?_, hedit.live, hedit.frame⟩
  exact {
    ring := by
      refine hh.ring.erase hh.nodup_ring ⟨?_, ?_⟩ (fun q _ hqb => ?_) fun q _ hqa => ?_
      · rw [hedit.next_eq, Function.update_self]
      · rw [hedit.prev_eq, Function.update_self]
      · rw [hedit.next_eq, Function.update_of_ne hqb]
      · rw [hedit.prev_eq, Function.update_of_ne hqa]
    free := hh.free.congr fun q hq => by
      have hqb := ne_of_mem_of_not_mem hq (before_notMem_free hh.nodup)
      rw [hedit.next_eq, Function.update_of_ne hqb]
    nodup := hnd
    elements := by
      obtain ⟨hleft, hright⟩ := hh.elements_append hlen
      rw [List.map_cons, List.map_cons, List.cons.injEq] at hright
      rw [hedit.element_eq, List.map_append, hleft, hright.2, List.map_append]
    size := by
      have hsize := hh.size
      simp only [List.length_append, List.length_cons] at hsize ⊢
      push_cast at hsize ⊢
      omega }

/-- The node goes to the free list. -/
theorem removeEntry_spec (hh : Holds h lld (l ++ p :: r) fs (xs₁ ++ e :: xs₂))
    (hlen : l.length = xs₁.length) :
    ∃ h' lld', removeEntry h lld p = .ok (h', lld', some e) ∧
      Holds h' lld' (l ++ r) (p :: fs) (xs₁ ++ xs₂) ∧
      h.Frame h' (cellsOf lld (l ++ p :: r) fs) (cellsOf lld' (l ++ r) (p :: fs)) := by
  obtain ⟨node, hread, hnode⟩ := read_of_field (hh.element_eq hlen)
  obtain ⟨h₁, hunlink, hh₁, hlive₁, hframe₁⟩ := hh.unlink hlen
  obtain ⟨h₂, hput, hedit⟩ := putEntry_spec lld hlive₁
    (perm_cellsOf_node.mem_iff.mpr List.mem_cons_self)
  have hp := (List.nodup_cons.mp (perm_cellsOf_node.nodup_iff.mp hh.nodup)).1
  refine ⟨h₂, _, ?_, hh₁.push hp hedit, ?_⟩
  · rw [removeEntry, hread, bind_ok, hunlink, bind_ok, hput, bind_ok, hnode]
    rfl
  · refine (hframe₁.trans hedit.frame).congr (fun q => Iff.rfl) fun q => ?_
    rw [perm_cellsOf_free.mem_iff, perm_cellsOf_node.mem_iff]
    rfl

theorem llRemove_spec (hh : Holds h lld ns fs xs) {index : ℤ} (hindex : 0 ≤ index ∨ xs ≠ []) :
    ∃ h' lld' ns' fs', llRemove h lld index =
        .ok (h', lld', if index < xs.length then xs[index.toNat]? else none) ∧
      Holds h' lld' ns' fs' (if index < xs.length then xs.eraseIdx index.toNat else xs) ∧
      h.Frame h' (cellsOf lld ns fs) (cellsOf lld' ns' fs') ∧
      ns'.length + fs'.length = ns.length + fs.length := by
  rw [llRemove, hh.size_eq]
  by_cases hlt : index < xs.length
  · have hn := toNat_lt_length hindex hlt
    obtain ⟨p, l, r, rfl, -, -, hxs, hlen, hwalk⟩ := exists_node hh hn
    obtain ⟨sentinel, hsentinel, hnext⟩ := read_sentinel_next hh
    rw [hxs] at hh
    obtain ⟨h', lld', hremove, hh', hframe⟩ := removeEntry_spec hh hlen
    refine ⟨h', lld', l ++ r, p :: fs, ?_, ?_, hframe, ?_⟩
    · simp only [if_pos hlt, hsentinel, bind_ok, hnext, deref_some, hwalk, hremove,
        List.getElem?_eq_getElem hn]
    · rw [if_pos hlt, List.eraseIdx_eq_take_drop_succ]
      exact hh'
    · simp only [List.length_append, List.length_cons]
      omega
  · simp only [if_neg hlt]
    exact ⟨h, lld, ns, fs, rfl, hh, .refl h _, rfl⟩

theorem llRemoveFirst_spec (hh : Holds h lld ns fs xs) :
    ∃ h' lld' ns' fs', llRemoveFirst h lld = .ok (h', lld', xs.head?) ∧
      Holds h' lld' ns' fs' xs.tail ∧ h.Frame h' (cellsOf lld ns fs) (cellsOf lld' ns' fs') ∧
      ns'.length + fs'.length = ns.length + fs.length := by
  obtain ⟨sentinel, hsentinel, hnext⟩ := read_sentinel_next hh
  cases ns with
  | nil =>
      have hxs : xs = [] := List.length_eq_zero_iff.mp (by simpa using hh.length_eq.symm)
      subst hxs
      refine ⟨h, lld, [], fs, ?_, hh, .refl h _, rfl⟩
      simp [llRemoveFirst, hsentinel, hnext]
  | cons p r =>
      obtain ⟨e, xs', rfl⟩ := List.exists_cons_of_length_eq_add_one hh.length_eq.symm
      have hp : p ≠ lld.sentinel := (List.ne_of_not_mem_cons (sentinel_notMem hh)).symm
      have hsplit : Holds h lld ([] ++ p :: r) fs ([] ++ e :: xs') := hh
      obtain ⟨h', lld', hremove, hh', hframe⟩ := removeEntry_spec hsplit rfl
      refine ⟨h', lld', r, p :: fs, ?_, hh', hframe, ?_⟩
      · simp [llRemoveFirst, hsentinel, hnext, hp, hremove]
      · simp only [List.length_cons]
        omega

theorem llRemoveLast_spec (hh : Holds h lld ns fs xs) :
    ∃ h' lld' ns' fs', llRemoveLast h lld = .ok (h', lld', xs.getLast?) ∧
      Holds h' lld' ns' fs' xs.dropLast ∧ h.Frame h' (cellsOf lld ns fs) (cellsOf lld' ns' fs') ∧
      ns'.length + fs'.length = ns.length + fs.length := by
  obtain ⟨sentinel, hsentinel, hprev⟩ := read_sentinel_prev hh
  rcases ns.eq_nil_or_concat' with rfl | ⟨l, p, rfl⟩
  · have hxs : xs = [] := List.length_eq_zero_iff.mp (by simpa using hh.length_eq.symm)
    subst hxs
    refine ⟨h, lld, [], fs, ?_, hh, .refl h _, rfl⟩
    simp [llRemoveLast, hsentinel, hprev]
  · rcases xs.eq_nil_or_concat' with rfl | ⟨xs', e, rfl⟩
    · simpa using hh.length_eq
    · have hp : p ≠ lld.sentinel := by
        rintro rfl
        exact sentinel_notMem hh (by simp)
      have hlen : l.length = xs'.length := by simpa using hh.length_eq
      obtain ⟨h', lld', hremove, hh', hframe⟩ := removeEntry_spec hh hlen
      rw [List.append_nil, List.append_nil] at hh'
      rw [List.append_nil] at hframe
      refine ⟨h', lld', l, p :: fs, ?_, ?_, hframe, ?_⟩
      · simp [llRemoveLast, hsentinel, hprev, hp, hremove]
      · rw [List.dropLast_concat]
        exact hh'
      · simp only [List.length_append, List.length_cons, List.length_nil]
        omega

end CliMessaging.Standalone.LinkedList
