import Mathlib.Data.List.Chain
import Mathlib.Data.List.Nodup

/-! # Linked cells

A field of a cell is a function of the pointer to the cell, `none` where there is no cell. A
ring is a list linked both ways and closed by a sentinel, a chain is linked one way and ends
in a null pointer. -/

namespace CliMessaging.Linked

variable {π : Type*} {next next' prev prev' : π → Option (Option π)}

/-! ## Rings -/

/-- Each of the two cells leads to the other. -/
def Link (next prev : π → Option (Option π)) (x y : π) : Prop :=
  next x = some (some y) ∧ prev y = some (some x)

/-- The cells `ps` and the sentinel `s` behind them, in the order of `next`. -/
def Ring (next prev : π → Option (Option π)) (s : π) (ps : List π) : Prop :=
  List.IsChain (Link next prev) (s :: ps ++ [s])

/-- Where a cell between `l` and what follows them hangs: the sentinel stands before the
first cell. -/
def before (s : π) (l : List π) : π := l.getLast?.getD s

/-- The sentinel stands behind the last cell as well. -/
def after (s : π) (r : List π) : π := r.head?.getD s

@[simp] theorem before_nil (s : π) : before s [] = s := rfl

@[simp] theorem before_concat (s p : π) (l : List π) : before s (l ++ [p]) = p := by
  simp [before]

@[simp] theorem after_nil (s : π) : after s [] = s := rfl

@[simp] theorem after_cons (s p : π) (r : List π) : after s (p :: r) = p := rfl

theorem before_mem (s : π) (l : List π) : before s l ∈ s :: l := by
  rcases l.eq_nil_or_concat with rfl | ⟨l, p, rfl⟩ <;> simp

theorem after_mem (s : π) (r : List π) : after s r ∈ s :: r := by
  cases r <;> simp

/-- The links of a list read `next` at every cell but the last and `prev` at every cell but
the first. -/
theorem isChain_congr {ps : List π} (h : ps.IsChain (Link next prev))
    (hnext : ∀ p ∈ ps.dropLast, next' p = next p) (hprev : ∀ p ∈ ps.tail, prev' p = prev p) :
    ps.IsChain (Link next' prev') := by
  induction ps with
  | nil => exact .nil
  | cons p ps ih =>
      cases ps with
      | nil => exact .singleton p
      | cons q ps =>
          rw [List.isChain_cons_cons] at h ⊢
          obtain ⟨⟨hn, hp⟩, hrest⟩ := h
          refine ⟨⟨(hnext p (by simp)).trans hn, (hprev q (by simp)).trans hp⟩, ?_⟩
          exact ih hrest (fun x hx => hnext x (by simp [hx]))
            (fun x hx => hprev x (by simp [List.mem_of_mem_tail hx]))

/-- A ring cut at one of its links. -/
theorem ring_append {s : π} {l r : List π} :
    Ring next prev s (l ++ r) ↔ (s :: l).IsChain (Link next prev) ∧
      (r ++ [s]).IsChain (Link next prev) ∧ Link next prev (before s l) (after s r) := by
  have hsplit : s :: (l ++ r) ++ [s] = (s :: l) ++ (r ++ [s]) := by simp
  rw [Ring, hsplit, List.isChain_append]
  have hlast : (s :: l).getLast? = some (before s l) := by
    rw [List.getLast?_cons, before]
  have hhead : (r ++ [s]).head? = some (after s r) := by
    cases r <;> simp
  simp [hlast, hhead]

theorem Ring.link {s : π} {l r : List π} (h : Ring next prev s (l ++ r)) :
    Link next prev (before s l) (after s r) :=
  (ring_append.mp h).2.2

theorem Ring.next_sentinel {s : π} {ps : List π} (h : Ring next prev s ps) :
    next s = some (some (after s ps)) :=
  (Ring.link (l := []) h).1

theorem Ring.prev_sentinel {s : π} {ps : List π} (h : Ring next prev s ps) :
    prev s = some (some (before s ps)) :=
  (Ring.link (r := []) (by simpa using h)).2

theorem Ring.next_eq {s p : π} {l r : List π} (h : Ring next prev s (l ++ p :: r)) :
    next p = some (some (after s r)) := by
  have hlink := Ring.link (l := l ++ [p]) (r := r) (by simpa using h)
  rw [before_concat] at hlink
  exact hlink.1

theorem Ring.prev_eq {s p : π} {l r : List π} (h : Ring next prev s (l ++ p :: r)) :
    prev p = some (some (before s l)) :=
  h.link.2

theorem ring_nil {s : π} : Ring next prev s [] ↔
    next s = some (some s) ∧ prev s = some (some s) := by
  simp [Ring, Link]

/-- Following `next` leads through the cells and on to the sentinel. -/
def Leads (next : π → Option (Option π)) (s : π) : List π → Prop
  | [] => True
  | p :: ps => next p = some (some (after s ps)) ∧ Leads next s ps

theorem Ring.leads {s : π} {l r : List π} (h : Ring next prev s (l ++ r)) : Leads next s r := by
  induction r generalizing l with
  | nil => trivial
  | cons p r ih => exact ⟨h.next_eq, ih (l := l ++ [p]) (by simpa using h)⟩

theorem Leads.congr {s : π} {ps : List π} (h : Leads next s ps)
    (hnext : ∀ p ∈ ps, next' p = next p) : Leads next' s ps := by
  induction ps with
  | nil => trivial
  | cons p ps ih =>
      exact ⟨(hnext p (by simp)).trans h.1, ih h.2 fun q hq => hnext q (by simp [hq])⟩

/-- A ring reads only its own cells. -/
theorem Ring.congr {s : π} {ps : List π} (h : Ring next prev s ps)
    (hnext : ∀ p ∈ s :: ps, next' p = next p) (hprev : ∀ p ∈ s :: ps, prev' p = prev p) :
    Ring next' prev' s ps := by
  refine isChain_congr h (fun p hp => hnext p ?_) (fun p hp => hprev p ?_)
  · rwa [List.dropLast_concat] at hp
  · simpa [or_comm] using hp

/-- The part of a ring before a cut, when only the link at the cut is redirected. -/
theorem isChain_left {s : π} {l : List π} (h : (s :: l).IsChain (Link next prev))
    (hnd : (s :: l).Nodup) (hnext : ∀ p ∈ s :: l, p ≠ before s l → next' p = next p)
    (hprev : ∀ p ∈ l, prev' p = prev p) : (s :: l).IsChain (Link next' prev') := by
  refine isChain_congr h (fun p hp => hnext p (List.dropLast_subset _ hp) ?_) hprev
  rcases l.eq_nil_or_concat' with rfl | ⟨l, q, rfl⟩
  · simp at hp
  · rw [← List.cons_append, List.dropLast_concat] at hp
    rw [before_concat]
    rintro rfl
    rw [← List.cons_append, List.nodup_append'] at hnd
    exact hnd.2.2 hp (List.mem_singleton_self p)

/-- The part of a ring behind a cut. -/
theorem isChain_right {s : π} {r : List π} (h : (r ++ [s]).IsChain (Link next prev))
    (hnd : (s :: r).Nodup) (hnext : ∀ p ∈ r, next' p = next p)
    (hprev : ∀ p ∈ s :: r, p ≠ after s r → prev' p = prev p) :
    (r ++ [s]).IsChain (Link next' prev') := by
  refine isChain_congr h (fun p hp => hnext p (by rwa [List.dropLast_concat] at hp))
    (fun p hp => hprev p ?_ ?_)
  · have hmem := List.mem_of_mem_tail hp
    simpa [or_comm] using hmem
  · cases r with
    | nil => simp at hp
    | cons q r =>
        rw [List.cons_append, List.tail_cons, List.mem_append, List.mem_singleton] at hp
        obtain ⟨hs, hq⟩ := List.nodup_cons.mp hnd
        rw [after_cons]
        rintro rfl
        rcases hp with hp | rfl
        · exact (List.nodup_cons.mp hq).1 hp
        · exact hs List.mem_cons_self

theorem before_notMem {s : π} {l r : List π} (hnd : (s :: (l ++ r)).Nodup) :
    before s l ∉ r := by
  obtain ⟨hs, hlr⟩ := List.nodup_cons.mp hnd
  intro hr
  rcases List.mem_cons.mp (before_mem s l) with heq | hl
  · rw [heq] at hr
    exact hs (List.mem_append_right l hr)
  · exact (List.nodup_append'.mp hlr).2.2 hl hr

theorem after_notMem {s : π} {l r : List π} (hnd : (s :: (l ++ r)).Nodup) :
    after s r ∉ l := by
  obtain ⟨hs, hlr⟩ := List.nodup_cons.mp hnd
  intro hl
  rcases List.mem_cons.mp (after_mem s r) with heq | hr
  · rw [heq] at hl
    exact hs (List.mem_append_left r hl)
  · exact (List.nodup_append'.mp hlr).2.2 hl hr

/-- Both parts of a ring stand when only the links at the cut are redirected. -/
theorem isChain_parts {s : π} {l r : List π} (hleft : (s :: l).IsChain (Link next prev))
    (hright : (r ++ [s]).IsChain (Link next prev)) (hnd : (s :: (l ++ r)).Nodup)
    (hnext : ∀ q ∈ s :: (l ++ r), q ≠ before s l → next' q = next q)
    (hprev : ∀ q ∈ s :: (l ++ r), q ≠ after s r → prev' q = prev q) :
    (s :: l).IsChain (Link next' prev') ∧ (r ++ [s]).IsChain (Link next' prev') := by
  have hl : (s :: l).Sublist (s :: (l ++ r)) := (List.sublist_append_left l r).cons_cons s
  have hr : (s :: r).Sublist (s :: (l ++ r)) := (List.sublist_append_right l r).cons_cons s
  constructor
  · refine isChain_left hleft (hl.nodup hnd) (fun q hq => hnext q (hl.mem hq)) ?_
    intro q hq
    exact hprev q (hl.mem (List.mem_cons_of_mem s hq)) (ne_of_mem_of_not_mem hq (after_notMem hnd))
  · refine isChain_right hright (hr.nodup hnd) ?_ (fun q hq => hprev q (hr.mem hq))
    intro q hq
    exact hnext q (hr.mem (List.mem_cons_of_mem s hq)) (ne_of_mem_of_not_mem hq (before_notMem hnd))

/-- A cell is linked in. -/
theorem Ring.insert {s p : π} {l r : List π} (h : Ring next prev s (l ++ r))
    (hnd : (s :: (l ++ r)).Nodup)
    (hbefore : Link next' prev' (before s l) p) (hafter : Link next' prev' p (after s r))
    (hnext : ∀ q ∈ s :: (l ++ r), q ≠ before s l → next' q = next q)
    (hprev : ∀ q ∈ s :: (l ++ r), q ≠ after s r → prev' q = prev q) :
    Ring next' prev' s (l ++ p :: r) := by
  obtain ⟨hleft, hright, -⟩ := ring_append.mp h
  obtain ⟨hleft', hright'⟩ := isChain_parts hleft hright hnd hnext hprev
  refine ring_append.mpr ⟨hleft', hright'.cons ?_, hbefore⟩
  intro q hq
  cases r <;> cases hq <;> exact hafter

/-- A cell is taken out. -/
theorem Ring.erase {s p : π} {l r : List π} (h : Ring next prev s (l ++ p :: r))
    (hnd : (s :: (l ++ p :: r)).Nodup)
    (hlink : Link next' prev' (before s l) (after s r))
    (hnext : ∀ q ∈ s :: (l ++ r), q ≠ before s l → next' q = next q)
    (hprev : ∀ q ∈ s :: (l ++ r), q ≠ after s r → prev' q = prev q) :
    Ring next' prev' s (l ++ r) := by
  obtain ⟨hleft, hright, -⟩ := ring_append.mp h
  have hsub : (s :: (l ++ r)).Sublist (s :: (l ++ p :: r)) :=
    ((List.sublist_cons_self p r).append_left l).cons_cons s
  obtain ⟨hleft', hright'⟩ := isChain_parts hleft hright.tail (hsub.nodup hnd) hnext hprev
  exact ring_append.mpr ⟨hleft', hright', hlink⟩

/-! ## Chains -/

/-- The cells `ps` behind the pointer `o`, in the order of `next`. -/
def Chain (next : π → Option (Option π)) : Option π → List π → Prop
  | o, [] => o = none
  | o, p :: ps => o = some p ∧ ∃ o', next p = some o' ∧ Chain next o' ps

@[simp] theorem chain_none {ps : List π} : Chain next none ps ↔ ps = [] := by
  cases ps <;> simp [Chain]

/-- A chain reads only its own cells. -/
theorem Chain.congr {o : Option π} {ps : List π} (h : Chain next o ps)
    (hnext : ∀ p ∈ ps, next' p = next p) : Chain next' o ps := by
  induction ps generalizing o with
  | nil => exact h
  | cons p ps ih =>
      obtain ⟨ho, o', hp, hps⟩ := h
      exact ⟨ho, o', (hnext p (by simp)).trans hp, ih hps fun q hq => hnext q (by simp [hq])⟩

/-- A cell is pushed. -/
theorem Chain.cons {o : Option π} {p : π} {ps : List π} (h : Chain next o ps)
    (hp : next' p = some o) (hnext : ∀ q ∈ ps, next' q = next q) :
    Chain next' (some p) (p :: ps) :=
  ⟨rfl, o, hp, h.congr hnext⟩

theorem Chain.next_eq {o : Option π} {p : π} {l r : List π} (h : Chain next o (l ++ p :: r)) :
    ∃ o', next p = some o' ∧ Chain next o' r := by
  induction l generalizing o with
  | nil => exact h.2
  | cons q l ih =>
      obtain ⟨-, o', -, hrest⟩ := h
      exact ih hrest

/-- The cell behind `q` is taken out. -/
theorem Chain.unlink {o : Option π} {p q : π} {l r : List π}
    (h : Chain next o (l ++ q :: p :: r)) (hq : next' q = next p)
    (hnext : ∀ x ∈ l ++ r, next' x = next x) : Chain next' o (l ++ q :: r) := by
  induction l generalizing o with
  | nil =>
      obtain ⟨ho, o', -, -, o'', hp, hr⟩ := h
      exact ⟨ho, o'', hq.trans hp, hr.congr hnext⟩
  | cons x l ih =>
      obtain ⟨ho, o', hx, hrest⟩ := h
      exact ⟨ho, o', (hnext x (by simp)).trans hx, ih hrest fun y hy => hnext y (by simp [hy])⟩

end CliMessaging.Linked
