import Mathlib.Data.List.Nodup
import Mathlib.Logic.Function.Basic
import Mathlib.Order.Basic

/-! # Objects behind pointers

A pointer is a natural number, and an object that was never allocated or has been
freed is `none`. Following a null or a dangling pointer is a fault, and so is an
exception that nobody catches. -/

namespace CliMessaging

inductive Fault where
  | nullPointer
  | danglingPointer
  | outOfRange
  deriving DecidableEq, Repr

/-- Following a pointer that the code may have left null. -/
def deref {β : Type} : Option β → Except Fault β
  | none => .error .nullPointer
  | some b => .ok b

@[simp] theorem deref_none {β : Type} : deref (none : Option β) = .error .nullPointer := rfl

@[simp] theorem deref_some {β : Type} (b : β) : deref (some b) = .ok b := rfl

@[simp] theorem bind_ok {α β : Type} (a : α) (f : α → Except Fault β) :
    (Except.ok a >>= f) = f a := rfl

@[simp] theorem bind_error {α β : Type} (x : Fault) (f : α → Except Fault β) :
    (Except.error x >>= f) = .error x := rfl

@[simp] theorem pure_eq_ok {α : Type} (a : α) : (pure a : Except Fault α) = .ok a := rfl

theorem bind_eq_ok {α β : Type} {x : Except Fault α} {f : α → Except Fault β} {b : β} :
    (x >>= f) = .ok b ↔ ∃ a, x = .ok a ∧ f a = .ok b := by
  cases x <;> simp

/-- Allocation is modelled as never handing out a pointer twice. -/
structure Heap (α : Type) where
  cells : ℕ → Option α
  next : ℕ
  fresh : ∀ p, next ≤ p → cells p = none

namespace Heap

variable {α β : Type}

def empty : Heap α := ⟨fun _ => none, 0, fun _ _ => rfl⟩

/-- The new object lives at `h.next`. -/
def alloc (h : Heap α) (a : α) : Heap α where
  cells := Function.update h.cells h.next (some a)
  next := h.next + 1
  fresh p hp := by
    rw [Function.update_of_ne (by omega)]
    exact h.fresh p (by omega)

def read (h : Heap α) (p : ℕ) : Except Fault α :=
  match h.cells p with
  | none => .error .danglingPointer
  | some a => .ok a

def write (h : Heap α) (p : ℕ) (a : α) : Except Fault (Heap α) :=
  match hp : h.cells p with
  | none => .error .danglingPointer
  | some _ => .ok {
      cells := Function.update h.cells p (some a)
      next := h.next
      fresh := fun q hq => by
        rw [Function.update_of_ne, h.fresh q hq]
        rintro rfl
        rw [h.fresh q hq] at hp
        cases hp }

def modify (h : Heap α) (p : ℕ) (f : α → α) : Except Fault (Heap α) := do
  let a ← h.read p
  h.write p (f a)

def free (h : Heap α) (p : ℕ) : Except Fault (Heap α) := do
  let _ ← h.read p
  return {
    cells := Function.update h.cells p none
    next := h.next
    fresh := fun q hq => by
      rcases eq_or_ne q p with rfl | hqp
      · simp
      · rw [Function.update_of_ne hqp, h.fresh q hq] }

/-- The objects behind a list of pointers, paired with their pointers. -/
def readAll (h : Heap α) : List ℕ → Except Fault (List (ℕ × α))
  | [] => .ok []
  | p :: ps => do
      let a ← h.read p
      let rest ← h.readAll ps
      return (p, a) :: rest

def modifyAll (h : Heap α) (f : α → α) : List ℕ → Except Fault (Heap α)
  | [] => .ok h
  | p :: ps => do
      let h' ← h.modify p f
      h'.modifyAll f ps

/-! ## Reading and writing live objects -/

@[simp] theorem cells_alloc (h : Heap α) (a : α) :
    (h.alloc a).cells = Function.update h.cells h.next (some a) := rfl

theorem ne_next {h : Heap α} {p : ℕ} {a : α} (hp : h.cells p = some a) : p ≠ h.next := by
  rintro rfl
  rw [h.fresh _ (Nat.le_refl _)] at hp
  cases hp

theorem read_eq_ok {h : Heap α} {p : ℕ} {a : α} : h.read p = .ok a ↔ h.cells p = some a := by
  unfold read
  cases h.cells p <;> simp

theorem write_of_live {h : Heap α} {p : ℕ} {a : α} (hp : h.cells p = some a) (b : α) :
    ∃ h', h.write p b = .ok h' ∧ h'.cells = Function.update h.cells p (some b) ∧
      h'.next = h.next := by
  unfold write
  split
  · rename_i hn
    rw [hp] at hn
    cases hn
  · exact ⟨_, rfl, rfl, rfl⟩

theorem modify_of_live {h : Heap α} {p : ℕ} {a : α} (hp : h.cells p = some a) (f : α → α) :
    ∃ h', h.modify p f = .ok h' ∧ h'.cells = Function.update h.cells p (some (f a)) ∧
      h'.next = h.next := by
  obtain ⟨h', hw, hc⟩ := write_of_live hp (f a)
  exact ⟨h', by simp [modify, read_eq_ok.mpr hp, hw], hc⟩

theorem free_of_live {h : Heap α} {p : ℕ} {a : α} (hp : h.cells p = some a) :
    ∃ h', h.free p = .ok h' ∧ h'.cells = Function.update h.cells p none ∧
      h'.next = h.next := by
  simp only [free, read_eq_ok.mpr hp, bind_ok, pure_eq_ok, Except.ok.injEq]
  exact ⟨_, rfl, rfl, rfl⟩

/-! ## Lists of live objects -/

/-- Every pointer of the list leads to an object. -/
def Live (h : Heap α) (ps : List ℕ) : Prop :=
  ∀ p ∈ ps, ∃ a, h.cells p = some a

/-- The objects behind live pointers, as a function of the heap. -/
def objects (h : Heap α) (ps : List ℕ) : List (ℕ × α) :=
  ps.filterMap fun p => (h.cells p).map fun a => (p, a)

theorem mem_objects {h : Heap α} {ps : List ℕ} {p : ℕ} {a : α} :
    (p, a) ∈ h.objects ps ↔ p ∈ ps ∧ h.cells p = some a := by
  simp only [objects, List.mem_filterMap, Option.map_eq_some_iff, Prod.mk.injEq]
  constructor
  · rintro ⟨q, hq, b, hb, rfl, rfl⟩
    exact ⟨hq, hb⟩
  · rintro ⟨hp, ha⟩
    exact ⟨p, hp, a, ha, rfl, rfl⟩

theorem readAll_of_live {h : Heap α} {ps : List ℕ} (hl : h.Live ps) :
    h.readAll ps = .ok (h.objects ps) := by
  induction ps with
  | nil => rfl
  | cons p ps ih =>
      obtain ⟨a, ha⟩ := hl p (by simp)
      have hrest := ih (fun q hq => hl q (by simp [hq]))
      simp [readAll, read_eq_ok.mpr ha, hrest, objects, ha]

/-- The pointers to the objects that pass a test. -/
theorem filter_objects_map_fst (h : Heap α) (test : α → Bool) (ps : List ℕ) :
    ((h.objects ps).filter fun c => test c.2).map Prod.fst =
      ps.filter fun p => (h.cells p).any test := by
  induction ps with
  | nil => rfl
  | cons p ps ih =>
      cases hp : h.cells p with
      | none =>
          have hskip : h.objects (p :: ps) = h.objects ps := by
            simp [objects, hp]
          rw [hskip, ih, List.filter_cons, hp, Option.any_none, if_neg Bool.false_ne_true]
      | some a =>
          have hcons : h.objects (p :: ps) = (p, a) :: h.objects ps := by
            simp [objects, hp]
          rw [hcons, List.filter_cons, List.filter_cons, hp, Option.any_some]
          cases test a
          · exact ih
          · exact congrArg (List.cons p) ih

/-- Modifying distinct live objects changes exactly those objects. -/
theorem modifyAll_of_live {h : Heap α} {ps : List ℕ} (f : α → α) (hl : h.Live ps)
    (hnd : ps.Nodup) :
    ∃ h', h.modifyAll f ps = .ok h' ∧ h'.next = h.next ∧
      ∀ p, h'.cells p = if p ∈ ps then (h.cells p).map f else h.cells p := by
  induction ps generalizing h with
  | nil => exact ⟨h, rfl, rfl, by simp⟩
  | cons q ps ih =>
      obtain ⟨hq, hnd⟩ := List.nodup_cons.mp hnd
      obtain ⟨a, ha⟩ := hl q (by simp)
      obtain ⟨h₁, hmod, hcells, hnext⟩ := modify_of_live ha f
      have hlive : h₁.Live ps := by
        intro p hp
        obtain ⟨b, hb⟩ := hl p (by simp [hp])
        refine ⟨b, ?_⟩
        rw [hcells, Function.update_of_ne (by rintro rfl; exact hq hp), hb]
      obtain ⟨h₂, hrest, hnext₂, hcells₂⟩ := ih hlive hnd
      refine ⟨h₂, by simp [modifyAll, hmod, hrest], hnext₂.trans hnext, ?_⟩
      intro p
      rw [hcells₂ p, hcells]
      by_cases hpq : p = q
      · subst hpq
        simp [hq, ha]
      · simp [hpq]

end Heap

end CliMessaging
