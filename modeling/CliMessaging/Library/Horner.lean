import Mathlib.Algebra.Order.Ring.Int
import Mathlib.Data.Int.DivMod
import Mathlib.Data.List.Induction
import Mathlib.Tactic.Ring

/-! # Horner's scheme with a truncating remainder

The remainder of C has the sign of its dividend. Taken after each step of Horner's scheme,
it leaves the least residue of the value or the residue below it. -/

namespace CliMessaging.Horner

variable {b N d : ℤ} {ds : List ℤ}

/-- The number with the digits `ds` in base `b`, the first digit first. -/
def value (b : ℤ) (ds : List ℤ) : ℤ := ds.foldl (fun v d => b * v + d) 0

/-- The same scheme with the remainder by `N` taken at each step. -/
def truncated (b N : ℤ) (ds : List ℤ) : ℤ := ds.foldl (fun v d => (b * v + d).tmod N) 0

def residue (b N : ℤ) (ds : List ℤ) : ℤ := value b ds % N

/-- After the digits `ds`, the digit `d` takes a non-negative remainder below zero. -/
def Drops (b N : ℤ) (ds : List ℤ) (d : ℤ) : Prop := b * residue b N ds + d < 0

/-- After the digits `ds`, the digit `d` takes a negative remainder back up. -/
def Rises (b N : ℤ) (ds : List ℤ) (d : ℤ) : Prop := b * (N - residue b N ds) ≤ d

/-- Some digit takes the remainder below zero, and after it the value is never a multiple
of `N` and no digit takes the remainder back up. -/
def Sinks (b N : ℤ) (ds : List ℤ) : Prop :=
  ∃ p d q, ds = p ++ d :: q ∧ Drops b N p d ∧
    ∀ q₁ q₂, q = q₁ ++ q₂ → residue b N (p ++ d :: q₁) ≠ 0 ∧
      ∀ e ∈ q₂.head?, ¬Rises b N (p ++ d :: q₁) e

theorem residue_nonneg (hN : 0 < N) : 0 ≤ residue b N ds := Int.emod_nonneg _ hN.ne'

theorem residue_lt (hN : 0 < N) : residue b N ds < N := Int.emod_lt_of_pos _ hN

@[simp] theorem value_append_singleton (b : ℤ) (ds : List ℤ) (d : ℤ) :
    value b (ds ++ [d]) = b * value b ds + d := by
  simp [value]

@[simp] theorem truncated_append_singleton (b N : ℤ) (ds : List ℤ) (d : ℤ) :
    truncated b N (ds ++ [d]) = (b * truncated b N ds + d).tmod N := by
  simp [truncated]

theorem residue_append_singleton (b N : ℤ) (ds : List ℤ) (d : ℤ) :
    residue b N (ds ++ [d]) = (b * residue b N ds + d) % N := by
  simp [residue, Int.add_emod, Int.mul_emod]

theorem not_sinks_nil : ¬Sinks b N [] := by
  rintro ⟨p, d, q, h, -⟩
  simp at h

theorem sinks_append_singleton : Sinks b N (ds ++ [d]) ↔
    residue b N (ds ++ [d]) ≠ 0 ∧ (Drops b N ds d ∨ Sinks b N ds ∧ ¬Rises b N ds d) := by
  constructor
  · rintro ⟨p, e, q, hsplit, hdrop, hlater⟩
    induction q using List.reverseRecOn with
    | nil =>
        obtain ⟨rfl, hd⟩ := List.append_inj' hsplit rfl
        obtain rfl : d = e := by simpa using hd
        exact ⟨(hlater [] [] rfl).1, .inl hdrop⟩
    | append_singleton q last _ =>
        rw [← List.cons_append, ← List.append_assoc] at hsplit
        obtain ⟨rfl, hd⟩ := List.append_inj' hsplit rfl
        obtain rfl : d = last := by simpa using hd
        have hend := (hlater (q ++ [d]) [] (by simp)).1
        refine ⟨by simpa using hend, .inr ⟨⟨p, e, q, rfl, hdrop, ?_⟩, ?_⟩⟩
        · intro q₁ q₂ hq
          obtain ⟨hne, hrise⟩ := hlater q₁ (q₂ ++ [d]) (by rw [hq, List.append_assoc])
          refine ⟨hne, fun x hx => hrise x ?_⟩
          cases q₂ with
          | nil => simp at hx
          | cons y q₂ => simpa using hx
        · exact (hlater q [d] rfl).2 d rfl
  · rintro ⟨hne, hdrop | ⟨⟨p, e, q, rfl, hdrop, hlater⟩, hrise⟩⟩
    · refine ⟨ds, d, [], rfl, hdrop, ?_⟩
      intro q₁ q₂ hq
      obtain ⟨rfl, rfl⟩ := List.append_eq_nil_iff.mp hq.symm
      exact ⟨hne, by simp⟩
    · refine ⟨p, e, q ++ [d], by simp, hdrop, ?_⟩
      intro q₁ q₂ hq
      induction q₂ using List.reverseRecOn with
      | nil =>
          rw [List.append_nil] at hq
          subst hq
          exact ⟨by simpa using hne, by simp⟩
      | append_singleton q₂ last _ =>
          rw [← List.append_assoc] at hq
          obtain ⟨rfl, hd⟩ := List.append_inj' hq rfl
          obtain rfl : d = last := by simpa using hd
          obtain ⟨hne', hrise'⟩ := hlater q₁ q₂ rfl
          refine ⟨hne', ?_⟩
          cases q₂ with
          | nil => simpa using hrise
          | cons y q₂ => simpa using hrise'

/-- A negative dividend leaves the residue below the least one, unless `N` divides it. -/
theorem tmod_eq {v : ℤ} (hN : 0 < N) :
    (v % N ≠ 0 ∧ v < 0 → v.tmod N = v % N - N) ∧
      (¬(v % N ≠ 0 ∧ v < 0) → v.tmod N = v % N) := by
  have hdvd : N ∣ v ↔ v % N = 0 := Int.dvd_iff_emod_eq_zero
  rw [Int.tmod_eq_emod]
  constructor
  · intro h
    rw [if_neg (by omega), Int.natAbs_of_nonneg hN.le]
  · intro h
    rw [if_pos (by omega), Nat.cast_zero, sub_zero]

/-- The remainder that the scheme leaves. -/
theorem truncated_eq (hb : 0 ≤ b) (hN : 0 < N) (ds : List ℤ) :
    (Sinks b N ds → truncated b N ds = residue b N ds - N) ∧
      (¬Sinks b N ds → truncated b N ds = residue b N ds) := by
  induction ds using List.reverseRecOn with
  | nil => simp [not_sinks_nil, truncated, residue, value]
  | append_singleton ds d ih =>
      have hres := residue_append_singleton b N ds d
      have hlow : b * (residue b N ds - N) + d = b * residue b N ds + d - b * N := by ring
      have hgap : b * (N - residue b N ds) = b * N - b * residue b N ds := by ring
      have hbN : 0 ≤ b * N := mul_nonneg hb hN.le
      have hdividend : (b * truncated b N ds + d) % N = residue b N (ds ++ [d]) ∧
          (b * truncated b N ds + d < 0 ↔
            Drops b N ds d ∨ Sinks b N ds ∧ ¬Rises b N ds d) := by
        by_cases hs : Sinks b N ds
        · rw [ih.1 hs, hlow, Int.sub_mul_emod_self_right, hres]
          refine ⟨rfl, ?_⟩
          simp only [Drops, Rises, hs, true_and, hgap]
          omega
        · rw [ih.2 hs, hres]
          simp [Drops, hs]
      have hnext := tmod_eq (v := b * truncated b N ds + d) hN
      rw [hdividend.1, hdividend.2] at hnext
      rw [sinks_append_singleton, truncated_append_singleton]
      exact hnext

/-- The remainder lies between 0 and `N - 1` exactly when it has not sunk. -/
theorem truncated_mem_range_iff (hb : 0 ≤ b) (hN : 0 < N) (ds : List ℤ) :
    0 ≤ truncated b N ds ∧ truncated b N ds < N ↔ ¬Sinks b N ds := by
  have hnonneg : 0 ≤ residue b N ds := residue_nonneg hN
  have hlt : residue b N ds < N := residue_lt hN
  obtain ⟨hsunk, hup⟩ := truncated_eq hb hN ds
  constructor
  · intro hrange hs
    have h := hsunk hs
    omega
  · intro hs
    rw [hup hs]
    exact ⟨hnonneg, hlt⟩

/-- Without negative digits no remainder is negative. -/
theorem not_sinks_of_nonneg (hb : 0 ≤ b) (hN : 0 < N) (h : ∀ d ∈ ds, 0 ≤ d) :
    ¬Sinks b N ds := by
  rintro ⟨p, d, q, rfl, hdrop, -⟩
  have hd : 0 ≤ d := h d (by simp)
  have hres : 0 ≤ b * residue b N p := mul_nonneg hb (residue_nonneg hN)
  rw [Drops] at hdrop
  omega

end CliMessaging.Horner
