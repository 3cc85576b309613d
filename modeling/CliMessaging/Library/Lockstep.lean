import CliMessaging.Library.Heap

/-! # Computations in lockstep

Two fallible computations are in lockstep when they fail alike or give related results. The
rules follow the shape of the code: a sequence is in lockstep when its parts are. -/

namespace CliMessaging

variable {α β γ δ : Type}

inductive Lockstep (R : α → β → Prop) : Except Fault α → Except Fault β → Prop where
  | ok {a b} (h : R a b) : Lockstep R (.ok a) (.ok b)
  | error (e) : Lockstep R (.error e) (.error e)

namespace Lockstep

variable {R R' : α → β → Prop} {S : γ → δ → Prop} {x : Except Fault α} {y : Except Fault β}
  {f : α → Except Fault γ} {g : β → Except Fault δ}

theorem bind (h : Lockstep R x y) (hfg : ∀ a b, R a b → Lockstep S (f a) (g b)) :
    Lockstep S (x >>= f) (y >>= g) := by
  cases h with
  | ok hab => exact hfg _ _ hab
  | error e => exact .error e

theorem mono (h : Lockstep R x y) (hsub : ∀ a b, R a b → R' a b) : Lockstep R' x y := by
  cases h with
  | ok hab => exact .ok (hsub _ _ hab)
  | error e => exact .error e

/-- A computation is in lockstep with itself. -/
theorem bind_same {g : α → Except Fault δ} (hfg : ∀ a, x = .ok a → Lockstep S (f a) (g a)) :
    Lockstep S (x >>= f) (x >>= g) := by
  cases x with
  | ok a => exact hfg a rfl
  | error e => exact .error e

/-- The results are those of the two computations. -/
theorem with_eq (h : Lockstep R x y) : Lockstep (fun a b => R a b ∧ x = .ok a ∧ y = .ok b) x y := by
  cases h with
  | ok hab => exact .ok ⟨hab, rfl, rfl⟩
  | error e => exact .error e

theorem exists_left {b : β} (h : Lockstep R x (.ok b)) : ∃ a, x = .ok a ∧ R a b := by
  cases h with
  | ok hab => exact ⟨_, rfl, hab⟩

theorem exists_right {a : α} (h : Lockstep R (.ok a) y) : ∃ b, y = .ok b ∧ R a b := by
  cases h with
  | ok hab => exact ⟨_, rfl, hab⟩

end Lockstep

end CliMessaging
