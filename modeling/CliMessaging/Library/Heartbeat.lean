import Mathlib.Order.Nat

/-! # Heartbeats

A party that wakes up once in a period `P` and then sends something, unless it has sent
something since it last woke up. So it may have sent something right after it woke up, wake
up once without sending, and send again after two periods, but not later. -/

namespace CliMessaging.Heartbeat

/-- At the time `now`, the party has last sent something at `last` and wakes up at `next`.
It remembers in `active` whether it has sent something since it last woke up. -/
structure Pace (P last now next : ℕ) (active : Bool) : Prop where
  heard : last ≤ now
  awake : now ≤ next
  soon : next ≤ now + P
  pause : next ≤ last + 2 * P
  recent_of_active : active = true → next ≤ last + P

namespace Pace

variable {P last now next : ℕ} {active : Bool}

theorem recent (h : Pace P last now next active) : now ≤ last + 2 * P :=
  h.awake.trans h.pause

/-- The party starts by sending something. -/
theorem start (P now : ℕ) (active : Bool) : Pace P now now (now + P) active where
  heard := le_rfl
  awake := Nat.le_add_right now P
  soon := le_rfl
  pause := by omega
  recent_of_active _ := le_rfl

/-- Time passes, but the party wakes up in time. -/
theorem wait (h : Pace P last now next active) {later : ℕ} (hlater : now ≤ later)
    (hnext : later ≤ next) : Pace P last later next active where
  heard := h.heard.trans hlater
  awake := hnext
  soon := h.soon.trans (Nat.add_le_add_right hlater P)
  pause := h.pause
  recent_of_active := h.recent_of_active

/-- The party sends something. -/
theorem send (h : Pace P last now next active) (active' : Bool) : Pace P now now next active' where
  heard := le_rfl
  awake := h.awake
  soon := h.soon
  pause := by
    have hsoon := h.soon
    omega
  recent_of_active _ := h.soon

/-- The party wakes up and need not send anything. -/
theorem wake (h : Pace P last now next true) (hnow : now = next) :
    Pace P last now (next + P) false where
  heard := h.heard
  awake := hnow.le.trans (Nat.le_add_right next P)
  soon := by rw [hnow]
  pause := by
    have hrecent := h.recent_of_active rfl
    omega
  recent_of_active hactive := by cases hactive

/-- The party wakes up and sends something. -/
theorem beat (hnow : now = next) : Pace P now now (next + P) active := by
  rw [← hnow]
  exact start P now active

end Pace

end CliMessaging.Heartbeat
