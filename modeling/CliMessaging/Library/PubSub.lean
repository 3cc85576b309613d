import Mathlib.Data.Set.Insert

/-! # Sessions and subscriptions

What a relay that passes on messages by topic keeps. Its clients log in at their addresses
under names, and the names subscribe to topics. A subscription belongs to the name and
outlives the session. -/

namespace CliMessaging.PubSub

variable {Name Addr Topic Time : Type*}

/-! ## Sessions -/

/-- A client that is logged in, and when it was last heard. -/
@[ext] structure Session (Name Addr Time : Type*) where
  name : Name
  addr : Addr
  lastSeen : Time

/-- No two sessions share a name or an address. -/
def OneToOne (S : Set (Session Name Addr Time)) : Prop :=
  ∀ v ∈ S, ∀ w ∈ S, v.name = w.name ∨ v.addr = w.addr → v = w

namespace OneToOne

variable {S S' : Set (Session Name Addr Time)}

theorem empty : OneToOne (∅ : Set (Session Name Addr Time)) := fun _ hv => hv.elim

theorem mono (h : OneToOne S) (hsub : S' ⊆ S) : OneToOne S' :=
  fun v hv w hw => h v (hsub hv) w (hsub hw)

theorem insert (h : OneToOne S) {u : Session Name Addr Time}
    (hfresh : ∀ v ∈ S, v.name ≠ u.name ∧ v.addr ≠ u.addr) : OneToOne (insert u S) := by
  rintro v (rfl | hv) w (rfl | hw) hshared
  · rfl
  · rcases hshared with hname | haddr
    · exact absurd hname.symm (hfresh w hw).1
    · exact absurd haddr.symm (hfresh w hw).2
  · rcases hshared with hname | haddr
    · exact absurd hname (hfresh v hv).1
    · exact absurd haddr (hfresh v hv).2
  · exact h v hv w hw hshared

/-- A map that keeps the names and the addresses of the sessions. -/
theorem image (h : OneToOne S) {f : Session Name Addr Time → Session Name Addr Time}
    (hname : ∀ v, (f v).name = v.name) (haddr : ∀ v, (f v).addr = v.addr) :
    OneToOne (f '' S) := by
  rintro _ ⟨v, hv, rfl⟩ _ ⟨w, hw, rfl⟩ hshared
  rw [hname, hname, haddr, haddr] at hshared
  rw [h v hv w hw hshared]

end OneToOne

/-- The session as it is after a sign of life from its client. -/
def Session.seenAt (v : Session Name Addr Time) (t : Time) : Session Name Addr Time :=
  { v with lastSeen := t }

/-- A sign of life from the address `a`. -/
def Session.touch [DecidableEq Addr] (a : Addr) (t : Time) (v : Session Name Addr Time) :
    Session Name Addr Time :=
  if v.addr = a then v.seenAt t else v

@[simp] theorem Session.touch_name [DecidableEq Addr] (a : Addr) (t : Time)
    (v : Session Name Addr Time) : (v.touch a t).name = v.name := by
  unfold touch
  split <;> rfl

@[simp] theorem Session.touch_addr [DecidableEq Addr] (a : Addr) (t : Time)
    (v : Session Name Addr Time) : (v.touch a t).addr = v.addr := by
  unfold touch
  split <;> rfl

/-! ## The service -/

@[ext] structure Service (Name Addr Topic Time : Type*) where
  sessions : Set (Session Name Addr Time)
  oneToOne : OneToOne sessions
  subscriptions : Set (Topic × Name)

namespace Service

def initial : Service Name Addr Topic Time := ⟨∅, .empty, ∅⟩

/-- The names that are logged in at an address, of which there is at most one. -/
def namesAt (s : Service Name Addr Topic Time) (a : Addr) : Set Name :=
  {n | ∃ v ∈ s.sessions, v.name = n ∧ v.addr = a}

/-- The addresses at which the subscribers of a topic are logged in. -/
def receivers (s : Service Name Addr Topic Time) (topic : Topic) : Set Addr :=
  {b | ∃ n ∈ s.namesAt b, (topic, n) ∈ s.subscriptions}

theorem oneToOne_retain (s : Service Name Addr Topic Time)
    (keep : Session Name Addr Time → Prop) : OneToOne {v | v ∈ s.sessions ∧ keep v} :=
  s.oneToOne.mono fun _ hv => hv.1

/-- Only sessions that satisfy `keep` go on. -/
def retain (s : Service Name Addr Topic Time) (keep : Session Name Addr Time → Prop) :
    Service Name Addr Topic Time :=
  { s with
    sessions := {v | v ∈ s.sessions ∧ keep v}
    oneToOne := s.oneToOne_retain keep }

theorem oneToOne_login (s : Service Name Addr Topic Time) (n : Name) (a : Addr) (t : Time) :
    OneToOne (insert ⟨n, a, t⟩ (s.retain fun v => v.name ≠ n ∧ v.addr ≠ a).sessions) :=
  (s.retain fun v => v.name ≠ n ∧ v.addr ≠ a).oneToOne.insert fun _ hv => hv.2

/-- A login ends every session with its name or at its address. -/
def login (s : Service Name Addr Topic Time) (n : Name) (a : Addr) (t : Time) :
    Service Name Addr Topic Time :=
  { s with
    sessions := insert ⟨n, a, t⟩ (s.retain fun v => v.name ≠ n ∧ v.addr ≠ a).sessions
    oneToOne := s.oneToOne_login n a t }

def logout (s : Service Name Addr Topic Time) (a : Addr) : Service Name Addr Topic Time :=
  s.retain fun v => v.addr ≠ a

theorem oneToOne_heard [DecidableEq Addr] (s : Service Name Addr Topic Time) (a : Addr)
    (t : Time) : OneToOne (Session.touch a t '' s.sessions) :=
  s.oneToOne.image (Session.touch_name a t) (Session.touch_addr a t)

/-- A sign of life from an address. -/
def heard [DecidableEq Addr] (s : Service Name Addr Topic Time) (a : Addr) (t : Time) :
    Service Name Addr Topic Time :=
  { s with
    sessions := Session.touch a t '' s.sessions
    oneToOne := s.oneToOne_heard a t }

/-- The name at an address, if there is one, subscribes to a topic. -/
def subscribe (s : Service Name Addr Topic Time) (a : Addr) (topic : Topic) :
    Service Name Addr Topic Time :=
  { s with subscriptions := s.subscriptions ∪ {topic} ×ˢ s.namesAt a }

def unsubscribe (s : Service Name Addr Topic Time) (a : Addr) (topic : Topic) :
    Service Name Addr Topic Time :=
  { s with subscriptions := s.subscriptions \ {topic} ×ˢ s.namesAt a }

variable {s : Service Name Addr Topic Time} {a : Addr} {n : Name} {t : Time} {topic : Topic}
  {v : Session Name Addr Time}

@[simp] theorem mem_retain {keep : Session Name Addr Time → Prop} :
    v ∈ (s.retain keep).sessions ↔ v ∈ s.sessions ∧ keep v := Iff.rfl

@[simp] theorem mem_login : v ∈ (s.login n a t).sessions ↔
    v = ⟨n, a, t⟩ ∨ v ∈ s.sessions ∧ v.name ≠ n ∧ v.addr ≠ a := Iff.rfl

@[simp] theorem mem_logout : v ∈ (s.logout a).sessions ↔ v ∈ s.sessions ∧ v.addr ≠ a := Iff.rfl

theorem mem_heard [DecidableEq Addr] : v ∈ (s.heard a t).sessions ↔
    v ∈ s.sessions ∧ v.addr ≠ a ∨ ∃ w ∈ s.sessions, w.addr = a ∧ v = w.seenAt t := by
  constructor
  · rintro ⟨w, hw, rfl⟩
    by_cases ha : w.addr = a
    · exact .inr ⟨w, hw, ha, if_pos ha⟩
    · rw [Session.touch, if_neg ha]
      exact .inl ⟨hw, ha⟩
  · rintro (⟨hv, ha⟩ | ⟨w, hw, ha, rfl⟩)
    · exact ⟨v, hv, if_neg ha⟩
    · exact ⟨w, hw, if_pos ha⟩

@[simp] theorem namesAt_heard [DecidableEq Addr] (b : Addr) :
    (s.heard b t).namesAt a = s.namesAt a := by
  ext n
  constructor
  · rintro ⟨_, ⟨w, hw, rfl⟩, rfl, rfl⟩
    exact ⟨w, hw, (w.touch_name b t).symm, (w.touch_addr b t).symm⟩
  · rintro ⟨w, hw, rfl, rfl⟩
    exact ⟨_, ⟨w, hw, rfl⟩, w.touch_name b t, w.touch_addr b t⟩

end Service

end CliMessaging.PubSub
