import CliMessaging.Verification.Standalone.Requests
import Mathlib.Data.Set.Insert

/-! # Sessions

The directory of users represents a relation between names and addresses. -/

namespace CliMessaging.Standalone

open State Transition

/-- The names that are logged in, each with the address of its client. -/
def State.sessions (st : State) : Set (Uname × SockAddr) :=
  {s | ∃ v, st.Record v ∧ v.username = s.1 ∧ v.cliaddr = s.2}

/-- No name has two addresses and no address two names. -/
def PartialBijection {α β : Type} (R : Set (α × β)) : Prop :=
  (∀ a b b', (a, b) ∈ R → (a, b') ∈ R → b = b') ∧ ∀ a a' b, (a, b) ∈ R → (a', b) ∈ R → a = a'

variable {st st' : State} {env : Env} {input : Input} {sent : List Datagram} {p : ℕ} {u : User}
  {a b : SockAddr} {name : Uname}

/-- Requests that neither log a client in nor log it out. -/
def keepsSessions : ClientRequest → Bool
  | .login _ | .logout => false
  | _ => true

theorem keepsSessions_of_needsUser {req : ClientRequest} (h : needsUser req) :
    keepsSessions req := by
  cases req <;> first | rfl | cases h

/-! ## The relation -/

theorem mem_sessions : (name, b) ∈ st.sessions ↔
    ∃ p ∈ st.userList, ∃ v, st.users.cells p = some v ∧ v.username = name ∧ v.cliaddr = b := by
  constructor
  · rintro ⟨v, ⟨p, hp, hv⟩, hname, haddr⟩
    exact ⟨p, hp, v, hv, hname, haddr⟩
  · rintro ⟨p, hp, v, hv, hname, haddr⟩
    exact ⟨v, ⟨p, hp, hv⟩, hname, haddr⟩

namespace State

theorem Directory.partialBijection (h : st.Directory) : PartialBijection st.sessions := by
  constructor
  · intro n b b' hb hb'
    obtain ⟨p, hp, v, hv, rfl, rfl⟩ := mem_sessions.mp hb
    obtain ⟨q, hq, w, hw, hname, rfl⟩ := mem_sessions.mp hb'
    have hpq : p = q := h.eq_of_name hp hq hv hw hname.symm
    rw [hpq, hw] at hv
    cases hv
    rfl
  · intro n n' b hb hb'
    obtain ⟨p, hp, v, hv, rfl, rfl⟩ := mem_sessions.mp hb
    obtain ⟨q, hq, w, hw, rfl, haddr⟩ := mem_sessions.mp hb'
    have hkey : v.ipPort = w.ipPort := by rw [h.keyed p hp v hv, h.keyed q hq w hw, haddr]
    have hpq : p = q := h.eq_of_key hp hq hv hw hkey
    rw [hpq, hw] at hv
    cases hv
    rfl

theorem Directory.addressOf_eq_some (h : st.Directory) :
    st.addressOf name = some b ↔ (name, b) ∈ st.sessions := by
  rw [mem_sessions, addressOf, Option.bind_eq_some_iff]
  constructor
  · rintro ⟨p, hget, haddr⟩
    obtain ⟨hp, u, hu, rfl⟩ := h.getUser_name.mp hget
    obtain ⟨v, hv, rfl⟩ := Option.map_eq_some_iff.mp haddr
    rw [hu] at hv
    cases hv
    exact ⟨p, hp, u, hu, rfl, rfl⟩
  · rintro ⟨p, hp, v, hv, rfl, rfl⟩
    exact ⟨p, h.getUser_name.mpr ⟨hp, v, hv, rfl⟩, by rw [hv, Option.map_some]⟩

theorem Directory.getUser_eq_none (h : st.Directory) :
    st.getUser none (some (clientKey a)) = none ↔ ∀ n, (n, a) ∉ st.sessions := by
  constructor
  · intro hnone n hn
    obtain ⟨p, hp, v, hv, -, haddr⟩ := mem_sessions.mp hn
    rw [h.getUser_client.mpr ⟨hp, v, hv, haddr⟩] at hnone
    cases hnone
  · intro hall
    cases hget : st.getUser none (some (clientKey a)) with
    | none => rfl
    | some p =>
        obtain ⟨hp, v, hv, haddr⟩ := h.getUser_client.mp hget
        exact absurd (mem_sessions.mpr ⟨p, hp, v, hv, rfl, haddr⟩) (hall v.username)

theorem Speaks.mem_sessions {now : ℕ} (h : st.Speaks now a p u st') :
    (u.username, a) ∈ st.sessions :=
  Standalone.mem_sessions.mpr ⟨p, h.listed, u, h.cell, rfl, h.addr⟩

theorem Touched.sessions {now : ℕ} (h : st.Touched now p st') : st'.sessions = st.sessions := by
  have hsession : ∀ q, (st'.users.cells q).map (fun v => (v.username, v.cliaddr)) =
      (st.users.cells q).map fun v => (v.username, v.cliaddr) :=
    h.map_eq (fun v => (v.username, v.cliaddr)) fun _ _ => rfl
  have hmem : ∀ (s : State) n b, (n, b) ∈ s.sessions ↔ ∃ q ∈ s.userList,
      (s.users.cells q).map (fun v => (v.username, v.cliaddr)) = some (n, b) := by
    intro s n b
    simp only [Standalone.mem_sessions, Option.map_eq_some_iff, Prod.mk.injEq]
  ext ⟨n, b⟩
  rw [hmem, hmem, h.list]
  simp only [hsession]

theorem Seen.sessions {now : ℕ} (h : st.Seen now a st') : st'.sessions = st.sessions := by
  rcases h with ⟨-, rfl⟩ | ⟨p, u, hspeaks⟩
  · rfl
  · exact hspeaks.touched.sessions

/-! ## Passes -/

/-- What a pass does to the sessions. -/
def Relogs (st : State) : Input → State → Prop
  | .recv a (.login name), st' =>
      st'.sessions = insert (name, a) {s | s ∈ st.sessions ∧ s.1 ≠ name ∧ s.2 ≠ a}
  | .recv a .logout, st' => st'.sessions = {s | s ∈ st.sessions ∧ s.2 ≠ a}
  | .recv _ _, st' => st'.sessions = st.sessions
  | .scan, st' => st'.sessions ⊆ st.sessions

/-- A record is kept or dropped by its name and its key, and so is its session. -/
theorem Directory.kept (h : st.Directory) (keep : Uname → IpPort → Prop)
    (hrec : ∀ v, st'.Record v ↔ st.Record v ∧ keep v.username v.ipPort) :
    st'.sessions = {s | s ∈ st.sessions ∧ keep s.1 (clientKey s.2)} := by
  have hkey : ∀ v, st.Record v → v.ipPort = clientKey v.cliaddr := by
    rintro v ⟨p, hp, hv⟩
    exact h.keyed p hp v hv
  ext ⟨n, b⟩
  constructor
  · rintro ⟨v, hv, hn, hb⟩
    obtain ⟨hold, hkeep⟩ := (hrec v).mp hv
    rw [hkey v hold, hn, hb] at hkeep
    exact ⟨⟨v, hold, hn, hb⟩, hkeep⟩
  · rintro ⟨⟨v, hold, hn, hb⟩, hkeep⟩
    refine ⟨v, (hrec v).mpr ⟨hold, ?_⟩, hn, hb⟩
    rw [hkey v hold, hn, hb]
    exact hkeep

theorem Inv.relogs (h : st.Inv) (heff : st.Effect env input st' sent) :
    st.Relogs input st' := by
  cases heff with
  | @login a name _ hdir hrec hch =>
      ext ⟨n, b⟩
      simp only [Set.mem_insert_iff, Set.mem_ofPred_eq, Prod.mk.injEq]
      constructor
      · rintro ⟨v, hv, rfl, rfl⟩
        rcases (hrec v).mp hv with ⟨hold, hname, hkey⟩ | rfl
        · refine Or.inr ⟨⟨v, hold, rfl, rfl⟩, hname, ?_⟩
          obtain ⟨p, hp, hv'⟩ := hold
          rw [h.directory.keyed p hp v hv'] at hkey
          exact fun haddr => hkey (congrArg clientKey haddr)
        · exact Or.inl ⟨rfl, rfl⟩
      · rintro (⟨rfl, rfl⟩ | ⟨⟨v, hold, rfl, rfl⟩, hname, haddr⟩)
        · exact ⟨_, (hrec _).mpr (Or.inr rfl), rfl, rfl⟩
        · refine ⟨v, (hrec v).mpr (Or.inl ⟨hold, hname, ?_⟩), rfl, rfl⟩
          obtain ⟨p, hp, hv'⟩ := hold
          rw [h.directory.keyed p hp v hv']
          exact fun hkey => haddr (clientKey_injective hkey)
  | @logout a _ hdir hrec hch =>
      have hkept := h.directory.kept (fun _ key => key ≠ clientKey a) hrec
      simp only [clientKey_injective.ne_iff] at hkept
      exact hkept
  | @stranger a req hreq hget => cases req <;> first | rfl | cases hreq
  | join hspeaks hchan => exact hspeaks.touched.sessions
  | leave hspeaks hchan => exact hspeaks.touched.sessions
  | sayNowhere text hspeaks hch hc => exact hspeaks.touched.sessions
  | sayOutside text hspeaks hch hc hmem => exact hspeaks.touched.sessions
  | say text hspeaks hch hc hmem => exact hspeaks.touched.sessions
  | list hseen hch => exact hseen.sessions
  | who ch hseen hch => exact hseen.sessions
  | keepAlive hseen hch => exact hseen.sessions
  | scan hdir hch hrec =>
      rintro ⟨n, b⟩ ⟨v, hv, hn, hb⟩
      obtain ⟨p, hp, hv', -⟩ := (hrec v).mp hv
      exact ⟨v, ⟨p, hp, hv'⟩, hn, hb⟩

/-! ## Records -/

/-- Every other request has been heard from its client. -/
theorem Effect.seen {req : ClientRequest} (heff : st.Effect env (.recv a req) st' sent)
    (hreq : keepsSessions req) : st.Seen env.now a st' := by
  cases heff with
  | login hdir hrec hch => cases hreq
  | logout hdir hrec hch => cases hreq
  | stranger hneeds hget => exact Or.inl ⟨hget, rfl⟩
  | join hspeaks hchan => exact Or.inr ⟨_, _, hspeaks⟩
  | leave hspeaks hchan => exact Or.inr ⟨_, _, hspeaks⟩
  | sayNowhere text hspeaks hch hc => exact Or.inr ⟨_, _, hspeaks⟩
  | sayOutside text hspeaks hch hc hmem => exact Or.inr ⟨_, _, hspeaks⟩
  | say text hspeaks hch hc hmem => exact Or.inr ⟨_, _, hspeaks⟩
  | list hseen hch => exact hseen
  | who ch hseen hch => exact hseen
  | keepAlive hseen hch => exact hseen

theorem Directory.record_ipPort (h : st.Directory) {v : User} (hv : st.Record v) :
    v.ipPort = clientKey v.cliaddr := by
  obtain ⟨p, hp, hcell⟩ := hv
  exact h.keyed p hp v hcell

/-- The record of the client that has been heard is new, and all others are as before. -/
theorem Directory.record_seen (h : st.Directory) {now : ℕ} (hseen : st.Seen now a st') (v : User) :
    st'.Record v ↔ (st.Record v ∧ v.ipPort ≠ clientKey a) ∨
      ∃ w, st.Record w ∧ w.ipPort = clientKey a ∧ v = { w with lastSeen := UInt32.ofNat now } := by
  rcases hseen with ⟨hget, rfl⟩ | ⟨p, u, hspeaks⟩
  · have hnot : ∀ w, st'.Record w → w.ipPort ≠ clientKey a := by
      rintro w ⟨q, hq, hw⟩ hkey
      rw [h.getUser_key.mpr ⟨hq, w, hw, hkey⟩] at hget
      cases hget
    constructor
    · exact fun hv => Or.inl ⟨hv, hnot v hv⟩
    · rintro (⟨hv, -⟩ | ⟨w, hw, hkey, -⟩)
      · exact hv
      · exact absurd hkey (hnot w hw)
  · have hu : u.ipPort = clientKey a := by
      rw [h.keyed p hspeaks.listed u hspeaks.cell, hspeaks.addr]
    have honly : ∀ q ∈ st.userList, ∀ w, st.users.cells q = some w →
        (w.ipPort = clientKey a ↔ q = p) := by
      intro q hq w hw
      constructor
      · exact fun hkey => h.eq_of_key hq hspeaks.listed hw hspeaks.cell (hkey.trans hu.symm)
      · rintro rfl
        rw [hspeaks.cell] at hw
        cases hw
        exact hu
    simp only [Record, hspeaks.touched.list, hspeaks.touched.cells, Option.map_eq_some_iff]
    constructor
    · rintro ⟨q, hq, w, hw, rfl⟩
      by_cases hqp : q = p
      · exact Or.inr ⟨w, ⟨q, hq, hw⟩, (honly q hq w hw).mpr hqp, if_pos hqp⟩
      · rw [if_neg hqp]
        exact Or.inl ⟨⟨q, hq, hw⟩, fun hkey => hqp ((honly q hq w hw).mp hkey)⟩
    · rintro (⟨⟨q, hq, hv⟩, hkey⟩ | ⟨w, ⟨q, hq, hw⟩, hkey, rfl⟩)
      · exact ⟨q, hq, v, hv, if_neg fun hqp => hkey ((honly q hq v hv).mpr hqp)⟩
      · exact ⟨q, hq, w, hw, if_pos ((honly q hq w hw).mp hkey)⟩

/-- The record that a request of the client at `a` leaves under the key of `a`. -/
def Files (st : State) (now : ℕ) (a : SockAddr) (v : User) : ClientRequest → Prop
  | .login name => v = ⟨name, clientKey a, a, UInt32.ofNat now⟩
  | .logout => False
  | _ => ∃ w, st.Record w ∧ w.ipPort = clientKey a ∧ v = { w with lastSeen := UInt32.ofNat now }

theorem Files.of_keepsSessions {now : ℕ} {v : User} {req : ClientRequest}
    (hreq : keepsSessions req) : st.Files now a v req ↔
      ∃ w, st.Record w ∧ w.ipPort = clientKey a ∧ v = { w with lastSeen := UInt32.ofNat now } := by
  cases req <;> first | rfl | cases hreq

theorem Inv.record_key {req : ClientRequest} (h : st.Inv)
    (heff : st.Effect env (.recv a req) st' sent) (v : User) :
    st'.Record v ∧ v.ipPort = clientKey a ↔ st.Files env.now a v req := by
  by_cases hreq : keepsSessions req
  · rw [Files.of_keepsSessions hreq, h.directory.record_seen (heff.seen hreq)]
    constructor
    · rintro ⟨⟨-, hne⟩ | hnew, hkey⟩
      · exact absurd hkey hne
      · exact hnew
    · rintro ⟨w, hw, hkey, rfl⟩
      exact ⟨Or.inr ⟨w, hw, hkey, rfl⟩, hkey⟩
  · cases heff with
    | login hdir hrec hch =>
        rw [hrec]
        constructor
        · rintro ⟨⟨-, -, hne⟩ | hnew, hkey⟩
          · exact absurd hkey hne
          · exact hnew
        · rintro rfl
          exact ⟨Or.inr rfl, rfl⟩
    | logout hdir hrec hch =>
        rw [hrec]
        exact ⟨fun hv => hv.1.2 hv.2, False.elim⟩
    | stranger hneeds hget => exact absurd (keepsSessions_of_needsUser hneeds) hreq
    | _ => exact absurd rfl hreq

/-- The records under other keys stay, unless a login takes over the name. -/
theorem Inv.record_of_key_ne {req : ClientRequest} (h : st.Inv)
    (heff : st.Effect env (.recv a req) st' sent) {v : User} (hkey : v.ipPort ≠ clientKey a)
    (hname : req ≠ .login v.username) (hv : st.Record v) : st'.Record v := by
  by_cases hreq : keepsSessions req
  · exact (h.directory.record_seen (heff.seen hreq) v).mpr (Or.inl ⟨hv, hkey⟩)
  · cases heff with
    | login hdir hrec hch =>
        exact (hrec v).mpr (Or.inl ⟨hv, fun heq => hname (by rw [heq]), hkey⟩)
    | logout hdir hrec hch => exact (hrec v).mpr ⟨hv, hkey⟩
    | stranger hneeds hget => exact absurd (keepsSessions_of_needsUser hneeds) hreq
    | _ => exact absurd rfl hreq

end State

/-- In every reachable state the list of users and its two indexes hold the same users,
each under its own name and its own key, and represent a partial bijection between names
and addresses. A login displaces every session with its name or its address, a logout ends
the session of its address, and no other request changes the sessions. The server goes
down only by reading an array of users that is NULL. -/
theorem sessions_partialBijection (hst : st.Reachable) :
    st.Directory ∧ PartialBijection st.sessions ∧ ∀ env input,
      (¬ st.Stumbles env input → ∃ st' sent, st.react env input = .ok (st', sent)) ∧
      ∀ st' sent, st.react env input = .ok (st', sent) → st.Relogs input st' := by
  have h := hst.inv
  exact ⟨h.directory, h.directory.partialBijection, fun env input => ⟨h.react_ok,
    fun st' sent hok => h.relogs (h.effect_of_ok hok)⟩⟩

/-- A login that displaces two sessions. -/
theorem sessions_partialBijection_displacing :
    ∃ st st', State.initial.replay [(.at 0, .recv (desk 1) (.login alice)),
        (.at 0, .recv (desk 2) (.login bob))] = some st ∧
      st.react (.at 0) (.recv (desk 2) (.login alice)) = .ok (st', []) ∧
      st'.sessions =
        insert (alice, desk 2) {s | s ∈ st.sessions ∧ s.1 ≠ alice ∧ s.2 ≠ desk 2} := by
  have hfacts : (State.initial.replay [(.at 0, .recv (desk 1) (.login alice)),
      (.at 0, .recv (desk 2) (.login bob))]).isSome := by decide
  obtain ⟨st, hreplay⟩ := Option.isSome_iff_exists.mp hfacts
  obtain ⟨-, -, hpass⟩ := sessions_partialBijection (State.run_of_replay hreplay)
  obtain ⟨hcompletes, hrelogs⟩ := hpass (.at 0) (.recv (desk 2) (.login alice))
  obtain ⟨st', sent, hok⟩ := hcompletes fun hstumbles => hstumbles.1
  have hsent : sent = [] := by
    simp only [State.react, handleRequest, handleLogin] at hok
    obtain ⟨st₁, -, hret⟩ := bind_eq_ok.mp hok
    cases hret
    rfl
  rw [hsent] at hok
  exact ⟨st, st', hreplay, hok, hrelogs st' [] hok⟩

end CliMessaging.Standalone
