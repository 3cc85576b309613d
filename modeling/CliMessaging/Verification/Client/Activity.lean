import CliMessaging.Verification.Client.Destination
import CliMessaging.Verification.Standalone.Datagrams

/-! # What a running client sends

The server accepts everything that a running client sends after its start, and none of it
is a login or a logout. The activity flag says whether something has been sent since the
keep-alive thread last woke up. -/

namespace CliMessaging.Client

open Standalone

variable {c c' : Client} {line data : List UInt8} {o : Outcome} {input : Input}

/-- The server reads a request in the datagram that neither logs in nor logs out. -/
def Refreshing (data : List UInt8) : Prop := ∃ req, Accepts data req ∧ keepsSessions req

/-- What is sent refreshes the session, and the flag of the client is set if anything is. -/
structure Talks (c : Client) (client : Option Client) (sent : List Datagram) : Prop where
  refreshing : client.isSome → ∀ d ∈ sent, Refreshing d.data
  active : ∀ c', client = some c' →
    c'.activityLastMinute = (c.activityLastMinute || !sent.isEmpty)

theorem talks_nothing (h : c'.activityLastMinute = c.activityLastMinute) :
    Talks c (some c') [] where
  refreshing _ d hd := by cases hd
  active _ hc := by
    cases hc
    simp [h]

theorem talks_sendMsg (c : Client) (h : Refreshing data) :
    Talks c (some (c.sendMsg true data).1) (c.sendMsg true data).2 where
  refreshing _ d hd := by
    rw [List.mem_singleton.mp hd]
    exact h
  active _ hc := by
    cases hc
    simp [sendMsg]

theorem talks_none (c : Client) (sent : List Datagram) : Talks c none sent where
  refreshing hsome := by cases hsome
  active _ hc := by cases hc

/-- What is done afterwards to the other fields does not matter. -/
theorem Talks.map {client : Option Client} {sent : List Datagram} (h : Talks c client sent)
    (f : Client → Client) (hf : ∀ c, (f c).activityLastMinute = c.activityLastMinute) :
    Talks c (client.map f) sent where
  refreshing hsome := h.refreshing (by simpa using hsome)
  active c' hc' := by
    obtain ⟨c₁, hc₁, rfl⟩ := Option.map_eq_some_iff.mp hc'
    exact (hf c₁).trans (h.active c₁ hc₁)

/-! ## Requests -/

theorem refreshing_of_field {request : Field channelMax → List UInt8} {mk : Cname → ClientRequest}
    (hacc : ∀ {f : Field channelMax} {ch : Cname}, f.Holds ch → Accepts (request f) (mk ch))
    (hkeeps : ∀ ch, keepsSessions (mk ch)) (f : Field channelMax) :
    Refreshing (request f.terminate) := by
  obtain ⟨ch, hch⟩ := f.exists_holds_terminate (by decide)
  exact ⟨mk ch, hacc hch, hkeeps ch⟩

theorem talks_handleCmdArg {request : Field channelMax → List UInt8}
    (h : ∀ f : Field channelMax, Refreshing (request f.terminate)) (c : Client)
    (line : List UInt8) :
    Talks c (some (handleCmdArg request c true line).1) (handleCmdArg request c true line).2 := by
  unfold handleCmdArg
  cases getArg line with
  | none => exact talks_nothing rfl
  | some channel => exact talks_sendMsg c (h _)

theorem refreshing_say (f : Field channelMax) (g : Field sayMax) :
    Refreshing (requestSay f.terminate g.terminate) := by
  obtain ⟨ch, hch⟩ := f.exists_holds_terminate (by decide)
  obtain ⟨text, htext⟩ := g.exists_holds_terminate (by decide)
  exact ⟨.say ch text, accepts_requestSay hch htext, rfl⟩

theorem refreshing_list : Refreshing requestList := ⟨.list, by decide, rfl⟩

theorem refreshing_keepAlive : Refreshing requestKeepAlive := ⟨.keepAlive, by decide, rfl⟩

theorem talks_handleChat (c : Client) (line : List UInt8) :
    Talks c (c.handleChat true line).1 (c.handleChat true line).2 := by
  unfold handleChat
  cases checkIfIsCommand line with
  | none => exact talks_nothing rfl
  | some command =>
      cases command with
      | say => exact talks_sendMsg c (refreshing_say _ _)
      | list => exact talks_sendMsg c refreshing_list
      | exit => exact talks_none c _
      | join =>
          exact talks_handleCmdArg (refreshing_of_field accepts_requestJoin fun _ => rfl) c line
      | leave =>
          exact talks_handleCmdArg (refreshing_of_field accepts_requestLeave fun _ => rfl) c line
      | who =>
          exact talks_handleCmdArg (refreshing_of_field accepts_requestWho fun _ => rfl) c line
      | switch =>
          have hkept : (c.handleCmdSwitch line).activityLastMinute = c.activityLastMinute := by
            unfold handleCmdSwitch
            cases getArg line <;> rfl
          exact talks_nothing hkept

theorem talks_endLine (c : Client) : Talks c (c.endLine true).1 (c.endLine true).2 := by
  unfold endLine
  split
  · exact talks_nothing rfl
  · exact (talks_handleChat c c.stdinbuf.str).map clearLine fun _ => rfl

/-- A pass of the main loop. -/
theorem react_talks (h : c.react true input = .ok o) (hinput : input ≠ .tick) :
    Talks c o.client o.sent := by
  cases input with
  | key cur =>
      rw [react] at h
      split at h
      · cases h
        exact talks_endLine c
      · split at h
        · cases h
          exact talks_nothing rfl
        · cases h
          exact talks_nothing rfl
  | recv src data =>
      obtain ⟨printed, -, hok⟩ := bind_eq_ok.mp h
      cases hok
      exact talks_nothing rfl
  | tick => exact absurd rfl hinput

/-- The keep-alive thread sends exactly when nothing else was sent since it last woke up, and
takes the flag back. -/
theorem react_tick (c : Client) : ∃ o c', c.react true .tick = .ok o ∧ o.client = some c' ∧
    c'.activityLastMinute = false ∧
    o.sent = if c.activityLastMinute then [] else [⟨c.serverInfo, requestKeepAlive⟩] := by
  have hreact : c.react true .tick =
      .ok ⟨some (c.keepAlive true).1, (c.keepAlive true).2, []⟩ := rfl
  refine ⟨_, _, hreact, rfl, ?_⟩
  unfold keepAlive
  cases c.activityLastMinute
  · exact ⟨rfl, rfl⟩
  · exact ⟨rfl, rfl⟩

/-- Everything that a pass sends refreshes the session, if the client goes on. -/
theorem react_refreshing (h : c.react true input = .ok o) (hsome : o.client.isSome) :
    ∀ d ∈ o.sent, Refreshing d.data := by
  by_cases hinput : input = .tick
  · subst hinput
    obtain ⟨o', c', hok, -, -, hsent⟩ := react_tick c
    rw [h] at hok
    cases hok
    intro d hd
    rw [hsent] at hd
    split at hd
    · cases hd
    · rw [List.mem_singleton.mp hd]
      exact refreshing_keepAlive
  · exact (react_talks h hinput).refreshing hsome

end CliMessaging.Client
