import CliMessaging.Model.Distributed.Network

/-! # Replaying a run

A schedule of inputs and deliveries determines a run, which can be computed. -/

namespace CliMessaging.Distributed

open Transition

/-- What a server in state `st` does with an input. -/
def State.reaction (st : State) (env : Env) (input : Input) : Reaction :=
  ⟨st, env, input, st.react env input⟩

theorem State.reacts_reaction (st : State) (env : Env) (input : Input) :
    st.Reacts (st.reaction env input) := ⟨rfl, rfl⟩

/-! ## One server -/

/-- The reactions to a list of inputs and the state after them, unless one of them
brings the server down. -/
def State.replay (st : State) : List (Env × Input) → Option (List Reaction × State)
  | [] => some ([], st)
  | (env, input) :: inputs => do
      let st' ← (st.reaction env input).after
      let (rs, final) ← st'.replay inputs
      return (st.reaction env input :: rs, final)

theorem State.run_of_replay {st st' : State} {inputs : List (Env × Input)}
    {rs : List Reaction} (h : st.replay inputs = some (rs, st')) :
    Run State.Step st rs st' := by
  induction inputs generalizing st rs with
  | nil =>
      cases h
      exact .nil _
  | cons first inputs ih =>
      obtain ⟨st₁, hafter, h⟩ := Option.bind_eq_some_iff.mp h
      obtain ⟨⟨rs', final⟩, hrest, h⟩ := Option.bind_eq_some_iff.mp h
      cases h
      exact .cons ⟨st.reacts_reaction _ _, hafter⟩ (ih hrest)

theorem State.reachable_of_replay {adj : List Server} {st : State} {inputs : List (Env × Input)}
    {rs : List Reaction} (h : (State.initial adj).replay inputs = some (rs, st)) :
    State.Reachable adj st :=
  ⟨rs, State.run_of_replay h, fun _ _ => trivial⟩

/-! ## The network -/

inductive Choice where
  /-- A client's request reaches a server, or one of its timers fires. -/
  | pass (node : Addressable) (env : Env) (input : Input)
  /-- The oldest datagram from `src` to `dst` arrives. -/
  | deliver (src dst : Addressable) (env : Env)

def Input.isS2s : Input → Bool
  | .recv _ (.s2s _) => true
  | _ => false

theorem Input.not_s2s {input : Input} (h : input.isS2s = false) (src : Addressable)
    (msg : S2sMsg) : input ≠ .recv src (.s2s msg) := by
  rintro rfl
  cases h

namespace Net

def act (g : Net) : Choice → Option (Event × Net)
  | .pass node env input => do
      let st ← g.server node
      if input.isS2s then none
      else return (.pass node (st.reaction env input), g.update node (st.reaction env input))
  | .deliver src dst env => do
      let p ← g.flight.find? fun q => decide (q.src = src ∧ q.dst = dst)
      match g.server p.dst with
      | none => return (.lost p, g.take p)
      | some st =>
          let r := st.reaction env (.recv p.src (.s2s p.msg))
          return (.delivery p r, (g.take p).update p.dst r)

theorem fifoStep_of_act {g g' : Net} {choice : Choice} {e : Event}
    (h : g.act choice = some (e, g')) : g.FifoStep e g' := by
  cases choice with
  | pass node env input =>
      obtain ⟨st, hst, h⟩ := Option.bind_eq_some_iff.mp h
      cases hs2s : input.isS2s with
      | true => simp [hs2s] at h
      | false =>
          simp only [hs2s] at h
          cases h
          refine ⟨.pass hst (st.reacts_reaction env input) (Input.not_s2s hs2s), ?_⟩
          intro p hp
          cases hp
  | deliver src dst env =>
      obtain ⟨p, hp, hres⟩ := Option.bind_eq_some_iff.mp h
      have hmem : p ∈ g.flight := List.mem_of_find?_eq_some hp
      obtain ⟨rfl, rfl⟩ : p.src = src ∧ p.dst = dst := by simpa using List.find?_some hp
      cases hst : g.server p.dst with
      | none =>
          simp only [hst] at hres
          cases hres
          refine ⟨.lost hmem hst, ?_⟩
          rintro q ⟨⟩
          exact hp
      | some st =>
          simp only [hst] at hres
          cases hres
          refine ⟨.delivery hmem hst (st.reacts_reaction env _) rfl, ?_⟩
          rintro q ⟨⟩
          exact hp

/-- The events of a schedule and the network after them, as long as each step is
permitted. -/
def replayWhile (permitted : Net → Event → Bool) (g : Net) :
    List Choice → Option (List Event × Net)
  | [] => some ([], g)
  | choice :: choices => do
      let (e, g') ← g.act choice
      if permitted g e then
        let (es, final) ← g'.replayWhile permitted choices
        return (e :: es, final)
      else none

def replay (g : Net) (choices : List Choice) : Option (List Event × Net) :=
  g.replayWhile (fun _ _ => true) choices

theorem run_of_replayWhile {permitted : Net → Event → Bool} {g g' : Net}
    {choices : List Choice} {es : List Event}
    (h : g.replayWhile permitted choices = some (es, g')) :
    Run (fun g e g' => FifoStep g e g' ∧ permitted g e) g es g' := by
  induction choices generalizing g es with
  | nil =>
      cases h
      exact .nil _
  | cons choice choices ih =>
      obtain ⟨⟨e, g₁⟩, hact, hguard⟩ := Option.bind_eq_some_iff.mp h
      cases hok : permitted g e with
      | false => simp [hok] at hguard
      | true =>
          simp only [hok, if_true] at hguard
          obtain ⟨⟨es', final⟩, hrest, hres⟩ := Option.bind_eq_some_iff.mp hguard
          cases hres
          exact .cons ⟨fifoStep_of_act hact, hok⟩ (ih hrest)

theorem run_of_replay {g g' : Net} {choices : List Choice} {es : List Event}
    (h : g.replay choices = some (es, g')) : Run Step g es g' :=
  (run_of_replayWhile h).mono fun _ _ _ hstep => hstep.1.1

end Net

end CliMessaging.Distributed
