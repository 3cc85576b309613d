import CliMessaging.Verification.Standalone.MemoryHandlers
import CliMessaging.Verification.Standalone.Requests

/-! # Runs in memory

A run of the server in memory is matched by a run of the server on finite maps and lists,
and after it both do the same with every further input. -/

namespace CliMessaging.Standalone.Memory

open Heap LinkedList HashMap Transition

variable {m m' : Memory} {st st' : State} {mem : Malloc} {k : ℕ}

/-! ## The start -/

theorem contents_initial (t : TableName) :
    contents State.initial (fun _ => none) t = fun _ => none := by
  funext key
  cases t <;> simp [contents, byBytes, State.initial]

theorem allocState_spec (h : allocState mem = .ok m) : Represents 0 m State.initial := by
  by_cases hblocks : 2 ≤ mem.blocks.length
  · obtain ⟨nodes, ll, hcreate, hh, hframe⟩ := linkedListCreate_spec .empty hblocks
    rw [allocState, hcreate] at h
    cases h
    refine ⟨fun _ => none, [], {
      users := rfl
      lookup := fun _ => rfl
      nodes := ?_
      records := filled_empty fun _ => rfl
      names := filled_empty fun i => ?_
      entries := filled_empty fun t => ?_
      userKeys := fun _ _ hp => by cases hp
      listKeys := fun _ _ hc => by cases hc }, rfl⟩
    · have hempty : Filled (listsAt .absent fun _ => none) (.empty : Heap (LLNode ℕ)) :=
        filled_empty fun i => by
          cases i with
          | none => rfl
          | some c => exact .absent
      obtain ⟨ps, hps, hreplace⟩ := hempty.focus none
      obtain rfl : ps = [] := hps
      refine (hreplace (B := userListAt ll []) hframe (.present hh)).congr fun i => ?_
      cases i <;> rfl
    · cases i with
      | none => exact objects_nil _
      | some c => rfl
    · rw [tablesAt, contents_initial]
      cases t <;> exact .present (table_create _) (stores_nil _)
  · rw [allocState, linkedListCreate_eq_none .empty hblocks] at h
    cases h

/-! ## Steps -/

/-- The server with the number of copies that it has lost. -/
def Counts (x : State × ℕ) (q : Pass) (y : State × ℕ) : Prop :=
  x.1.Step q y.1 ∧ y.2 = x.2 + leaks x.1 q.input

/-- Two passes on the same input that send the same. -/
structure Matches (p : StoredPass) (q : Pass) : Prop where
  env : q.env = p.pass.env
  input : q.input = p.pass.input
  sent : List.Forall₂ Similar p.pass.sent q.sent

/-- Every table and list finds its memory in the pass, and the names in the request are
within the tables. -/
structure StoredPass.Sound (p : StoredPass) : Prop where
  ample : p.mem.Ample
  hashable : HashableInput p.pass.input

theorem Represents.react (h : Represents k m st) (hmem : mem.Ample) (env : Env) (input : Input)
    (hinput : HashableInput input) :
    Lockstep (Answers (k + leaks st input)) (m.react mem env input) (st.react env input) := by
  obtain ⟨channels, leaked, hl, rfl⟩ := h
  exact react_lockstep hl hmem input hinput

theorem Represents.step {p : StoredPass} (h : Represents k m st) (hp : p.Sound)
    (hstep : m.Step p m') :
    ∃ q y, Counts (st, k) q y ∧ Matches p q ∧ Represents y.2 m' y.1 := by
  have hreact := h.react hp.ample p.pass.env p.pass.input hp.hashable
  rw [show m.react p.mem p.pass.env p.pass.input = .ok (m', p.pass.sent) from hstep] at hreact
  obtain ⟨⟨st', sent⟩, hok, hrep, hsent⟩ := hreact.exists_right
  exact ⟨⟨p.pass.env, p.pass.input, sent⟩, (st', _), ⟨hok, rfl⟩, ⟨rfl, rfl, hsent⟩, hrep⟩

/-! ## Runs -/

theorem represents_of_run {ps : List StoredPass} (hm : allocState mem = .ok m)
    (hrun : Run Memory.Step m ps m') (hps : ∀ p ∈ ps, p.Sound) :
    ∃ qs y, Run Counts (State.initial, 0) qs y ∧ List.Forall₂ Matches ps qs ∧
      Represents y.2 m' y.1 :=
  hrun.simulation (R := fun m y => Represents y.2 m y.1)
    (fun _ _ _ _ hrep hp hstep => hrep.step hp hstep) hps (t := (State.initial, 0))
    (allocState_spec hm)

theorem run_of_counts {qs : List Pass} {x y : State × ℕ} (hrun : Run Counts x qs y) :
    Run State.Step x.1 qs y.1 := by
  induction hrun with
  | nil => exact .nil _
  | cons hstep _ ih => exact .cons hstep.1 ih

/-- The linked lists, hash tables and pointers of the server do what lists and finite maps
would: a run of sound passes sends the same, up to the order of a list of channels, and after it
such a pass faults in memory just when it does on lists and finite maps. -/
theorem memory_refines_state {ps : List StoredPass} (hm : allocState mem = .ok m)
    (hrun : Run Memory.Step m ps m') (hps : ∀ p ∈ ps, p.Sound) :
    ∃ qs st, Run State.Step State.initial qs st ∧ List.Forall₂ Matches ps qs ∧
      ∀ mem env input, mem.Ample → HashableInput input →
        Lockstep (fun x y => List.Forall₂ Similar x.2 y.2) (m'.react mem env input)
          (st.react env input) := by
  obtain ⟨qs, y, hcounts, hmatches, hrep⟩ := represents_of_run hm hrun hps
  refine ⟨qs, y.1, run_of_counts hcounts, hmatches, fun mem env input hmem hinput => ?_⟩
  exact (hrep.react hmem env input hinput).mono fun _ _ h => h.2

/-- `malloc` finds everything. -/
def ample : Malloc := ⟨List.replicate 2 ⟨none, none, none⟩, ⟨true, true, true⟩, true⟩

theorem ample_ample : ample.Ample := ⟨le_refl 2, rfl, rfl, rfl⟩

/-- Alice logs in, joins a channel twice and asks for the channels. -/
def visit : List StoredPass :=
  [⟨ample, .at 0, .recv (desk 1) (.login alice), []⟩,
    ⟨ample, .at 0, .recv (desk 1) (.join chat), []⟩,
    ⟨ample, .at 0, .recv (desk 1) (.join chat), []⟩,
    ⟨ample, .at 0, .recv (desk 1) .list, [⟨desk 1, .list [chat]⟩]⟩]

theorem visit_runs : ∃ m m', allocState ample = .ok m ∧ Run Memory.Step m visit m' := by
  refine ⟨_, _, rfl, .cons rfl (.cons rfl (.cons rfl (.cons rfl (.nil _))))⟩

theorem hashable_alice : Hashable alice.bytes := hashable_singleton (b := 97) (by decide)

theorem hashable_bob : Hashable bob.bytes := hashable_singleton (b := 98) (by decide)

theorem hashable_chat : Hashable chat.bytes := hashable_singleton (b := 99) (by decide)

theorem visit_sound : ∀ p ∈ visit, p.Sound := by
  have hmem := ample_ample
  simp only [visit, List.forall_mem_cons]
  refine ⟨⟨hmem, ?_⟩, ⟨hmem, ?_⟩, ⟨hmem, ?_⟩, ⟨hmem, ?_⟩, by simp⟩
  all_goals rintro key ⟨⟩
  · exact hashable_alice
  · exact hashable_chat
  · exact hashable_chat

theorem memory_refines_state_visit :
    ∃ qs st, Run State.Step State.initial qs st ∧ List.Forall₂ Matches visit qs := by
  obtain ⟨m, m', hm, hrun⟩ := visit_runs
  obtain ⟨qs, st, hrun', hmatches, -⟩ := memory_refines_state hm hrun visit_sound
  exact ⟨qs, st, hrun', hmatches⟩

/-! ## Faults -/

/-- The pass runs a loop over the array of `list_users`. -/
def ListsUsers (m : Memory) : Input → Prop
  | .recv a (.join _) | .recv a (.leave _) => m.getUser none (some (clientKey a)) = .ok none
  | .recv _ _ => False
  | .scan => True

theorem Layout.listsUsers {channels : Channels} {leaked : List (ℕ × Uname)}
    (hl : Layout m st channels leaked) (input : Input) :
    m.ListsUsers input ↔ st.ListsUsers input := by
  cases input with
  | scan => rfl
  | recv a req =>
      cases req with
      | join c => rw [ListsUsers, State.ListsUsers, getUser_client hl, Except.ok.injEq]
      | leave c => rw [ListsUsers, State.ListsUsers, getUser_client hl, Except.ok.injEq]
      | _ => rfl

theorem Layout.size_eq_zero {channels : Channels} {leaked : List (ℕ × Uname)}
    (hl : Layout m st channels leaked) : llSize m.userList = 0 ↔ st.userList = [] := by
  obtain ⟨ns, fs, hh, -⟩ := hl.userList
  rw [llSize, hh.size_eq, List.length_map, Int.natCast_eq_zero, List.length_eq_zero_iff]

/-- After any run of sound passes one more follows no pointer to freed memory, frees nothing twice
and reads behind no array. It fails only at the NULL that stands for an empty array, when the
length that was not written is positive. -/
theorem react_eq_error_iff {ps : List StoredPass} (hm : allocState mem = .ok m)
    (hrun : Run Memory.Step m ps m') (hps : ∀ p ∈ ps, p.Sound) {mem' : Malloc} (env : Env)
    {input : Input} (hmem : mem'.Ample) (hinput : HashableInput input) (e : Fault) :
    m'.react mem' env input = .error e ↔
      e = .nullPointer ∧ m'.ListsUsers input ∧ llSize m'.userList = 0 ∧ 0 < env.count := by
  obtain ⟨qs, y, hcounts, -, channels, leaked, hl, -⟩ := represents_of_run hm hrun hps
  have hinv : y.1.Inv := State.Reachable.inv ⟨qs, run_of_counts hcounts⟩
  have hreact : Lockstep _ (m'.react mem' env input) (y.1.react env input) :=
    react_lockstep hl hmem input hinput
  rw [hl.listsUsers, hl.size_eq_zero]
  constructor
  · intro herror
    rw [herror] at hreact
    rcases hinv.outcome env input with ⟨hstumbles, hresult⟩ | ⟨st', sent, hresult, -⟩
    · rw [hresult] at hreact
      cases hreact
      exact ⟨rfl, hstumbles⟩
    · rw [hresult] at hreact
      cases hreact
  · rintro ⟨rfl, hstumbles⟩
    rw [State.react_of_stumbles hstumbles] at hreact
    generalize m'.react mem' env input = x at hreact ⊢
    cases hreact
    rfl

/-- The first scan of a server without users, with an odd length. -/
theorem react_eq_error_iff_scan :
    ∃ m : Memory, m.react ample ⟨fun _ => 0, 1⟩ .scan = .error .nullPointer := by
  obtain ⟨m, hm⟩ : ∃ m, allocState ample = .ok m := ⟨_, rfl⟩
  have hsize : llSize m.userList = 0 := by
    cases hm
    rfl
  have hinput : HashableInput .scan := trivial
  exact ⟨m, (react_eq_error_iff hm (.nil m) (by simp) _ ample_ample hinput _).mpr
    ⟨rfl, trivial, hsize, one_pos⟩⟩

end CliMessaging.Standalone.Memory
