import CliMessaging.Library.Ownership
import CliMessaging.Library.Transition
import CliMessaging.Verification.Standalone.ListElements
import CliMessaging.Verification.Standalone.ListPurge
import Mathlib.Algebra.Order.BigOperators.Group.List
import Mathlib.Algebra.Order.Group.Nat

/-! # Programs over linked lists

The lists of a program are sequences: any calls on any of them, in any order, answer as
sequences would, and an operation on one list leaves the others as they are. -/

namespace CliMessaging.Standalone.LinkedList

open Heap

variable {α : Type} {h h' : Heap (LLNode α)} {lld lld' : LlData} {ns fs : List ℕ}
  {xs : List (Option α)} {mem : Supply α} {i : ℕ}

/-! ## Sequences -/

/-- What a call does to a sequence of elements and what it answers. The call finds a node
when `granted`. -/
def Call.onSequence (granted room : Bool) (xs : List (Option α)) :
    Call α → List (Option α) × Reply α
  | .add element => if granted then (xs ++ [element], .status true) else (xs, .status false)
  | .insert index element =>
      if index ≤ xs.length ∧ granted then
        (xs.take index.toNat ++ element :: xs.drop index.toNat, .status true)
      else (xs, .status false)
  | .addFirst element => if granted then (element :: xs, .status true) else (xs, .status false)
  | .addLast element => if granted then (xs ++ [element], .status true) else (xs, .status false)
  | .clear => ([], .handed xs)
  | .get index => (xs, .element (if index < xs.length then xs[index.toNat]? else none))
  | .getFirst => (xs, .element xs.head?)
  | .getLast => (xs, .element xs.getLast?)
  | .remove index =>
      if index < xs.length then (xs.eraseIdx index.toNat, .element xs[index.toNat]?)
      else (xs, .element none)
  | .removeFirst => (xs.tail, .element xs.head?)
  | .removeLast => (xs.dropLast, .element xs.getLast?)
  | .set index element =>
      if index < xs.length then (xs.set index.toNat element, .element xs[index.toNat]?)
      else (xs, .element none)
  | .size => (xs, .number xs.length)
  | .isEmpty => (xs, .status (decide (xs = [])))
  | .toArray len =>
      if xs ≠ [] ∧ room then (xs, .array (some xs) xs.length) else (xs, .array none len)

/-- The functions do not check an index from below. On a list that is not empty an index
below 0 stands for 0, on an empty list it reaches the sentinel. -/
def Call.Allowed (size : ℤ) : Call α → Prop
  | .get index => 0 ≤ index ∨ size ≠ 0
  | .remove index => 0 ≤ index ∨ size ≠ 0
  | .set index _ => 0 ≤ index ∨ size ≠ 0
  | _ => True

/-! ## One call -/

/-- A call leaves the list in memory for the sequence `xs'`, on the cells it had and on new
nodes that it asked for because none was free. -/
structure Leaves (h h' : Heap (LLNode α)) (lld lld' : LlData) (ns fs : List ℕ)
    (xs' : List (Option α)) : Prop where
  exists_nodes : ∃ ns' fs', Holds h' lld' ns' fs' xs' ∧
    h.Frame h' (cellsOf lld ns fs) (cellsOf lld' ns' fs') ∧
    ns'.length + fs'.length ≤ max (ns.length + fs.length) (xs'.length + 127)

theorem Leaves.refl (hh : Holds h lld ns fs xs) : Leaves h h lld lld ns fs xs :=
  ⟨ns, fs, hh, .refl h _, Nat.le_max_left _ _⟩

theorem Added.leaves {p : ℕ} {fs' l r : List ℕ} {xs₁ xs₂ : List (Option α)} {e : Option α}
    {blocks : List (LLNode α)} (ha : Added h h' lld lld' fs fs' l r p xs₁ xs₂ e blocks) :
    Leaves h h' lld lld' (l ++ r) fs (xs₁ ++ e :: xs₂) := by
  refine ⟨_, _, ha.holds, ha.frame, ?_⟩
  have hlen := ha.holds.length_eq
  have hfree := ha.length_free
  rw [available] at hfree
  simp only [List.length_append, List.length_cons, flIncrement] at hlen hfree ⊢
  split at hfree
  · omega
  · omega

/-- The calls that need a node. -/
def Call.Adds : Call α → Prop
  | .add _ => True
  | .insert _ _ => True
  | .addFirst _ => True
  | .addLast _ => True
  | _ => False

theorem run_of_available {c : Call α} (hc : c.Adds) (hh : Holds h lld ns fs xs)
    (hav : 0 < available fs mem.blocks) :
    ∃ h' lld', c.run mem h lld = .ok (h', lld', (c.onSequence true mem.room xs).2) ∧
      Leaves h h' lld lld' ns fs (c.onSequence true mem.room xs).1 := by
  have hlast : ∀ e, ∃ h' lld', llAddLast mem.blocks h lld e = .ok (h', lld', true) ∧
      Leaves h h' lld lld' ns fs (xs ++ [e]) := by
    intro e
    obtain ⟨h', lld', p, fs', hadd, hadded⟩ := llAddLast_spec hh hav e
    exact ⟨h', lld', hadd, by simpa using hadded.leaves⟩
  cases c with
  | add e =>
      obtain ⟨h', lld', hadd, hleaves⟩ := hlast e
      exact ⟨h', lld', by simp [Call.run, llAdd, hadd, Call.onSequence], hleaves⟩
  | addLast e =>
      obtain ⟨h', lld', hadd, hleaves⟩ := hlast e
      exact ⟨h', lld', by simp [Call.run, hadd, Call.onSequence], hleaves⟩
  | addFirst e =>
      obtain ⟨h', lld', p, fs', hadd, hadded⟩ := llAddFirst_spec hh hav e
      exact ⟨h', lld', by simp [Call.run, hadd, Call.onSequence], hadded.leaves⟩
  | insert index e =>
      by_cases hle : index ≤ xs.length
      · obtain ⟨h', lld', p, fs', hadd, hadded⟩ := llInsert_spec hh hav hle e
        refine ⟨h', lld', by simp [Call.run, hadd, Call.onSequence, hle], ?_⟩
        simpa [Call.onSequence, hle] using hadded.leaves
      · refine ⟨h, lld, ?_, by simpa [Call.onSequence, hle] using Leaves.refl hh⟩
        simp [Call.run, llInsert, hh.size_eq, hle, Call.onSequence]
  | _ => exact hc.elim

/-- Without a node there is nothing to add. -/
theorem run_of_unavailable {c : Call α} (hc : c.Adds) (hh : Holds h lld ns [] xs)
    (room : Bool) :
    c.run ⟨[], room⟩ h lld = .ok (h, lld, .status false) ∧
      c.onSequence false room xs = (xs, .status false) := by
  have hget := getEntry_nil hh
  cases c with
  | add e => simp [Call.run, llAdd, llAddLast, hget, Call.onSequence]
  | addLast e => simp [Call.run, llAddLast, hget, Call.onSequence]
  | addFirst e => simp [Call.run, llAddFirst, hget, Call.onSequence]
  | insert index e =>
      by_cases hindex : index ≤ lld.size
      · simp [Call.run, llInsert, hget, hindex, Call.onSequence]
      · simp [Call.run, llInsert, hindex, Call.onSequence]
  | _ => exact hc.elim

theorem run_of_not_adds {c : Call α} (hc : ¬c.Adds) (hh : Holds h lld ns fs xs)
    (hallowed : c.Allowed lld.size) (granted : Bool) :
    ∃ h' lld', c.run mem h lld = .ok (h', lld', (c.onSequence granted mem.room xs).2) ∧
      Leaves h h' lld lld' ns fs (c.onSequence granted mem.room xs).1 := by
  have hindex : ∀ index : ℤ, 0 ≤ index ∨ lld.size ≠ 0 → 0 ≤ index ∨ xs ≠ [] := by
    intro index
    refine Or.imp_right fun hne hxs => hne ?_
    rw [hh.size_eq, hxs]
    rfl
  cases c with
  | clear =>
      obtain ⟨h', lld', hclear, hh', hframe⟩ := llClear_spec hh
      refine ⟨h', lld', by simp [Call.run, hclear, Call.onSequence], _, _, hh', hframe, ?_⟩
      rw [List.length_nil, List.length_append, List.length_reverse, Nat.zero_add]
      exact Nat.le_max_left _ _
  | get index =>
      exact ⟨h, lld, by simp [Call.run, llGet_spec hh (hindex index hallowed), Call.onSequence],
        .refl hh⟩
  | getFirst =>
      exact ⟨h, lld, by simp [Call.run, llGetFirst_spec hh, Call.onSequence], .refl hh⟩
  | getLast =>
      exact ⟨h, lld, by simp [Call.run, llGetLast_spec hh, Call.onSequence], .refl hh⟩
  | remove index =>
      obtain ⟨h', lld', ns', fs', hremove, hh', hframe, hlen⟩ :=
        llRemove_spec hh (hindex index hallowed)
      by_cases hlt : index < xs.length
      · simp only [if_pos hlt] at hremove hh'
        exact ⟨h', lld', by simp [Call.run, hremove, Call.onSequence, hlt], _, _,
          by simpa [Call.onSequence, hlt] using hh', hframe, hlen.trans_le (Nat.le_max_left _ _)⟩
      · simp only [if_neg hlt] at hremove hh'
        exact ⟨h', lld', by simp [Call.run, hremove, Call.onSequence, hlt], _, _,
          by simpa [Call.onSequence, hlt] using hh', hframe, hlen.trans_le (Nat.le_max_left _ _)⟩
  | removeFirst =>
      obtain ⟨h', lld', ns', fs', hremove, hh', hframe, hlen⟩ := llRemoveFirst_spec hh
      exact ⟨h', lld', by simp [Call.run, hremove, Call.onSequence], _, _, hh', hframe,
        hlen.trans_le (Nat.le_max_left _ _)⟩
  | removeLast =>
      obtain ⟨h', lld', ns', fs', hremove, hh', hframe, hlen⟩ := llRemoveLast_spec hh
      exact ⟨h', lld', by simp [Call.run, hremove, Call.onSequence], _, _, hh', hframe,
        hlen.trans_le (Nat.le_max_left _ _)⟩
  | set index e =>
      obtain ⟨h', hset, hh', hframe⟩ := llSet_spec hh (hindex index hallowed) e
      by_cases hlt : index < xs.length
      · simp only [if_pos hlt] at hset hh'
        exact ⟨h', lld, by simp [Call.run, hset, Call.onSequence, hlt], ns, fs,
          by simpa [Call.onSequence, hlt] using hh', hframe, Nat.le_max_left _ _⟩
      · simp only [if_neg hlt] at hset hh'
        exact ⟨h', lld, by simp [Call.run, hset, Call.onSequence, hlt], ns, fs,
          by simpa [Call.onSequence, hlt] using hh', hframe, Nat.le_max_left _ _⟩
  | size => exact ⟨h, lld, by simp [Call.run, llSize, hh.size_eq, Call.onSequence], .refl hh⟩
  | isEmpty =>
      exact ⟨h, lld, by simp [Call.run, llIsEmpty, hh.size_eq, Call.onSequence], .refl hh⟩
  | toArray len =>
      have harray := llToArray_spec hh mem.room len
      by_cases hc : xs ≠ [] ∧ mem.room
      · rw [if_pos hc] at harray
        refine ⟨h, lld, ?_, by simpa [Call.onSequence, hc] using Leaves.refl hh⟩
        simp only [Call.run, harray, bind_ok, Call.onSequence, if_pos hc, pure_eq_ok]
      · rw [if_neg hc] at harray
        refine ⟨h, lld, ?_, by simpa [Call.onSequence, if_neg hc] using Leaves.refl hh⟩
        simp only [Call.run, harray, bind_ok, Call.onSequence, if_neg hc, pure_eq_ok]
  | _ => exact absurd trivial hc

/-- A call answers as it would on the sequence, and a node is there whenever `malloc` still
has one. -/
theorem Call.run_spec (c : Call α) (mem : Supply α) (hh : Holds h lld ns fs xs)
    (hc : c.Allowed lld.size) :
    ∃ granted, (mem.blocks ≠ [] → granted = true) ∧ ∃ h' lld',
      c.run mem h lld = .ok (h', lld', (c.onSequence granted mem.room xs).2) ∧
      Leaves h h' lld lld' ns fs (c.onSequence granted mem.room xs).1 := by
  by_cases hadds : c.Adds
  · by_cases hav : 0 < available fs mem.blocks
    · exact ⟨true, fun _ => rfl, run_of_available hadds hh hav⟩
    · rw [available_pos, not_not] at hav
      obtain ⟨rfl, hblocks⟩ := hav
      obtain ⟨hrun, hseq⟩ := run_of_unavailable hadds hh mem.room
      refine ⟨false, fun hne => absurd hblocks hne, h, lld, ?_, ?_⟩
      · rw [hseq, ← hrun, ← hblocks]
      · rw [hseq]
        exact .refl hh
  · exact ⟨true, fun _ => rfl, run_of_not_adds hadds hh hc true⟩

/-! ## Programs -/

/-- An action of a program, what `malloc` had for it, and the answer. -/
structure Event (α : Type) where
  mem : Supply α
  action : Action α
  reply : Reply α

/-- A program does not overwrite the variable of a list, calls only lists that exist, and
keeps to the indices that the functions can take. -/
def Action.Allowed (ls : Lists α) : Action α → Prop
  | .create i => ls.lists i = none
  | .call i c => ∃ lld, ls.lists i = some lld ∧ c.Allowed lld.size
  | .destroy i => ls.lists i ≠ none

def Lists.empty : Lists α := ⟨.empty, fun _ => none⟩

def Lists.Step (ls : Lists α) (ev : Event α) (ls' : Lists α) : Prop :=
  ev.action.Allowed ls ∧ ls.perform ev.mem ev.action = .ok (ls', ev.reply)

/-- Sequences by variable. -/
abbrev Sequences (α : Type) := ℕ → Option (List (Option α))

/-- What an action does to sequences. -/
def Action.onSequences (granted room : Bool) (t : Sequences α) : Action α → Sequences α × Reply α
  | .create i =>
      if granted then (Function.update t i (some []), .status true)
      else (Function.update t i none, .status false)
  | .call i c =>
      match t i with
      | none => (t, .status false)
      | some xs =>
          (Function.update t i (some (c.onSequence granted room xs).1),
            (c.onSequence granted room xs).2)
  | .destroy i => (Function.update t i none, .handed ((t i).getD []))

/-- The number of blocks that an action asks for before it can fail. -/
def Action.needs : Action α → ℕ
  | .create _ => 2
  | _ => 1

/-- The answers may depend on whether `malloc` finds what is needed, and it does when it has
the blocks. -/
def Sequences.Step (t : Sequences α) (ev : Event α) (t' : Sequences α) : Prop :=
  ∃ granted, (ev.action.needs ≤ ev.mem.blocks.length → granted = true) ∧
    ev.action.onSequences granted ev.mem.room t = (t', ev.reply)

/-- A variable with its list in memory, its sequence and its cells. -/
inductive ListAt (h : Heap (LLNode α)) :
    Option LlData → Option (List (Option α)) → List ℕ → Prop where
  | absent : ListAt h none none []
  | present {lld : LlData} {ns fs : List ℕ} {xs : List (Option α)} (hh : Holds h lld ns fs xs) :
      ListAt h (some lld) (some xs) (cellsOf lld ns fs)

theorem ListAt.live {o : Option LlData} {xs : Option (List (Option α))} {cells : List ℕ}
    (hl : ListAt h o xs cells) : h.Live cells := by
  cases hl with
  | absent => simp [Live]
  | present hh => exact hh.live

theorem ListAt.congr {o : Option LlData} {xs : Option (List (Option α))} {cells : List ℕ}
    (hl : ListAt h o xs cells) (hcells : ∀ p ∈ cells, h'.cells p = h.cells p) :
    ListAt h' o xs cells := by
  cases hl with
  | absent => exact .absent
  | present hh => exact .present (hh.congr hcells)

theorem ListAt.of_none {xs : Option (List (Option α))} {cells : List ℕ}
    (hl : ListAt h none xs cells) : cells = [] := by
  cases hl
  rfl

theorem ListAt.of_some {xs : Option (List (Option α))} {cells : List ℕ}
    (hl : ListAt h (some lld) xs cells) :
    ∃ ns fs xs', xs = some xs' ∧ cells = cellsOf lld ns fs ∧ Holds h lld ns fs xs' := by
  cases hl with
  | present hh => exact ⟨_, _, _, rfl, rfl, hh⟩

/-- A list in memory with its sequence, or no list. -/
def listAt (o : Option LlData) (xs : Option (List (Option α))) : Assertion (LLNode α) where
  holds h cells := ListAt h o xs cells
  live hl := hl.live
  congr hl hcells := hl.congr hcells

/-- The lists stand for the sequences `t`, and every cell belongs to one of them. -/
structure Stands (ls : Lists α) (t : Sequences α) (cells : ℕ → List ℕ) : Prop where
  owned : Owned (fun i => listAt (ls.lists i) (t i)) ls.heap cells
  covered : Covered ls.heap cells

theorem stands_empty : Stands (Lists.empty : Lists α) (fun _ => none) (fun _ => []) :=
  ⟨⟨fun _ => .absent, by simp⟩, covered_empty⟩

theorem Stands.lists {ls : Lists α} {t : Sequences α} {cells : ℕ → List ℕ}
    (ho : Stands ls t cells) (i : ℕ) : ListAt ls.heap (ls.lists i) (t i) (cells i) :=
  ho.owned.each i

/-- One list is replaced, on cells of its own. -/
theorem Stands.replace {ls : Lists α} {t : Sequences α} {cells : ℕ → List ℕ}
    (ho : Stands ls t cells) {new : List ℕ} {o : Option LlData} {xs : Option (List (Option α))}
    (hf : ls.heap.Frame h' (cells i) new) (hl : ListAt h' o xs new) :
    Stands ⟨h', Function.update ls.lists i o⟩ (Function.update t i xs)
      (Function.update cells i new) where
  owned := by
    have howned := ho.owned.replace (B := listAt o xs) hf hl
    convert howned using 1
    funext j
    rcases eq_or_ne j i with rfl | hne
    · simp
    · simp [hne]
  covered := ho.covered.replace hf

/-- The variable that an action is about. -/
def Action.variable : Action α → ℕ
  | .create i => i
  | .call i _ => i
  | .destroy i => i

/-- One action: it answers as on sequences, and the cells it leaves to its variable are at
most what the variable had or 128 more than there are elements. -/
theorem perform_spec {ls : Lists α} {t : Sequences α} {cells : ℕ → List ℕ}
    (ho : Stands ls t cells) (a : Action α) (mem : Supply α) (ha : a.Allowed ls) :
    ∃ ls' reply, ls.perform mem a = .ok (ls', reply) ∧
      ∃ t' new, Sequences.Step t ⟨mem, a, reply⟩ t' ∧
        Stands ls' t' (Function.update cells a.variable new) ∧
        new.length ≤ max (cells a.variable).length (((t' a.variable).getD []).length + 128) := by
  cases a with
  | create i =>
      have hold : cells i = [] := by
        have hlist := ho.lists i
        rw [show ls.lists i = none from ha] at hlist
        exact hlist.of_none
      by_cases hblocks : 2 ≤ mem.blocks.length
      · obtain ⟨h', lld, hcreate, hh, hframe⟩ := linkedListCreate_spec ls.heap hblocks
        refine ⟨_, .status true, ?_, Function.update t i (some []), cellsOf lld [] [],
          ⟨true, fun _ => rfl, rfl⟩, ho.replace (by rwa [hold]) (.present hh), ?_⟩
        · rw [Lists.perform, hcreate]
        · simp only [cellsOf, List.nil_append, List.length_singleton]
          omega
      · refine ⟨_, .status false, ?_, Function.update t i none, [],
          ⟨false, fun hle => absurd hle hblocks, rfl⟩,
          ho.replace (by rw [hold]; exact .refl _ _) .absent, Nat.zero_le _⟩
        rw [Lists.perform, linkedListCreate_eq_none _ hblocks]
  | call i c =>
      obtain ⟨lld, hlld, hc⟩ := ha
      have hlist := ho.lists i
      rw [hlld] at hlist
      obtain ⟨ns, fs, xs, hxs, hcells, hh⟩ := hlist.of_some
      obtain ⟨granted, hgranted, h', lld', hrun, ns', fs', hh', hframe, hlen⟩ :=
        c.run_spec mem hh hc
      refine ⟨_, (c.onSequence granted mem.room xs).2, ?_,
        Function.update t i (some (c.onSequence granted mem.room xs).1), cellsOf lld' ns' fs',
        ⟨granted, fun hle => hgranted ?_, ?_⟩, ho.replace (hcells ▸ hframe) (.present hh'), ?_⟩
      · simp only [Lists.perform, hlld, deref_some, bind_ok, hrun, pure_eq_ok]
      · rintro hnil
        rw [hnil] at hle
        simp [Action.needs] at hle
      · simp only [Action.onSequences, hxs]
      · simp only [Action.variable, hcells, cellsOf, List.length_cons, List.length_append,
          Function.update_self, Option.getD_some]
        omega
  | destroy i =>
      obtain ⟨lld, hlld⟩ := Option.ne_none_iff_exists'.mp ha
      have hlist := ho.lists i
      rw [hlld] at hlist
      obtain ⟨ns, fs, xs, hxs, hcells, hh⟩ := hlist.of_some
      obtain ⟨h', hdestroy, hframe⟩ := llDestroy_spec hh
      refine ⟨_, .handed xs, ?_, Function.update t i none, [], ⟨true, fun _ => rfl, ?_⟩,
        ho.replace (hcells ▸ hframe) .absent, Nat.zero_le _⟩
      · simp only [Lists.perform, hlld, deref_some, bind_ok, hdestroy, pure_eq_ok]
      · simp only [Action.onSequences, hxs, Option.getD_some]

/-! ## Runs -/

/-- A step of a program is one on sequences. -/
theorem Stands.step {ls ls' : Lists α} {t : Sequences α} {cells : ℕ → List ℕ} {ev : Event α}
    (ho : Stands ls t cells) (hstep : Lists.Step ls ev ls') :
    ∃ t' new, Sequences.Step t ev t' ∧
      Stands ls' t' (Function.update cells ev.action.variable new) ∧
      new.length ≤ max (cells ev.action.variable).length
        (((t' ev.action.variable).getD []).length + 128) := by
  obtain ⟨mem, a, reply⟩ := ev
  obtain ⟨ls₁, reply₁, hperform, hrest⟩ := perform_spec ho a mem hstep.1
  have heq := hstep.2
  rw [hperform, Except.ok.injEq, Prod.mk.injEq] at heq
  obtain ⟨rfl, rfl⟩ := heq
  exact hrest

theorem Stands.run {ls ls' : Lists α} {t : Sequences α} {cells : ℕ → List ℕ} {es : List (Event α)}
    (ho : Stands ls t cells) (hrun : Transition.Run Lists.Step ls es ls') :
    ∃ t' cells', Transition.Run Sequences.Step t es t' ∧ Stands ls' t' cells' := by
  induction hrun generalizing t cells with
  | nil => exact ⟨t, cells, .nil t, ho⟩
  | cons hstep _ ih =>
      obtain ⟨t₁, new, hstep₁, ho₁, -⟩ := ho.step hstep
      obtain ⟨t', cells', hrun', ho'⟩ := ih ho₁
      exact ⟨t', cells', .cons hstep₁ hrun', ho'⟩

theorem Stands.size_eq {ls : Lists α} {t : Sequences α} {cells : ℕ → List ℕ}
    (ho : Stands ls t cells) (i : ℕ) :
    (ls.lists i).map LlData.size = (t i).map fun xs => (xs.length : ℤ) := by
  have hlist := ho.lists i
  generalize ls.lists i = o at hlist ⊢
  generalize t i = xs at hlist ⊢
  generalize cells i = ps at hlist
  cases hlist with
  | absent => rfl
  | present hh => rw [Option.map_some, Option.map_some, hh.size_eq]

/-- Every program over linked lists answers as one over sequences, whenever `malloc` fails
and whatever is left in the memory it hands out, and no allowed action faults. -/
theorem lists_refine_sequences {es : List (Event α)} {ls : Lists α}
    (hrun : Transition.Run Lists.Step Lists.empty es ls) :
    (∃ t, Transition.Run Sequences.Step (fun _ => none) es t ∧
      ∀ i, (ls.lists i).map LlData.size = (t i).map fun xs => (xs.length : ℤ)) ∧
    ∀ (a : Action α) mem, a.Allowed ls → ∃ ls' reply, ls.perform mem a = .ok (ls', reply) := by
  obtain ⟨t, cells, hrun', ho⟩ := stands_empty.run hrun
  refine ⟨⟨t, hrun', ho.size_eq⟩, fun a mem ha => ?_⟩
  obtain ⟨ls', reply, hperform, -⟩ := perform_spec ho a mem ha
  exact ⟨ls', reply, hperform⟩

/-- A program that adds an element, fails to add one to a list it cannot create, and
destroys what it has. The blocks it gets hold old links. -/
def errand : List (Event ℕ) :=
  [⟨⟨[⟨none, some 7, some 9⟩, ⟨some 3, none, none⟩], true⟩, .create 0, .status true⟩,
    ⟨⟨[⟨some 8, some 8, none⟩], true⟩, .call 0 (.add (some 5)), .status true⟩,
    ⟨⟨[], true⟩, .create 1, .status false⟩,
    ⟨⟨[], true⟩, .call 0 (.remove 0), .element (some (some 5))⟩,
    ⟨⟨[], true⟩, .destroy 0, .handed []⟩]

theorem errand_runs : ∃ ls, Transition.Run Lists.Step Lists.empty errand ls ∧
    ∀ i, ls.lists i = none := by
  refine ⟨_, .cons ⟨rfl, rfl⟩ (.cons ⟨⟨_, rfl, trivial⟩, rfl⟩ (.cons ⟨rfl, rfl⟩
    (.cons ⟨⟨_, rfl, .inl (by decide)⟩, rfl⟩ (.cons ⟨Option.some_ne_none _, rfl⟩ (.nil _))))), ?_⟩
  intro i
  rcases i with _ | _ | i <;> rfl

theorem lists_refine_sequences_errand :
    ∃ t, Transition.Run Sequences.Step (fun _ => none) errand t := by
  obtain ⟨ls, hrun, -⟩ := errand_runs
  obtain ⟨⟨t, ht, -⟩, -⟩ := lists_refine_sequences hrun
  exact ⟨t, ht⟩

/-- A program that has destroyed its lists has freed every cell, and each just once: a
second `free` would have been a fault. -/
theorem lists_freed {es : List (Event α)} {ls : Lists α}
    (hrun : Transition.Run Lists.Step Lists.empty es ls) (hdone : ∀ i, ls.lists i = none) (p : ℕ) :
    ls.heap.cells p = none := by
  obtain ⟨t, cells, -, ho⟩ := stands_empty.run hrun
  cases hp : ls.heap.cells p with
  | none => rfl
  | some a =>
      obtain ⟨i, hi⟩ := ho.covered p a hp
      have hlist := ho.lists i
      rw [hdone i] at hlist
      rw [hlist.of_none] at hi
      cases hi

theorem lists_freed_errand : ∃ ls, Transition.Run Lists.Step Lists.empty errand ls ∧
    ls.heap.cells = fun _ => none := by
  obtain ⟨ls, hrun, hdone⟩ := errand_runs
  exact ⟨ls, hrun, funext (lists_freed hrun hdone)⟩

/-! ## Memory -/

/-- A step of a program with the variables below `k` that leaves no list with more than `B`
elements. -/
def Lists.SmallStep (k B : ℕ) (ls : Lists α) (ev : Event α) (ls' : Lists α) : Prop :=
  Lists.Step ls ev ls' ∧ ev.action.variable < k ∧
    ∀ i lld, ls'.lists i = some lld → lld.size ≤ B

/-- The cells of `k` lists with at most `B` elements each. -/
structure Small (k B : ℕ) (cells : ℕ → List ℕ) : Prop where
  length_le : ∀ i, (cells i).length ≤ B + 128
  unused : ∀ i, k ≤ i → cells i = []

theorem Stands.smallStep {k B : ℕ} {ls ls' : Lists α} {t : Sequences α} {cells : ℕ → List ℕ}
    {ev : Event α} (ho : Stands ls t cells) (hs : Small k B cells)
    (hstep : Lists.SmallStep k B ls ev ls') :
    ∃ t' cells', Stands ls' t' cells' ∧ Small k B cells' := by
  obtain ⟨hstep, hvar, hsmall⟩ := hstep
  obtain ⟨t', new, -, ho', hnew⟩ := ho.step hstep
  refine ⟨t', _, ho', fun i => ?_, fun i hi => ?_⟩
  · have hsize : ((t' ev.action.variable).getD []).length ≤ B := by
      have heq := ho'.size_eq ev.action.variable
      cases ht : t' ev.action.variable with
      | none => simp
      | some xs =>
          rw [ht, Option.map_some, Option.map_eq_some_iff] at heq
          obtain ⟨lld, hlld, hlen⟩ := heq
          have hle := hsmall _ lld hlld
          rw [hlen] at hle
          simpa using hle
    rcases eq_or_ne i ev.action.variable with rfl | hne
    · rw [Function.update_self]
      have hold := hs.length_le ev.action.variable
      omega
    · rw [Function.update_of_ne hne]
      exact hs.length_le i
  · rw [Function.update_of_ne (by omega)]
    exact hs.unused i hi

/-- A list never has more than 127 nodes beyond the largest number of elements it held: a
program needs memory for what its lists held at most, not for what passed through them. -/
theorem liveCells_le {k B : ℕ} {es : List (Event α)} {ls : Lists α}
    (hrun : Transition.Run (Lists.SmallStep k B) Lists.empty es ls) :
    ls.heap.liveCells.length ≤ k * (B + 128) := by
  obtain ⟨t, cells, ho, hs⟩ := hrun.invariant (P := fun _ => True)
    (I := fun ls => ∃ t cells, Stands ls t cells ∧ Small k B cells)
    (fun ls ev ls' ⟨t, cells, ho, hs⟩ _ hstep => ho.smallStep hs hstep)
    (fun _ _ => trivial) ⟨_, _, stands_empty, fun _ => Nat.zero_le _, fun _ _ => rfl⟩
  have hall : ∀ p a, ls.heap.cells p = some a → p ∈ (List.range k).flatMap cells := by
    intro p a hp
    obtain ⟨i, hi⟩ := ho.covered p a hp
    refine List.mem_flatMap.mpr ⟨i, List.mem_range.mpr ?_, hi⟩
    by_contra hle
    rw [hs.unused i (by omega)] at hi
    cases hi
  calc ls.heap.liveCells.length
      ≤ ((List.range k).flatMap cells).length := length_liveCells_le hall
    _ = ((List.range k).map fun i => (cells i).length).sum := List.length_flatMap
    _ ≤ ((List.range k).map fun i => (cells i).length).length • (B + 128) :=
        List.sum_le_card_nsmul _ _ (by simpa using fun i _ => hs.length_le i)
    _ = k * (B + 128) := by simp

/-- A program on two lists. Five elements pass through the first, on the four nodes that
`malloc` found before it failed, and one through the second. -/
def passing : List (Event ℕ) :=
  [⟨⟨[⟨none, some 7, some 9⟩, ⟨some 3, none, none⟩], true⟩, .create 0, .status true⟩,
    ⟨⟨[⟨some 4, none, none⟩, ⟨none, none, none⟩], true⟩, .create 1, .status true⟩,
    ⟨⟨.replicate 4 ⟨some 8, some 8, none⟩, true⟩, .call 0 (.add (some 5)), .status true⟩,
    ⟨⟨[], true⟩, .call 0 (.addFirst (some 6)), .status true⟩,
    ⟨⟨[], true⟩, .call 0 .removeFirst, .element (some (some 6))⟩,
    ⟨⟨[], true⟩, .call 0 (.add (some 7)), .status true⟩,
    ⟨⟨.replicate 2 ⟨none, some 0, none⟩, true⟩, .call 1 (.add (some 8)), .status true⟩,
    ⟨⟨[], true⟩, .call 0 .clear, .handed [some 5, some 7]⟩,
    ⟨⟨[], true⟩, .call 0 (.add (some 9)), .status true⟩,
    ⟨⟨[], true⟩, .call 0 (.insert 1 (some 4)), .status true⟩]

theorem liveCells_le_passing : ∃ ls : Lists ℕ,
    Transition.Run (Lists.SmallStep 2 2) Lists.empty passing ls ∧
      ls.heap.liveCells.length = 8 ∧ ls.heap.liveCells.length ≤ 2 * (2 + 128) := by
  have hrun : ∃ ls : Lists ℕ, Transition.Run (Lists.SmallStep 2 2) Lists.empty passing ls ∧
      ls.heap.liveCells.length = 8 := by
    refine ⟨_, .cons ⟨⟨rfl, rfl⟩, by decide, ?_⟩ (.cons ⟨⟨rfl, rfl⟩, by decide, ?_⟩
      (.cons ⟨⟨⟨_, rfl, trivial⟩, rfl⟩, by decide, ?_⟩
      (.cons ⟨⟨⟨_, rfl, trivial⟩, rfl⟩, by decide, ?_⟩
      (.cons ⟨⟨⟨_, rfl, trivial⟩, rfl⟩, by decide, ?_⟩
      (.cons ⟨⟨⟨_, rfl, trivial⟩, rfl⟩, by decide, ?_⟩
      (.cons ⟨⟨⟨_, rfl, trivial⟩, rfl⟩, by decide, ?_⟩
      (.cons ⟨⟨⟨_, rfl, trivial⟩, rfl⟩, by decide, ?_⟩
      (.cons ⟨⟨⟨_, rfl, trivial⟩, rfl⟩, by decide, ?_⟩
      (.cons ⟨⟨⟨_, rfl, trivial⟩, rfl⟩, by decide, ?_⟩ (.nil _)))))))))), rfl⟩
    all_goals
      rintro (_ | _ | i) lld hlld
      all_goals cases hlld
      all_goals decide
  obtain ⟨ls, hls, hcells⟩ := hrun
  exact ⟨ls, hls, hcells, liveCells_le hls⟩

end CliMessaging.Standalone.LinkedList
