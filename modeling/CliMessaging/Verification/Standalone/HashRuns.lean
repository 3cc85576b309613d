import CliMessaging.Library.Ownership
import CliMessaging.Library.Transition
import CliMessaging.Verification.Standalone.HashPurge

/-! # Programs over hash maps

The tables of a program are finite maps: any calls on any of them, in any order, answer as
finite maps would. Only the order in which an array lists a map is left open. -/

namespace CliMessaging.Standalone.HashMap

open Heap

variable {α : Type} {h h' : Heap (HMEntry α)} {hmd hmd' : HmData} {ps : List ℕ}
  {f : Key → Option α} {mem : Supply} {i : ℕ}

/-! ## Finite maps -/

/-- What a call may answer on a finite map, and the map that it leaves. A new entry is
`granted` when `malloc` finds it and the copy of its key. -/
inductive Call.OnMap (granted room : Bool) (f : Key → Option α) :
    Call α → (Key → Option α) → Reply α → Prop where
  | clear {pairs} (hl : Lists pairs f) :
      OnMap granted room f .clear (fun _ => none) (.handed (pairs.map Prod.snd))
  | containsKey (key) : OnMap granted room f (.containsKey key) f (.status (f key).isSome)
  | noEntries (len) {pairs} (hl : Lists pairs f) (hnone : ¬(pairs ≠ [] ∧ room)) :
      OnMap granted room f (.entryArray len) f (.entries none len)
  | entryArray (len) {pairs} (hl : Lists pairs f) (hsome : pairs ≠ [] ∧ room) :
      OnMap granted room f (.entryArray len) f (.entries (some pairs) pairs.length)
  | get (key) : OnMap granted room f (.get key) f (.element (f key))
  | isEmpty {pairs} (hl : Lists pairs f) :
      OnMap granted room f .isEmpty f (.status (decide (pairs.length = 0)))
  | noKeys (len) {pairs} (hl : Lists pairs f) (hnone : ¬(pairs ≠ [] ∧ room)) :
      OnMap granted room f (.keyArray len) f (.keys none len)
  | keyArray (len) {pairs} (hl : Lists pairs f) (hsome : pairs ≠ [] ∧ room) :
      OnMap granted room f (.keyArray len) f (.keys (some (pairs.map Prod.fst)) pairs.length)
  | put (key element previous) :
      OnMap granted room f (.put key element previous)
        (if (f key).isSome ∨ granted then Function.update f key (some element) else f)
        (.put ((f key).isSome || granted) (f key))
  | putUnique (key element) :
      OnMap granted room f (.putUnique key element)
        (if f key = none ∧ granted then Function.update f key (some element) else f)
        (.status (decide (f key = none) && granted))
  | remove (key) :
      OnMap granted room f (.remove key) (Function.update f key none) (.element (f key))
  | size {pairs} (hl : Lists pairs f) : OnMap granted room f .size f (.number pairs.length)

/-- The functions do not check that the index of a key is in range. Without a variable for the
previous element, `hm_put` is only for keys that the table does not have. -/
def Call.Allowed (h : Heap (HMEntry α)) (hmd : HmData) : Call α → Prop
  | .containsKey key => Hashable key
  | .get key => Hashable key
  | .put key _ previous =>
      Hashable key ∧ (previous = true ∨ hmContainsKey h hmd key = .ok false)
  | .putUnique key _ => Hashable key
  | .remove key => Hashable key
  | _ => True

/-! ## One call -/

theorem exists_lists (ht : Table h hmd ps) (hs : Stores h ps f) :
    ∃ pairs : List (Key × α), Lists pairs f ∧ (pairs.length : ℤ) = hmd.size := by
  obtain ⟨css, hchains, hnd, hcss⟩ := ht.exists_chains
  obtain ⟨es, -, hcells⟩ := chains_spec hchains hnd
  obtain ⟨hlen, hlists⟩ := hs.lists ht hnd hcss hcells
  exact ⟨_, hlists, by rw [List.length_map, hlen]⟩

/-- A call answers as it may on the finite map. -/
theorem Call.run_spec (c : Call α) (mem : Supply) (ht : Table h hmd ps) (hs : Stores h ps f)
    (hc : c.Allowed h hmd) :
    ∃ h' hmd' ps' f' reply, c.run mem h hmd = .ok (h', hmd', reply) ∧
      c.OnMap (mem.grants.entry && mem.grants.key) mem.room f f' reply ∧
      Table h' hmd' ps' ∧ Stores h' ps' f' ∧ h.Frame h' ps ps' := by
  obtain ⟨pairs, hpairs, hlen⟩ := exists_lists ht hs
  have hne : ∀ pairs : List (Key × α), (pairs.length : ℤ) = hmd.size →
      (0 < hmd.size ∧ mem.room ↔ pairs ≠ [] ∧ mem.room) := fun pairs hlen => by
    rw [← hlen, Int.natCast_pos, List.length_pos_iff]
  cases c with
  | clear =>
      obtain ⟨h', hmd', pairs, hclear, hlists, ht', hframe, -⟩ := hmClear_spec ht hs
      exact ⟨h', hmd', [], _, _, by rw [Call.run, hclear]; rfl, .clear hlists, ht',
        stores_nil h', hframe⟩
  | containsKey key =>
      exact ⟨h, hmd, ps, f, _, by rw [Call.run, hmContainsKey_spec ht hs (hc _ ht.capacity)]; rfl,
        .containsKey key, ht, hs, .refl h ps⟩
  | entryArray len =>
      rcases hmEntryArray_spec mem.room ht hs len with ⟨hroom, hrun⟩ | ⟨_, hroom, heq, hrun, hl⟩
      · exact ⟨h, hmd, ps, f, _, by rw [Call.run, hrun]; rfl,
          .noEntries len hpairs (mt (hne _ hlen).mpr hroom), ht, hs, .refl h ps⟩
      · exact ⟨h, hmd, ps, f, _, by rw [Call.run, hrun]; rfl,
          .entryArray len hl ((hne _ heq).mp hroom), ht, hs, .refl h ps⟩
  | get key =>
      exact ⟨h, hmd, ps, f, _, by rw [Call.run, hmGet_spec ht hs (hc _ ht.capacity)]; rfl,
        .get key, ht, hs, .refl h ps⟩
  | isEmpty =>
      refine ⟨h, hmd, ps, f, _, rfl, ?_, ht, hs, .refl h ps⟩
      have hzero : hmIsEmpty hmd = decide (pairs.length = 0) := by
        rw [hmIsEmpty, ← hlen]
        simp
      rw [hzero]
      exact .isEmpty hpairs
  | keyArray len =>
      rcases hmKeyArray_spec mem.room ht hs len with ⟨hroom, hrun⟩ | ⟨_, hroom, heq, hrun, hl⟩
      · exact ⟨h, hmd, ps, f, _, by rw [Call.run, hrun]; rfl,
          .noKeys len hpairs (mt (hne _ hlen).mpr hroom), ht, hs, .refl h ps⟩
      · exact ⟨h, hmd, ps, f, _, by rw [Call.run, hrun]; rfl,
          .keyArray len hl ((hne _ heq).mp hroom), ht, hs, .refl h ps⟩
  | put key element previous =>
      obtain ⟨hkey, hprevious⟩ := hc
      have habsent : previous = true ∨ f key = none := hprevious.imp_right fun hcontains => by
        rw [hmContainsKey_spec ht hs (hkey _ ht.capacity), Except.ok.injEq] at hcontains
        simpa using hcontains
      obtain ⟨h', hmd', ps', hrun, ht', hs', hframe⟩ := hmPut_spec mem.grants ht hs hkey element
        habsent
      refine ⟨h', hmd', ps', _, _, by rw [Call.run, hrun]; rfl, .put key element previous, ht',
        ?_, hframe⟩
      simpa using hs'
  | putUnique key element =>
      obtain ⟨h', hmd', ps', hrun, ht', hs', hframe⟩ :=
        hmPutUnique_spec mem.grants ht hs hc element
      refine ⟨h', hmd', ps', _, _, by rw [Call.run, hrun, Bool.and_assoc]; rfl,
        .putUnique key element, ht', ?_, hframe⟩
      simpa using hs'
  | remove key =>
      obtain ⟨h', hmd', ps', hrun, ht', hs', hframe, -⟩ := hmRemove_spec ht hs hc
      exact ⟨h', hmd', ps', _, _, by rw [Call.run, hrun]; rfl, .remove key, ht', hs', hframe⟩
  | size =>
      refine ⟨h, hmd, ps, f, _, rfl, ?_, ht, hs, .refl h ps⟩
      rw [hmSize, ← hlen]
      exact .size hpairs

/-! ## Programs -/

/-- An action of a program, what `malloc` had for it, and the answer. -/
structure Event (α : Type) where
  mem : Supply
  action : Action α
  reply : Reply α

/-- A program does not overwrite the variable of a table and calls only tables that exist. -/
def Action.Allowed (ms : Maps α) : Action α → Prop
  | .create i => ms.maps i = none
  | .call i c => ∃ hmd, ms.maps i = some hmd ∧ c.Allowed ms.heap hmd
  | .destroy i => ms.maps i ≠ none

def Maps.empty : Maps α := ⟨.empty, fun _ => none⟩

def Maps.Step (ms : Maps α) (ev : Event α) (ms' : Maps α) : Prop :=
  ev.action.Allowed ms ∧ ms.perform ev.mem ev.action = .ok (ms', ev.reply)

/-- Finite maps by variable. -/
abbrev FiniteMaps (α : Type) := ℕ → Option (Key → Option α)

/-- What an action may do to finite maps. -/
inductive FiniteMaps.Step (t : FiniteMaps α) : Event α → FiniteMaps α → Prop where
  | create (mem : Supply) (i : ℕ) (htable : mem.table = true) :
      Step t ⟨mem, .create i, .status true⟩ (Function.update t i (some fun _ => none))
  | noTable (mem : Supply) (i : ℕ) (htable : mem.table = false) :
      Step t ⟨mem, .create i, .status false⟩ (Function.update t i none)
  | call (mem : Supply) (i : ℕ) {c f f' reply} (hf : t i = some f)
      (hc : Call.OnMap (mem.grants.entry && mem.grants.key) mem.room f c f' reply) :
      Step t ⟨mem, .call i c, reply⟩ (Function.update t i (some f'))
  | destroy (mem : Supply) (i : ℕ) {f pairs} (hf : t i = some f) (hl : Lists pairs f) :
      Step t ⟨mem, .destroy i, .handed (pairs.map Prod.snd)⟩ (Function.update t i none)

/-- A variable with its table in memory, its finite map and its cells. -/
inductive MapAt (h : Heap (HMEntry α)) :
    Option HmData → Option (Key → Option α) → List ℕ → Prop where
  | absent : MapAt h none none []
  | present {hmd : HmData} {ps : List ℕ} {f : Key → Option α} (ht : Table h hmd ps)
      (hs : Stores h ps f) : MapAt h (some hmd) (some f) ps

/-- A table in memory with its finite map, or no table. -/
def mapAt (o : Option HmData) (f : Option (Key → Option α)) : Assertion (HMEntry α) where
  holds h ps := MapAt h o f ps
  live hm := by
    cases hm with
    | absent => simp [Live]
    | present ht hs => exact ht.live
  congr hm hcells := by
    cases hm with
    | absent => exact .absent
    | present ht hs =>
        exact .present (ht.congr hcells) (hs.congr (fun _ => Iff.rfl) fun p hp =>
          field_congr (hcells p hp))

/-- The tables stand for the finite maps `t`, and every entry belongs to one of them. -/
def Stands (ms : Maps α) (t : FiniteMaps α) : Prop :=
  Filled (fun i => mapAt (ms.maps i) (t i)) ms.heap

variable {ms ms' : Maps α} {t : FiniteMaps α}

theorem stands_empty : Stands (Maps.empty : Maps α) fun _ => none :=
  filled_empty fun _ => .absent

/-- The table of a variable, and that another may take its place. -/
theorem Stands.focus (hs : Stands ms t) (i : ℕ) :
    ∃ ps, MapAt ms.heap (ms.maps i) (t i) ps ∧ ∀ {h' new o f}, ms.heap.Frame h' ps new →
      MapAt h' o f new → Stands ⟨h', Function.update ms.maps i o⟩ (Function.update t i f) := by
  obtain ⟨ps, hmap, hreplace⟩ := Filled.focus hs i
  refine ⟨ps, hmap, fun {h' new o f} hframe hm =>
    (hreplace (B := mapAt o f) hframe hm).congr fun j => ?_⟩
  rcases eq_or_ne j i with rfl | hne
  · simp
  · simp [hne]

theorem MapAt.none {f : Option (Key → Option α)} (hm : MapAt h none f ps) :
    f = none ∧ ps = [] := by
  cases hm
  exact ⟨rfl, rfl⟩

theorem MapAt.some {f : Option (Key → Option α)} (hm : MapAt h (some hmd) f ps) :
    ∃ f', f = some f' ∧ Table h hmd ps ∧ Stores h ps f' := by
  cases hm with
  | present ht hs => exact ⟨_, rfl, ht, hs⟩

/-- One action: it answers as it may on finite maps. -/
theorem perform_spec (hs : Stands ms t) (a : Action α) (mem : Supply)
    (ha : a.Allowed ms) :
    ∃ ms' reply, ms.perform mem a = .ok (ms', reply) ∧
      ∃ t', FiniteMaps.Step t ⟨mem, a, reply⟩ t' ∧ Stands ms' t' := by
  cases a with
  | create i =>
      obtain ⟨ps, hmap, hreplace⟩ := hs.focus i
      rw [show ms.maps i = none from ha] at hmap
      obtain ⟨-, rfl⟩ := hmap.none
      by_cases htable : mem.table
      · exact ⟨_, _, by rw [Maps.perform, if_pos htable], _, .create mem i htable,
          hreplace (.refl _ _) (.present (table_create _) (stores_nil _))⟩
      · exact ⟨_, _, by rw [Maps.perform, if_neg htable], _, .noTable mem i (by simpa using htable),
          hreplace (.refl _ _) .absent⟩
  | call i c =>
      obtain ⟨hmd, hhmd, hc⟩ := ha
      obtain ⟨ps, hmap, hreplace⟩ := hs.focus i
      rw [hhmd] at hmap
      obtain ⟨f, hf, ht, hst⟩ := hmap.some
      obtain ⟨h', hmd', ps', f', reply, hrun, hreply, ht', hst', hframe⟩ :=
        c.run_spec mem ht hst hc
      refine ⟨_, _, ?_, _, .call mem i hf hreply, hreplace hframe (.present ht' hst')⟩
      simp only [Maps.perform, hhmd, deref_some, bind_ok, hrun, pure_eq_ok]
  | destroy i =>
      obtain ⟨hmd, hhmd⟩ := Option.ne_none_iff_exists'.mp ha
      obtain ⟨ps, hmap, hreplace⟩ := hs.focus i
      rw [hhmd] at hmap
      obtain ⟨f, hf, ht, hst⟩ := hmap.some
      obtain ⟨h', pairs, hdestroy, hlists, hframe⟩ := hmDestroy_spec ht hst
      refine ⟨_, _, ?_, _, .destroy mem i hf hlists, hreplace hframe .absent⟩
      simp only [Maps.perform, hhmd, deref_some, bind_ok, hdestroy, pure_eq_ok]

/-! ## Runs -/

theorem Stands.step {ev : Event α} (hs : Stands ms t) (hstep : Maps.Step ms ev ms') :
    ∃ t', FiniteMaps.Step t ev t' ∧ Stands ms' t' := by
  obtain ⟨mem, a, reply⟩ := ev
  obtain ⟨ms₁, reply₁, hperform, hrest⟩ := perform_spec hs a mem hstep.1
  have heq := hstep.2
  rw [hperform, Except.ok.injEq, Prod.mk.injEq] at heq
  obtain ⟨rfl, rfl⟩ := heq
  exact hrest

theorem Stands.run {es : List (Event α)} (hs : Stands ms t)
    (hrun : Transition.Run Maps.Step ms es ms') :
    ∃ t', Transition.Run FiniteMaps.Step t es t' ∧ Stands ms' t' := by
  induction hrun generalizing t with
  | nil => exact ⟨t, .nil t, hs⟩
  | cons hstep _ ih =>
      obtain ⟨t₁, hstep₁, hs₁⟩ := hs.step hstep
      obtain ⟨t', hrun', hs'⟩ := ih hs₁
      exact ⟨t', .cons hstep₁ hrun', hs'⟩

theorem Stands.some (hs : Stands ms t) (hi : ms.maps i = some hmd) :
    ∃ f ps, t i = some f ∧ Table ms.heap hmd ps ∧ Stores ms.heap ps f := by
  obtain ⟨ps, hmap, -⟩ := hs.focus i
  rw [hi] at hmap
  obtain ⟨f, hf, ht, hst⟩ := hmap.some
  exact ⟨f, ps, hf, ht, hst⟩

/-- Every program of allowed actions over hash maps answers as one over finite maps, whenever
`malloc` fails and tables are resized, and no allowed action faults. -/
theorem maps_refine_finite_maps {es : List (Event α)}
    (hrun : Transition.Run Maps.Step Maps.empty es ms) :
    (∃ t, Transition.Run FiniteMaps.Step (fun _ => none) es t ∧
      ∀ i hmd, ms.maps i = some hmd → ∃ f pairs, t i = some f ∧ Lists pairs f ∧
        hmd.size = pairs.length ∧ hmd.load = (pairs.length : ℚ) / hmd.capacity) ∧
    ∀ (a : Action α) mem, a.Allowed ms → ∃ ms' reply, ms.perform mem a = .ok (ms', reply) := by
  obtain ⟨t, hrun', hs⟩ := stands_empty.run hrun
  refine ⟨⟨t, hrun', fun i hmd hi => ?_⟩, fun a mem ha => ?_⟩
  · obtain ⟨f, ps, hf, ht, hst⟩ := hs.some hi
    obtain ⟨pairs, hlists, hlen⟩ := exists_lists ht hst
    refine ⟨f, pairs, hf, hlists, hlen.symm, ?_⟩
    have hsize : (ps.length : ℤ) = pairs.length := ht.size.symm.trans hlen.symm
    rw [Nat.cast_inj] at hsize
    rw [ht.load, hsize]
  · obtain ⟨ms', reply, hperform, -⟩ := perform_spec hs a mem ha
    exact ⟨ms', reply, hperform⟩

theorem hashable_singleton {b : UInt8} (hb : b.toNat < 128) : Hashable [b] :=
  hashable_of_ascii (by simpa using hb)

/-- Blocks for everything -/
def plenty : Supply := ⟨⟨true, true, true⟩, true, true⟩

/-- A program with two keys in one bucket, that removes the one behind the other and destroys
its table. -/
def errand : List (Event ℕ) :=
  [⟨plenty, .create 0, .status true⟩,
    ⟨plenty, .call 0 (.putUnique [97] 5), .status true⟩,
    ⟨plenty, .call 0 (.putUnique [65] 6), .status true⟩,
    ⟨plenty, .call 0 (.put [97] 7 true), .put true (some 5)⟩,
    ⟨plenty, .call 0 (.keyArray 0), .keys (some [[65], [97]]) 2⟩,
    ⟨plenty, .call 0 (.remove [97]), .element (some 7)⟩,
    ⟨⟨⟨true, true, false⟩, true, true⟩, .call 0 (.putUnique [97] 8), .status false⟩,
    ⟨plenty, .destroy 0, .handed [6]⟩]

theorem errand_runs : ∃ ms, Transition.Run Maps.Step Maps.empty errand ms ∧
    ∀ i, ms.maps i = none := by
  have h97 : Hashable [97] := hashable_singleton (by decide)
  have h65 : Hashable [65] := hashable_singleton (by decide)
  refine ⟨_, .cons ⟨rfl, rfl⟩ (.cons ⟨⟨_, rfl, h97⟩, rfl⟩ (.cons ⟨⟨_, rfl, h65⟩, rfl⟩
    (.cons ⟨⟨_, rfl, h97, .inl rfl⟩, rfl⟩ (.cons ⟨⟨_, rfl, trivial⟩, rfl⟩
    (.cons ⟨⟨_, rfl, h97⟩, rfl⟩ (.cons ⟨⟨_, rfl, h97⟩, rfl⟩
    (.cons ⟨Option.some_ne_none _, rfl⟩ (.nil _)))))))), ?_⟩
  intro i
  rcases i with _ | i <;> rfl

theorem maps_refine_finite_maps_errand :
    ∃ t, Transition.Run FiniteMaps.Step (fun _ => none) errand t := by
  obtain ⟨ms, hrun, -⟩ := errand_runs
  obtain ⟨⟨t, ht, -⟩, -⟩ := maps_refine_finite_maps hrun
  exact ⟨t, ht⟩

/-- A program that has destroyed its tables has freed every entry, and each just once. -/
theorem maps_freed {es : List (Event α)} (hrun : Transition.Run Maps.Step Maps.empty es ms)
    (hdone : ∀ i, ms.maps i = none) (p : ℕ) : ms.heap.cells p = none := by
  obtain ⟨t, -, hs⟩ := stands_empty.run hrun
  refine Filled.freed hs (fun i ps hm => ?_) p
  have hmap : MapAt ms.heap (ms.maps i) (t i) ps := hm
  rw [hdone i] at hmap
  exact hmap.none.2

theorem maps_freed_errand : ∃ ms, Transition.Run Maps.Step Maps.empty errand ms ∧
    ms.heap.cells = fun _ => none := by
  obtain ⟨ms, hrun, hdone⟩ := errand_runs
  exact ⟨ms, hrun, funext (maps_freed hrun hdone)⟩

end CliMessaging.Standalone.HashMap
