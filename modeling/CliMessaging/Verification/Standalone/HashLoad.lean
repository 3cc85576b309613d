import CliMessaging.Verification.Standalone.HashRuns

/-! # Loads of hash maps

A table checks its load only after `TRIGGER` changes, so it may hold more than half as many
entries as it has buckets, but only by as many as come between two checks, and by what it was
behind when it was small. -/

namespace CliMessaging.Standalone.HashMap

open Heap

variable {α : Type} {h h' : Heap (HMEntry α)} {hmd hmd' : HmData} {ps : List ℕ} {mem : Grants}
  {key : Key} {element : α} {i : ℤ} {ok : Bool}

/-- The entries that a table with 32 * 2^k buckets may have at a check that does not resize
it. Every earlier check may have come 101 entries late. -/
def quota (k : ℕ) : ℕ := max (16 * 2 ^ k) (16 + 101 * k)

theorem quota_succ (k : ℕ) : quota k + 101 ≤ quota (k + 1) := by
  rw [quota, quota]
  rcases Nat.lt_or_ge k 3 with hk | hk
  · obtain rfl | rfl | rfl : k = 0 ∨ k = 1 ∨ k = 2 := by omega
    all_goals decide
  · have hpow : 2 ^ 3 ≤ 2 ^ k := Nat.pow_le_pow_right (by decide) hk
    rw [pow_succ]
    omega

theorem quota_le (k : ℕ) : quota k ≤ 16 * 2 ^ k + 191 := by
  rcases Nat.lt_or_ge k 6 with hk | hk
  · interval_cases k <;> decide
  · have hpow : 101 * k ≤ 16 * 2 ^ k := by
      induction k, hk using Nat.le_induction with
      | base => decide
      | succ k hk ih =>
          rw [pow_succ]
          omega
    rw [quota]
    omega

theorem quota_eq {k : ℕ} (hk : 6 ≤ k) : quota k = 16 * 2 ^ k := by
  have hpow : 16 + 101 * k ≤ 16 * 2 ^ k := by
    induction k, hk using Nat.le_induction with
    | base => decide
    | succ k hk ih =>
        rw [pow_succ]
        omega
  rw [quota, max_eq_left hpow]

/-- A table short of the largest capacity is behind by the changes since its last check. -/
structure Loaded (hmd : HmData) : Prop where
  loadFactor : hmd.loadFactor = 1 / 2
  changes : 0 ≤ hmd.changes
  size_le : ∀ k < 22, hmd.capacity = 32 * 2 ^ k → hmd.size ≤ quota k + min hmd.changes 101

theorem loaded_of_size_le (hfactor : hmd.loadFactor = 1 / 2) (hchanges : 0 ≤ hmd.changes)
    (hsize : ∀ k < 22, hmd.capacity = 32 * 2 ^ k → hmd.size ≤ quota k) : Loaded hmd :=
  ⟨hfactor, hchanges, fun k hk hcap => by
    have hle := hsize k hk hcap
    omega⟩

theorem loaded_serverTable : Loaded serverTable := by
  refine loaded_of_size_le ?_ (le_refl 0) fun k _ _ => Int.natCast_nonneg _
  rw [serverTable, hashMapCreate]
  norm_num

/-- At most one entry comes or goes, and it counts as a change. -/
structure Moved (hmd hmd' : HmData) : Prop where
  capacity : hmd'.capacity = hmd.capacity
  loadFactor : hmd'.loadFactor = hmd.loadFactor
  counts : hmd'.size = hmd.size ∧ hmd'.changes = hmd.changes ∨
    hmd'.size ≤ hmd.size + 1 ∧ hmd'.changes = hmd.changes + 1

theorem Moved.refl (hmd : HmData) : Moved hmd hmd := ⟨rfl, rfl, .inl ⟨rfl, rfl⟩⟩

theorem Loaded.moved (hl : Loaded hmd) (hm : Moved hmd hmd')
    (hroom : hmd.changes ≤ trigger ∨ hmd'.size ≤ hmd.size) : Loaded hmd' := by
  rw [trigger] at hroom
  obtain ⟨hfactor, hchanges, hsize⟩ := hl
  obtain ⟨hcap, hfactor', hcounts⟩ := hm
  refine ⟨hfactor'.trans hfactor, by omega, fun k hk hk' => ?_⟩
  have hle := hsize k hk (hcap ▸ hk')
  omega

/-- A check leaves at most `TRIGGER` changes, and a table that is not resized is in quota. -/
theorem Loaded.check (hl : Loaded hmd) (ht : Table h hmd ps)
    (hcheck : checkLoad true h hmd = .ok (h', hmd')) :
    Table h' hmd' ps ∧ Loaded hmd' ∧ hmd'.changes ≤ trigger := by
  obtain ⟨h₁, hmd₁, hcheck₁, ht₁, -, -, hchanges, hcap, hfactor⟩ := checkLoad_spec true ht
  rw [hcheck, Except.ok.injEq, Prod.mk.injEq] at hcheck₁
  obtain ⟨rfl, rfl⟩ := hcheck₁
  have hsize : hmd'.size = hmd.size := ht₁.size.trans ht.size.symm
  by_cases htrigger : hmd.changes > trigger
  · rw [if_pos htrigger] at hchanges
    have hchanges' : hmd'.changes ≤ trigger := by
      rw [hchanges, trigger]
      decide
    refine ⟨ht₁, loaded_of_size_le (hfactor.trans hl.loadFactor) hchanges.ge ?_, hchanges'⟩
    intro k hk hk'
    obtain ⟨j, hj, hcapj⟩ := tableSize_iff.mp ht.capacity
    by_cases hload : hmd.load > hmd.loadFactor
    · rw [if_pos ⟨htrigger, hload, rfl⟩] at hcap
      have hpow : 2 ^ k ≤ 2 ^ 21 := Nat.pow_le_pow_right (by decide) (by omega)
      have hne : Standalone.resize hmd.capacity ≠ hmd.capacity := by
        intro heq
        rw [heq, hk'] at hcap
        refine resize_ne_self ht.capacity ?_ heq
        rw [← hcap, maxCapacity]
        omega
      have hkj : k = j + 1 := by
        rw [hk', resize_capacity ht.capacity hne, hcapj] at hcap
        have hpow' : 2 ^ k = 2 ^ (j + 1) := by
          rw [pow_succ]
          omega
        exact Nat.pow_right_injective (le_refl 2) hpow'
      subst hkj
      have hle := hl.size_le j (by omega) hcapj
      have hquota := quota_succ j
      omega
    · rw [if_neg fun hc => hload hc.2.1] at hcap
      have hcapk : hmd.capacity = 32 * 2 ^ k := hcap ▸ hk'
      rw [hl.loadFactor, ht.load, hcapk, gt_iff_lt, not_lt, div_le_div_iff₀ (by positivity)
        (by decide)] at hload
      push_cast at hload
      have hlen : ps.length ≤ 16 * 2 ^ k := by
        have hload' : (ps.length * 2 : ℕ) ≤ 32 * 2 ^ k := by
          exact_mod_cast hload.trans_eq (one_mul _)
        omega
      have hquota : 16 * 2 ^ k ≤ quota k := le_max_left _ _
      rw [hsize, ht.size]
      exact_mod_cast hlen.trans hquota
  · rw [if_neg htrigger] at hchanges
    rw [if_neg fun hc => htrigger hc.1] at hcap
    refine ⟨ht₁, hl.moved ⟨hcap, hfactor, .inl ⟨hsize, hchanges⟩⟩ (.inr hsize.le), ?_⟩
    omega

/-! ## Calls -/

theorem insertEntry_moved (hrun : insertEntry mem h hmd key element i = .ok (h', hmd', ok)) :
    Moved hmd hmd' := by
  rw [insertEntry] at hrun
  split at hrun
  · obtain ⟨first, -, hrun⟩ := bind_eq_ok.mp hrun
    cases hrun
    exact ⟨rfl, rfl, .inr ⟨le_refl _, rfl⟩⟩
  · cases hrun
    exact .refl hmd

/-- What the two functions that add an entry do after the check. -/
theorem hmPutUnique_moved (hrun : hmPutUnique mem h hmd key element = .ok (h', hmd', ok)) :
    ∃ h₁ hmd₁, checkLoad mem.array h hmd = .ok (h₁, hmd₁) ∧ Moved hmd₁ hmd' := by
  obtain ⟨⟨h₁, hmd₁⟩, hcheck, hrun⟩ := bind_eq_ok.mp hrun
  refine ⟨h₁, hmd₁, hcheck, ?_⟩
  obtain ⟨⟨found, i⟩, -, hrun⟩ := bind_eq_ok.mp hrun
  cases found with
  | some p =>
      cases hrun
      exact .refl _
  | none => exact insertEntry_moved hrun

theorem hmPut_moved {previous : Bool} {old : Option α}
    (hrun : hmPut mem h hmd key element previous = .ok (h', hmd', ok, old)) :
    ∃ h₁ hmd₁, checkLoad mem.array h hmd = .ok (h₁, hmd₁) ∧ Moved hmd₁ hmd' := by
  obtain ⟨⟨h₁, hmd₁⟩, hcheck, hrun⟩ := bind_eq_ok.mp hrun
  refine ⟨h₁, hmd₁, hcheck, ?_⟩
  obtain ⟨⟨found, i⟩, -, hrun⟩ := bind_eq_ok.mp hrun
  cases found with
  | none =>
      obtain ⟨⟨h₂, hmd₂, ans⟩, hinsert, hrun⟩ := bind_eq_ok.mp hrun
      cases hrun
      exact insertEntry_moved hinsert
  | some p =>
      cases previous with
      | false =>
          obtain ⟨⟨h₂, hmd₂, ans⟩, hinsert, hrun⟩ := bind_eq_ok.mp hrun
          cases hrun
          exact insertEntry_moved hinsert
      | true =>
          obtain ⟨entry, -, hrun⟩ := bind_eq_ok.mp hrun
          obtain ⟨h₂, -, hrun⟩ := bind_eq_ok.mp hrun
          cases hrun
          exact .refl _

theorem hmRemove_moved {old : Option α} (hrun : hmRemove h hmd key = .ok (h', hmd', old)) :
    Moved hmd hmd' ∧ hmd'.size ≤ hmd.size := by
  obtain ⟨⟨found, i⟩, -, hrun⟩ := bind_eq_ok.mp hrun
  cases found with
  | none =>
      cases hrun
      exact ⟨.refl hmd, le_refl _⟩
  | some p =>
      obtain ⟨entry, -, hrun⟩ := bind_eq_ok.mp hrun
      obtain ⟨first, -, hrun⟩ := bind_eq_ok.mp hrun
      obtain ⟨before, -, hrun⟩ := bind_eq_ok.mp hrun
      cases before with
      | none =>
          obtain ⟨h₁, -, hrun⟩ := bind_eq_ok.mp hrun
          cases hrun
          exact ⟨⟨rfl, rfl, .inr ⟨by simp; omega, rfl⟩⟩, by simp⟩
      | some q =>
          obtain ⟨h₁, -, hrun⟩ := bind_eq_ok.mp hrun
          obtain ⟨h₂, -, hrun⟩ := bind_eq_ok.mp hrun
          cases hrun
          exact ⟨⟨rfl, rfl, .inr ⟨by simp; omega, rfl⟩⟩, by simp⟩

theorem Loaded.call {c : Call α} {mem : Supply} {reply : Reply α} (hl : Loaded hmd)
    (ht : Table h hmd ps) (hgranted : mem.grants.array = true)
    (hrun : c.run mem h hmd = .ok (h', hmd', reply)) : Loaded hmd' := by
  have hadded : ∀ h₁ hmd₁, checkLoad mem.grants.array h hmd = .ok (h₁, hmd₁) →
      Moved hmd₁ hmd' → Loaded hmd' := fun h₁ hmd₁ hcheck hm => by
    rw [hgranted] at hcheck
    obtain ⟨-, hl₁, hchanges⟩ := hl.check ht hcheck
    exact hl₁.moved hm (.inl hchanges)
  cases c with
  | clear =>
      obtain ⟨⟨h₁, hmd₁, elements⟩, hclear, hrun⟩ := bind_eq_ok.mp hrun
      cases hrun
      obtain ⟨⟨h₂, hmd₂, elements⟩, hpurge, hclear⟩ := bind_eq_ok.mp hclear
      cases hclear
      obtain ⟨⟨h₃, elements⟩, -, hpurge⟩ := bind_eq_ok.mp hpurge
      cases hpurge
      exact loaded_of_size_le hl.loadFactor (le_refl 0) fun k _ _ => Int.natCast_nonneg _
  | put key element previous =>
      obtain ⟨⟨h₁, hmd₁, ok, old⟩, hput, hrun⟩ := bind_eq_ok.mp hrun
      cases hrun
      obtain ⟨h₁, hmd₁, hcheck, hm⟩ := hmPut_moved hput
      exact hadded h₁ hmd₁ hcheck hm
  | putUnique key element =>
      obtain ⟨⟨h₁, hmd₁, ok⟩, hput, hrun⟩ := bind_eq_ok.mp hrun
      cases hrun
      obtain ⟨h₁, hmd₁, hcheck, hm⟩ := hmPutUnique_moved hput
      exact hadded h₁ hmd₁ hcheck hm
  | remove key =>
      obtain ⟨⟨h₁, hmd₁, old⟩, hremove, hrun⟩ := bind_eq_ok.mp hrun
      cases hrun
      obtain ⟨hm, hle⟩ := hmRemove_moved hremove
      exact hl.moved hm (.inr hle)
  | isEmpty =>
      cases hrun
      exact hl
  | size =>
      cases hrun
      exact hl
  | _ =>
      obtain ⟨_, -, hrun⟩ := bind_eq_ok.mp hrun
      cases hrun
      exact hl

/-! ## A table that is resized -/

/-- A new key, when `malloc` finds everything. -/
theorem hmPutUnique_new {f : Key → Option α} (ht : Table h hmd ps) (hs : Stores h ps f)
    (hkey : Hashable key) (hfree : f key = none) (element : α) :
    ∃ h' hmd' ps', hmPutUnique ⟨true, true, true⟩ h hmd key element = .ok (h', hmd', true) ∧
      Table h' hmd' ps' ∧ Stores h' ps' (Function.update f key (some element)) ∧
      hmd'.size = hmd.size + 1 ∧ hmd'.loadFactor = hmd.loadFactor ∧
      hmd'.changes = (if hmd.changes > trigger then 0 else hmd.changes) + 1 ∧
      hmd'.capacity = if hmd.changes > trigger ∧ hmd.load > hmd.loadFactor then
        Standalone.resize hmd.capacity else hmd.capacity := by
  obtain ⟨h₁, hmd₁, hcheck, ht₁, hpair, -, hchanges, hcap, hfactor⟩ := checkLoad_spec true ht
  have hs₁ : Stores h₁ ps f := hs.congr (fun _ => Iff.rfl) fun p _ => by rw [hpair]
  have hgrants : (⟨true, true, true⟩ : Grants).entry = true ∧
      (⟨true, true, true⟩ : Grants).key = true := ⟨rfl, rfl⟩
  rcases findKey_cases ht₁ hs₁ (hkey _ ht₁.capacity) with ⟨-, hfind⟩ | ⟨p, v, hf, -⟩
  · obtain ⟨h₂, hmd₂, hinsert, ht₂, hs₂, -, hcap₂, hchanges₂, hfactor₂⟩ :=
      insertEntry_spec ht₁ hs₁ hkey hfree hgrants element
    refine ⟨h₂, hmd₂, _, ?_, ht₂, hs₂, ?_, hfactor₂.trans hfactor,
      hchanges₂.trans (by rw [hchanges]), hcap₂.trans (by simpa using hcap)⟩
    · rw [hmPutUnique, hcheck, bind_ok]
      simp only [hfind, bind_ok, hinsert]
    · rw [ht₂.size, ht.size, List.length_cons, Nat.cast_succ]
  · rw [hfree] at hf
    cases hf

/-- Keys of one letter, once for each length. -/
def letters (n : ℕ) : Key := List.replicate n 97

theorem hashable_letters (n : ℕ) : Hashable (letters n) :=
  hashable_of_ascii fun b hb => by
    rw [List.eq_of_mem_replicate hb]
    decide

/-- A program that makes a table and puts `n` keys into it. -/
def filling (n : ℕ) : List (Event ℕ) :=
  ⟨plenty, .create 0, .status true⟩ ::
    (List.range n).map fun k => ⟨plenty, .call 0 (.putUnique (letters k) k), .status true⟩

/-- The table of such a program. -/
structure Filling (n : ℕ) (ms : Maps ℕ) (hmd : HmData) : Prop where
  run : Transition.Run Maps.Step Maps.empty (filling n) ms
  table : ms.maps 0 = some hmd
  stored : ∃ ps f, Table ms.heap hmd ps ∧ Stores ms.heap ps f ∧ ∀ k, n ≤ k → f (letters k) = none
  size : hmd.size = n
  loadFactor : hmd.loadFactor = 1 / 2

theorem filling_zero : ∃ ms, Filling 0 ms serverTable := by
  refine ⟨_, .cons ⟨rfl, rfl⟩ (.nil _), rfl,
    ⟨[], fun _ => none, table_create _, stores_nil _, fun _ _ => rfl⟩, rfl, ?_⟩
  exact loaded_serverTable.loadFactor

/-- One more key. -/
theorem Filling.succ {n : ℕ} {ms : Maps ℕ} (hf : Filling n ms hmd) :
    ∃ ms' hmd', Filling (n + 1) ms' hmd' ∧
      hmd'.changes = (if hmd.changes > trigger then 0 else hmd.changes) + 1 ∧
      hmd'.capacity = if hmd.changes > trigger ∧ hmd.load > hmd.loadFactor then
        Standalone.resize hmd.capacity else hmd.capacity := by
  obtain ⟨ps, f, ht, hs, hnone⟩ := hf.stored
  obtain ⟨h', hmd', ps', hput, ht', hs', hsize, hfactor, hchanges, hcap⟩ :=
    hmPutUnique_new ht hs (hashable_letters n) (hnone n (le_refl n)) n
  refine ⟨⟨h', Function.update ms.maps 0 (some hmd')⟩, hmd', ⟨?_, ?_, ⟨ps', _, ht', hs', ?_⟩, ?_,
    hfactor.trans hf.loadFactor⟩, hchanges, hcap⟩
  · rw [filling, List.range_succ, List.map_append, ← List.cons_append]
    refine hf.run.snoc ⟨⟨hmd, hf.table, hashable_letters n⟩, ?_⟩
    simp only [Maps.perform, hf.table, deref_some, bind_ok, Call.run, plenty, hput, pure_eq_ok]
  · simp
  · intro k hk
    rw [Function.update_of_ne, hnone k (by omega)]
    intro heq
    have hlen := congrArg List.length heq
    simp only [letters, List.length_replicate] at hlen
    omega
  · rw [hsize, hf.size, Nat.cast_succ]

/-- No check comes before the 102nd key. -/
theorem filling_trigger : ∀ n ≤ 101, ∃ ms hmd, Filling n ms hmd ∧ hmd.changes = n ∧
    hmd.capacity = 32 := by
  intro n
  induction n with
  | zero =>
      intro _
      obtain ⟨ms, hms⟩ := filling_zero
      exact ⟨ms, serverTable, hms, rfl, rfl⟩
  | succ n ih =>
      intro hn
      obtain ⟨ms, hmd, hf, hchanges, hcap⟩ := ih (by omega)
      obtain ⟨ms', hmd', hf', hchanges', hcap'⟩ := hf.succ
      have hno : ¬hmd.changes > trigger := by
        rw [hchanges, trigger]
        omega
      rw [if_neg hno, hchanges] at hchanges'
      rw [if_neg fun hc => hno hc.1, hcap] at hcap'
      exact ⟨ms', hmd', hf', by rw [hchanges', Nat.cast_succ], hcap'⟩

/-! ## Runs -/

/-- The tables of a program that is never out of memory for a larger array. -/
theorem loaded_of_run {es : List (Event α)} {ms : Maps α}
    (hrun : Transition.Run Maps.Step Maps.empty es ms)
    (hgranted : ∀ ev ∈ es, ev.mem.grants.array = true) {i : ℕ} (hi : ms.maps i = some hmd) :
    (∃ ps, Table ms.heap hmd ps) ∧ Loaded hmd := by
  have hinv := hrun.invariant (P := fun ev => ev.mem.grants.array = true)
    (I := fun ms => (∃ t, Stands ms t) ∧
      ∀ i hmd, ms.maps i = some hmd → Loaded hmd) ?_ hgranted
    ⟨⟨_, stands_empty⟩, by simp [Maps.empty]⟩
  · obtain ⟨⟨t, hs⟩, hloaded⟩ := hinv
    obtain ⟨f, ps, -, ht, -⟩ := hs.some hi
    exact ⟨⟨_, ht⟩, hloaded i hmd hi⟩
  · rintro ms ⟨mem, a, reply⟩ ms' ⟨⟨t, hs⟩, hloaded⟩ hmem hstep
    obtain ⟨t', -, hs'⟩ := hs.step hstep
    refine ⟨⟨t', hs'⟩, fun j hmd hj => ?_⟩
    obtain ⟨ha, hperform⟩ := hstep
    have hother : ∀ i o (h' : Heap (HMEntry α)),
        (⟨h', Function.update ms.maps i o⟩ : Maps α) = ms' → (∀ hmd, o = some hmd → Loaded hmd) →
        Loaded hmd := by
      rintro i o h' rfl hnew
      rcases eq_or_ne j i with rfl | hne
      · exact hnew hmd (by simpa using hj)
      · exact hloaded j hmd (by simpa [hne] using hj)
    cases a with
    | create i =>
        rw [Maps.perform] at hperform
        split at hperform
        · cases hperform
          refine hother i _ _ rfl fun hmd heq => ?_
          cases heq
          exact loaded_serverTable
        · cases hperform
          exact hother i _ _ rfl (by simp)
    | call i c =>
        obtain ⟨hmd₀, hmd₀i, -⟩ := ha
        obtain ⟨f, ps, -, ht, -⟩ := hs.some hmd₀i
        rw [Maps.perform, hmd₀i, deref_some, bind_ok] at hperform
        obtain ⟨⟨h₁, hmd₁, reply₁⟩, hcall, hperform⟩ := bind_eq_ok.mp hperform
        cases hperform
        refine hother i _ _ rfl fun hmd heq => ?_
        cases heq
        exact (hloaded i hmd₀ hmd₀i).call ht hmem hcall
    | destroy i =>
        obtain ⟨hmd₀, -, hperform⟩ := bind_eq_ok.mp hperform
        obtain ⟨⟨h₁, elements⟩, -, hperform⟩ := bind_eq_ok.mp hperform
        cases hperform
        exact hother i _ _ rfl (by simp)

/-- `HashMap_create` says that a table is resized when it holds more elements than the load
factor allows. It is, but up to 292 elements late: no more than 101 from one check to the
next, and the rest because a small table may be behind by more than it has buckets. -/
theorem size_le_of_granted {es : List (Event α)} {ms : Maps α}
    (hrun : Transition.Run Maps.Step Maps.empty es ms)
    (hgranted : ∀ ev ∈ es, ev.mem.grants.array = true) {i : ℕ} (hi : ms.maps i = some hmd)
    (hcap : hmd.capacity < maxCapacity) :
    hmd.size ≤ hmd.capacity / 2 + 292 ∧
      (2048 ≤ hmd.capacity → hmd.size ≤ hmd.capacity / 2 + 101) := by
  obtain ⟨⟨ps, ht⟩, hl⟩ := loaded_of_run hrun hgranted hi
  obtain ⟨k, hk, hcapk⟩ := tableSize_iff.mp ht.capacity
  have hk' : k < 22 := by
    refine hk.lt_of_ne ?_
    rintro rfl
    rw [hcapk] at hcap
    exact absurd hcap (by decide)
  have hsize := hl.size_le k hk' hcapk
  have hquota := quota_le k
  have hhalf : (hmd.capacity : ℤ) / 2 = (16 * 2 ^ k : ℕ) := by
    rw [hcapk]
    omega
  rw [hhalf]
  refine ⟨by omega, fun hlarge => ?_⟩
  have h6 : 6 ≤ k := by
    by_contra hlt
    have hpow : 2 ^ k ≤ 2 ^ 5 := Nat.pow_le_pow_right (by decide) (by omega)
    omega
  rw [quota_eq h6] at hsize
  omega

/-- The check before the 102nd key doubles the number of buckets. -/
theorem size_le_of_granted_filling : ∃ ms hmd,
    Transition.Run Maps.Step Maps.empty (filling 102) ms ∧ ms.maps 0 = some hmd ∧
      hmd.size = 102 ∧ hmd.capacity = 64 ∧ hmd.size ≤ hmd.capacity / 2 + 292 := by
  obtain ⟨ms, hmd, hf, hchanges, hcap⟩ := filling_trigger 101 (le_refl _)
  obtain ⟨ps, f, ht, -, -⟩ := hf.stored
  have htrigger : hmd.changes > trigger := by
    rw [hchanges]
    decide
  have hload : hmd.load > hmd.loadFactor := by
    have hlen : ps.length = 101 := by
      have hsize := ht.size
      rw [hf.size] at hsize
      exact_mod_cast hsize.symm
    rw [ht.load, hlen, hf.loadFactor, hcap]
    norm_num
  obtain ⟨ms', hmd', hf', -, hcap'⟩ := hf.succ
  rw [if_pos ⟨htrigger, hload⟩, hcap] at hcap'
  have hcap64 : hmd'.capacity = 64 := hcap'
  have hgranted : ∀ ev ∈ filling 102, ev.mem.grants.array = true := by
    simp [filling, plenty]
  exact ⟨ms', hmd', hf'.run, hf'.table, hf'.size, hcap64,
    (size_le_of_granted hf'.run hgranted hf'.table (by rw [hcap64]; decide)).1⟩

end CliMessaging.Standalone.HashMap
