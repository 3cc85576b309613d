import Mathlib.Data.List.AList
import Mathlib.Data.List.Perm.Basic

/-! # Secondary indexes of a table

A table is a list of rows, and an index is a finite map that finds a row by its
key. Rows may be pointers, whose key depends on a memory, so a key is optional. -/

namespace CliMessaging

variable {κ β : Type} [DecidableEq κ]

/-- Insertion into a map that keeps the old entry of a key already present. -/
def insertNew (m : AList fun _ : κ => β) (k : κ) (b : β) : AList fun _ : κ => β :=
  if k ∈ m then m else m.insert k b

theorem insertNew_of_lookup_none {m : AList fun _ : κ => β} {k : κ} (h : m.lookup k = none)
    (b : β) : insertNew m k b = m.insert k b := by
  rw [insertNew, if_neg (AList.lookup_eq_none.mp h)]

theorem erase_of_lookup_none {m : AList fun _ : κ => β} {k : κ} (h : m.lookup k = none) :
    m.erase k = m :=
  AList.ext (List.kerase_of_notMem_keys (AList.lookup_eq_none.mp h))

theorem lookup_erase_eq_update (m : AList fun _ : κ => β) (k : κ) :
    (fun k' => (m.erase k).lookup k') = Function.update (fun k' => m.lookup k') k none := by
  funext k'
  rcases eq_or_ne k' k with rfl | hne
  · rw [AList.lookup_erase, Function.update_self]
  · rw [AList.lookup_erase_ne hne, Function.update_of_ne hne]

theorem lookup_insertNew_eq_update (m : AList fun _ : κ => β) (k : κ) (b : β) :
    (fun k' => (insertNew m k b).lookup k') =
      if m.lookup k = none then Function.update (fun k' => m.lookup k') k (some b)
      else fun k' => m.lookup k' := by
  by_cases hk : m.lookup k = none
  · rw [if_pos hk, insertNew_of_lookup_none hk]
    funext k'
    rcases eq_or_ne k' k with rfl | hne
    · rw [AList.lookup_insert, Function.update_self]
    · rw [AList.lookup_insert_ne hne, Function.update_of_ne hne]
  · rw [if_neg hk, insertNew, if_pos (not_not.mp (mt AList.lookup_eq_none.mpr hk))]

/-- Erasing several keys one by one. -/
theorem lookup_foldl_erase {γ : Type} (f : γ → κ) (cs : List γ) (m : AList fun _ : κ => β)
    (k : κ) : (cs.foldl (fun m c => m.erase (f c)) m).lookup k =
      if k ∈ cs.map f then none else m.lookup k := by
  induction cs generalizing m with
  | nil => simp
  | cons c cs ih =>
      rw [List.foldl_cons, ih, List.map_cons]
      by_cases hk : k = f c
      · subst hk
        rw [AList.lookup_erase, ite_self, if_pos List.mem_cons_self]
      · simp [hk, AList.lookup_erase_ne hk]

/-- The map finds a row under a key exactly when the table lists it with that key. -/
def Indexes (key : β → Option κ) (rows : List β) (m : AList fun _ : κ => β) : Prop :=
  ∀ k b, m.lookup k = some b ↔ b ∈ rows ∧ key b = some k

namespace Indexes

variable {key key' : β → Option κ} {rows : List β} {m : AList fun _ : κ => β}

theorem nil : Indexes key [] (∅ : AList fun _ : κ => β) := by
  intro k b
  simp

theorem lookup_of_mem (h : Indexes key rows m) {b : β} {k : κ} (hb : b ∈ rows)
    (hk : key b = some k) : m.lookup k = some b :=
  (h k b).mpr ⟨hb, hk⟩

theorem mem_of_lookup (h : Indexes key rows m) {b : β} {k : κ} (hl : m.lookup k = some b) :
    b ∈ rows :=
  ((h k b).mp hl).1

theorem key_of_lookup (h : Indexes key rows m) {b : β} {k : κ} (hl : m.lookup k = some b) :
    key b = some k :=
  ((h k b).mp hl).2

/-- Two rows with one key are one row. -/
theorem eq_of_key_eq (h : Indexes key rows m) {b c : β} {k : κ} (hb : b ∈ rows)
    (hc : c ∈ rows) (hbk : key b = some k) (hck : key c = some k) : b = c := by
  have hfound := h.lookup_of_mem hb hbk
  rw [h.lookup_of_mem hc hck] at hfound
  exact (Option.some.inj hfound).symm

theorem lookup_eq_none_iff (h : Indexes key rows m) {k : κ} :
    m.lookup k = none ↔ ∀ b ∈ rows, key b ≠ some k := by
  constructor
  · intro hn b hb hk
    rw [h.lookup_of_mem hb hk] at hn
    cases hn
  · intro hfree
    cases hl : m.lookup k with
    | none => rfl
    | some b => exact absurd (h.key_of_lookup hl) (hfree b (h.mem_of_lookup hl))

/-- The index depends only on the keys of the listed rows. -/
theorem congr_key (h : Indexes key rows m) (heq : ∀ b ∈ rows, key' b = key b) :
    Indexes key' rows m := by
  intro k b
  rw [h k b]
  constructor
  · rintro ⟨hb, hk⟩
    exact ⟨hb, (heq b hb).trans hk⟩
  · rintro ⟨hb, hk⟩
    exact ⟨hb, (heq b hb).symm.trans hk⟩

/-- A row with a key not yet in use is added to the table and to the index. -/
theorem append (h : Indexes key rows m) {b : β} {k : κ} (hk : key b = some k)
    (hfree : m.lookup k = none) : Indexes key (rows ++ [b]) (m.insert k b) := by
  intro k' c
  rcases eq_or_ne k' k with rfl | hne
  · rw [AList.lookup_insert]
    constructor
    · rintro ⟨⟩
      exact ⟨by simp, hk⟩
    · rintro ⟨hc, hck⟩
      rcases List.mem_append.mp hc with hc | hc
      · exact absurd hck (h.lookup_eq_none_iff.mp hfree c hc)
      · rw [List.mem_singleton.mp hc]
  · rw [AList.lookup_insert_ne hne, h k' c]
    constructor
    · rintro ⟨hc, hck⟩
      exact ⟨List.mem_append_left _ hc, hck⟩
    · rintro ⟨hc, hck⟩
      rcases List.mem_append.mp hc with hc | hc
      · exact ⟨hc, hck⟩
      · rw [List.mem_singleton.mp hc, hk] at hck
        exact absurd (Option.some.inj hck).symm hne

/-- A row is removed from the table together with its key. -/
theorem erase [DecidableEq β] (h : Indexes key rows m) (hnd : rows.Nodup) {b : β} {k : κ}
    (hb : b ∈ rows) (hk : key b = some k) : Indexes key (rows.erase b) (m.erase k) := by
  intro k' c
  rcases eq_or_ne k' k with rfl | hne
  · rw [AList.lookup_erase, hnd.mem_erase_iff]
    constructor
    · rintro ⟨⟩
    · rintro ⟨⟨hcb, hc⟩, hck⟩
      exact absurd (h.eq_of_key_eq hc hb hck hk) hcb
  · rw [AList.lookup_erase_ne hne, h k' c, hnd.mem_erase_iff]
    constructor
    · rintro ⟨hc, hck⟩
      refine ⟨⟨?_, hc⟩, hck⟩
      rintro rfl
      rw [hk] at hck
      exact hne (Option.some.inj hck).symm
    · rintro ⟨⟨_, hc⟩, hck⟩
      exact ⟨hc, hck⟩

/-- A table whose rows all have a key has as many rows as its index has keys. -/
theorem length_keys {f : β → κ} (h : Indexes (fun b => some (f b)) rows m) (hnd : rows.Nodup) :
    m.keys.length = rows.length := by
  have hinj : ∀ b ∈ rows, ∀ c ∈ rows, f b = f c → b = c := fun b hb c hc heq =>
    h.eq_of_key_eq hb hc rfl (congrArg some heq.symm)
  have hmem : ∀ k, k ∈ m.keys ↔ k ∈ rows.map f := by
    intro k
    rw [← AList.mem_keys, ← AList.lookup_isSome, Option.isSome_iff_exists, List.mem_map]
    constructor
    · rintro ⟨b, hb⟩
      exact ⟨b, h.mem_of_lookup hb, Option.some.inj (h.key_of_lookup hb)⟩
    · rintro ⟨b, hb, rfl⟩
      exact ⟨b, h.lookup_of_mem hb rfl⟩
  have hperm : m.keys.Perm (rows.map f) :=
    (List.perm_ext_iff_of_nodup m.keys_nodup (hnd.map_on hinj)).mpr hmem
  simpa using hperm.length_eq

/-- Erasing a key that no row has changes nothing that the index finds. -/
theorem erase_unused (h : Indexes key rows m) {k : κ} (hk : ∀ b ∈ rows, key b ≠ some k) :
    Indexes key rows (m.erase k) := by
  intro k' c
  rcases eq_or_ne k' k with rfl | hne
  · rw [AList.lookup_erase]
    constructor
    · rintro ⟨⟩
    · rintro ⟨hc, hck⟩
      exact absurd hck (hk c hc)
  · rw [AList.lookup_erase_ne hne, h k' c]

end Indexes

/-- Dropping the first row that passes a test, when only one row does. -/
theorem eraseP_eq_erase [DecidableEq β] {test : β → Bool} {rows : List β} {b : β}
    (hb : b ∈ rows) (htest : ∀ c ∈ rows, test c ↔ c = b) :
    rows.eraseP test = rows.erase b := by
  induction rows with
  | nil => rfl
  | cons c rows ih =>
      by_cases hcb : c = b
      · subst hcb
        rw [List.eraseP_cons_of_pos ((htest c (by simp)).mpr rfl), List.erase_cons_head]
      · have hb' : b ∈ rows := (List.mem_cons.mp hb).resolve_left (Ne.symm hcb)
        rw [List.eraseP_cons_of_neg (fun h => hcb ((htest c (by simp)).mp h)),
          List.erase_cons_tail (by simpa using hcb),
          ih hb' fun d hd => htest d (by simp [hd])]

end CliMessaging
