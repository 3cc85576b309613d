import CliMessaging.Library.Lockstep
import CliMessaging.Model.Standalone.Memory
import CliMessaging.Verification.Standalone.ListRuns

/-! # Lists of pointers in memory

The functions of `state.c` on a linked list of pointers against the same functions on the
sequence of what the pointers stand for. -/

namespace CliMessaging.Standalone.Memory

open Heap LinkedList

variable {α : Type} {nodes : Heap (LLNode ℕ)} {ll : LlData} {ns fs ps cells : List ℕ}
  {compare : ℕ → Except Fault Bool} {same : α → α → Except Fault Bool} {as : List α} {a : α}
  {p : ℕ} {blocks : List (LLNode ℕ)}

/-- The pointers `ps` compare as the elements `as` do with `a`. -/
abbrev Agree (compare : ℕ → Except Fault Bool) (same : α → α → Except Fault Bool) (a : α)
    (ps : List ℕ) (as : List α) : Prop :=
  List.Forall₂ (fun p b => compare p = same b a) ps as

theorem llIndexOf_from {l r : List ℕ} (hh : Holds nodes ll ns fs ((l ++ r).map some))
    (hagree : Agree compare same a r as) :
    Lockstep (fun i j => i = j.map fun k : ℕ => ((l.length + k : ℕ) : ℤ))
      (llIndexOf nodes ll compare r.length l.length) (Standalone.llIndexOf same a as) := by
  induction hagree generalizing l with
  | nil => exact .ok rfl
  | @cons p b r as hp hrest ih =>
      have hlt : (l.length : ℤ) < ((l ++ p :: r).map some).length := by
        simp only [List.length_map, List.length_append, List.length_cons]
        omega
      have hget := llGet_spec hh (.inl (Int.natCast_nonneg l.length))
      rw [if_pos hlt, Int.toNat_natCast, List.getElem?_map, List.getElem?_append_right (le_refl _),
        Nat.sub_self, List.getElem?_cons_zero, Option.map_some] at hget
      have hnext := @ih (l ++ [p]) (by simpa using hh)
      rw [List.length_append, List.length_singleton, Nat.cast_add, Nat.cast_one] at hnext
      rw [List.length_cons, llIndexOf, hget, Standalone.llIndexOf]
      simp only [bind_ok, deref_some, hp]
      refine .bind_same fun eq _ => ?_
      cases eq with
      | true => exact .ok (by simp)
      | false =>
          rw [if_neg Bool.false_ne_true, if_neg Bool.false_ne_true]
          rw [← bind_pure (llIndexOf nodes ll compare r.length (l.length + 1))]
          refine hnext.bind fun i j hij => .ok ?_
          subst hij
          cases j with
          | none => rfl
          | some k =>
              rw [Option.map_some, Option.map_some, Option.map_some]
              congr 2
              omega

/-- The first match among the pointers is the first among the elements. -/
theorem llIndexOf_lockstep (hh : Holds nodes ll ns fs (ps.map some))
    (hagree : Agree compare same a ps as) :
    Lockstep (fun i j => i = j.map fun k : ℕ => (k : ℤ))
      (llIndexOf nodes ll compare (llSize ll).toNat 0) (Standalone.llIndexOf same a as) := by
  have hsize : (llSize ll).toNat = ps.length := by
    rw [llSize, hh.size_eq, List.length_map, Int.toNat_natCast]
  have hfrom := llIndexOf_from (l := []) (r := ps) hh hagree
  rw [hsize]
  exact hfrom.mono fun i j hij => by simpa using hij

theorem llIndexOf_lt {idx : ℕ} (h : Standalone.llIndexOf same a as = .ok (some idx)) :
    idx < as.length := by
  induction as generalizing idx with
  | nil => cases h
  | cons b as ih =>
      obtain ⟨eq, -, h⟩ := bind_eq_ok.mp h
      cases eq with
      | true =>
          cases h
          exact Nat.zero_lt_succ _
      | false =>
          obtain ⟨idx', hidx', h⟩ := bind_eq_ok.mp h
          cases idx' with
          | none => cases h
          | some k =>
              cases h
              exact Nat.succ_lt_succ (ih hidx')

/-- An element is added behind a pointer unless one that is the same is there. -/
theorem llIdempotentAdd_lockstep (hh : Holds nodes ll ns fs (ps.map some))
    (hagree : Agree compare same a ps as) (hblocks : blocks ≠ []) (p : ℕ) :
    Lockstep (fun x as' => ∃ ns' fs' ps', Holds x.1 x.2 ns' fs' (ps'.map some) ∧
        nodes.Frame x.1 (cellsOf ll ns fs) (cellsOf x.2 ns' fs') ∧
        (ps' = ps ∧ as' = as ∨ ps' = ps ++ [p] ∧ as' = as ++ [a]))
      (llIdempotentAdd blocks nodes ll compare p) (Standalone.llIdempotentAdd same a as) := by
  refine (llIndexOf_lockstep hh hagree).bind fun i j hij => ?_
  subst hij
  cases j with
  | some k => exact .ok ⟨ns, fs, ps, hh, .refl _ _, .inl ⟨rfl, rfl⟩⟩
  | none =>
      have hav : 0 < available fs blocks := available_pos.mpr fun hc => hblocks hc.2
      obtain ⟨nodes', ll', q, fs', hadd, hadded⟩ := llAddLast_spec hh hav (some p)
      rw [Option.map_none]
      simp only [llAdd, hadd, bind_ok]
      refine .ok ⟨_, _, ps ++ [p], by simpa using hadded.holds, by simpa using hadded.frame,
        .inr ⟨rfl, rfl⟩⟩

/-- The first match is removed. -/
theorem llIdempotentRemove_lockstep (hh : Holds nodes ll ns fs (ps.map some))
    (hagree : Agree compare same a ps as) :
    Lockstep (fun x y => ∃ ns' fs' ps', Holds x.1 x.2.1 ns' fs' (ps'.map some) ∧
        nodes.Frame x.1 (cellsOf ll ns fs) (cellsOf x.2.1 ns' fs') ∧
        (ps' = ps ∧ x.2.2 = none ∧ y = (as, none) ∨
          ∃ k p b, ps[k]? = some p ∧ as[k]? = some b ∧ ps' = ps.eraseIdx k ∧
            x.2.2 = some (some p) ∧ y = (as.eraseIdx k, some b)))
      (llIdempotentRemove nodes ll compare) (Standalone.llIdempotentRemove same a as) := by
  refine (llIndexOf_lockstep hh hagree).with_eq.bind fun i j ⟨hij, _, hj⟩ => ?_
  subst hij
  cases j with
  | none => exact .ok ⟨ns, fs, ps, hh, .refl _ _, .inl ⟨rfl, rfl, rfl⟩⟩
  | some k =>
      have hk : k < as.length := llIndexOf_lt hj
      have hkp : k < ps.length := by rwa [hagree.length_eq]
      have hlt : (k : ℤ) < (ps.map some).length := by
        rw [List.length_map]
        exact_mod_cast hkp
      obtain ⟨nodes', ll', ns', fs', hremove, hh', hframe, -⟩ :=
        llRemove_spec hh (.inl (Int.natCast_nonneg k))
      rw [if_pos hlt, Int.toNat_natCast] at hremove hh'
      rw [Option.map_some]
      simp only [hremove]
      refine .ok ⟨ns', fs', ps.eraseIdx k, ?_, hframe, .inr ⟨k, ps[k], as[k],
        List.getElem?_eq_getElem hkp, List.getElem?_eq_getElem hk, rfl, ?_, ?_⟩⟩
      · rwa [List.eraseIdx_map] at hh'
      · rw [List.getElem?_map, List.getElem?_eq_getElem hkp, Option.map_some]
      · rw [List.getElem?_eq_getElem hk]

end CliMessaging.Standalone.Memory
