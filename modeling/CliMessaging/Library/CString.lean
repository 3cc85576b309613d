import Mathlib.Data.List.TakeWhile
import Mathlib.Data.Nat.Digits.Lemmas

/-! # NUL-terminated strings in fixed buffers -/

namespace CliMessaging

/-- The text held by a `char[n]` whose last byte is NUL: what every `strcmp`,
`strlen` and `std::string` of the code reads from it. -/
structure CString (n : ℕ) where
  bytes : List UInt8
  noNul : 0 ∉ bytes
  length_lt : bytes.length < n
  deriving DecidableEq

namespace CString

variable {n : ℕ}

/-- The string in a buffer whose last byte has been overwritten by NUL. -/
def ofBuffer (n : ℕ) (hn : 0 < n) (buf : List UInt8) : CString n where
  bytes := (buf.take (n - 1)).takeWhile (· ≠ 0)
  noNul h := by simpa using List.mem_takeWhile_imp h
  length_lt := by
    have h₁ := (List.takeWhile_prefix (p := (· ≠ (0 : UInt8))) (l := buf.take (n - 1))).length_le
    have h₂ := List.length_take_le (n - 1) buf
    omega

theorem ofBuffer_bytes (hn : 0 < n) {buf : List UInt8} (hlen : buf.length < n)
    (hnul : 0 ∉ buf) : (ofBuffer n hn buf).bytes = buf := by
  have htake : buf.take (n - 1) = buf := List.take_of_length_le (by omega)
  change (buf.take (n - 1)).takeWhile (· ≠ 0) = buf
  rw [htake, List.takeWhile_eq_self_iff]
  intro b hb
  simp only [ne_eq, decide_not, Bool.not_eq_eq_eq_not, Bool.not_true, decide_eq_false_iff_not]
  rintro rfl
  exact hnul hb

theorem ofBuffer_self (hn : 0 < n) (s : CString n) : ofBuffer n hn s.bytes = s := by
  have hbytes := ofBuffer_bytes hn s.length_lt s.noNul
  cases s
  cases hs : ofBuffer n hn _
  simp_all

end CString

/-- A separator that occurs in neither first part determines both parts. -/
theorem append_separator_inj {α : Type} {a : α} {xs ys zs ws : List α} (hx : a ∉ xs)
    (hy : a ∉ ys) (h : xs ++ a :: zs = ys ++ a :: ws) : xs = ys ∧ zs = ws := by
  induction xs generalizing ys with
  | nil =>
      cases ys with
      | nil => simpa using h
      | cons y ys =>
          simp only [List.nil_append, List.cons_append, List.cons.injEq] at h
          simp [h.1] at hy
  | cons x xs ih =>
      cases ys with
      | nil =>
          simp only [List.nil_append, List.cons_append, List.cons.injEq] at h
          simp [h.1] at hx
      | cons y ys =>
          simp only [List.cons_append, List.cons.injEq] at h
          obtain ⟨rfl, h⟩ := h
          obtain ⟨rfl, rfl⟩ := ih (by simp_all) (by simp_all) h
          exact ⟨rfl, rfl⟩

/-! ## Decimal numerals -/

/-- What `sprintf` writes for `%u`. -/
def decimal (m : ℕ) : List UInt8 :=
  if m = 0 then [48] else ((Nat.digits 10 m).map fun d => UInt8.ofNat (48 + d)).reverse

theorem mem_decimal {m : ℕ} {b : UInt8} (hb : b ∈ decimal m) :
    ∃ d < 10, b = UInt8.ofNat (48 + d) := by
  unfold decimal at hb
  split at hb
  · exact ⟨0, by omega, by simpa using hb⟩
  · obtain ⟨d, hd, rfl⟩ := List.mem_map.mp (List.mem_reverse.mp hb)
    exact ⟨d, Nat.digits_lt_base (by omega) hd, rfl⟩

/-- A numeral contains no byte outside the ten digits. -/
theorem notMem_decimal {m : ℕ} {b : UInt8} (hb : b.toNat < 48 ∨ 57 < b.toNat) :
    b ∉ decimal m := by
  intro hmem
  obtain ⟨d, hd, rfl⟩ := mem_decimal hmem
  have hmod : (UInt8.ofNat (48 + d)).toNat = 48 + d := by
    rw [UInt8.toNat_ofNat']
    exact Nat.mod_eq_of_lt (by omega)
  omega

theorem length_decimal_le {m k : ℕ} (hk : 0 < k) (hm : m < 10 ^ k) :
    (decimal m).length ≤ k := by
  unfold decimal
  split
  · exact hk
  · simpa using (Nat.digits_length_le_iff (by omega) m).mpr hm

/-- The number that a numeral denotes. -/
def ofDecimal (l : List UInt8) : ℕ :=
  Nat.ofDigits 10 (l.reverse.map fun b => b.toNat - 48)

theorem ofDecimal_decimal (m : ℕ) : ofDecimal (decimal m) = m := by
  unfold ofDecimal decimal
  split
  · rename_i hm
    simp [hm]
  · have hdigits : ((Nat.digits 10 m).map fun d => (UInt8.ofNat (48 + d)).toNat - 48) =
        Nat.digits 10 m := by
      rw [List.map_congr_left (g := id) ?_, List.map_id]
      intro d hd
      have hlt : d < 10 := Nat.digits_lt_base (by omega) hd
      rw [UInt8.toNat_ofNat', Nat.mod_eq_of_lt (by omega), id_eq]
      omega
    rw [List.reverse_reverse, List.map_map]
    exact (congrArg (Nat.ofDigits 10) hdigits).trans (Nat.ofDigits_digits 10 m)

theorem decimal_injective : Function.Injective decimal :=
  Function.LeftInverse.injective ofDecimal_decimal

example : decimal 4001 = [52, 48, 48, 49] := by decide

end CliMessaging
