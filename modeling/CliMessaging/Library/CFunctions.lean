import CliMessaging.Library.Bytes
import CliMessaging.Library.Heap

/-! # The C library on buffers

Functions on strings in memory. A write past the end of a buffer and a string that does not
end within its memory are faults. -/

namespace CliMessaging

variable {text rest : List UInt8}

/-! ## Writing -/

/-- Writes `data` to the buffer from the offset `i` on. -/
def store (buf : List UInt8) (i : ℕ) (data : List UInt8) : Except Fault (List UInt8) :=
  if i + data.length ≤ buf.length then .ok (buf.take i ++ (data ++ buf.drop (i + data.length)))
  else .error .outOfRange

/-- The string at the start of a buffer. -/
def cstr : List UInt8 → Except Fault (List UInt8)
  | [] => .error .outOfRange
  | b :: buf =>
      if b = 0 then .ok []
      else do
        let text ← cstr buf
        return b :: text

/-- `strncpy` from a string. -/
def strncpy (dst src : List UInt8) (n : ℕ) : Except Fault (List UInt8) :=
  store dst 0 (src.take n ++ zeros (n - src.length))

/-- `strcat` of a string. -/
def strcat (dst src : List UInt8) : Except Fault (List UInt8) := do
  let text ← cstr dst
  store dst text.length (src ++ [0])

/-- `sprintf` with `%u`. -/
def sprintfUnsigned (dst : List UInt8) (v : ℕ) : Except Fault (List UInt8) :=
  store dst 0 (decimal v ++ [0])

/-- Bytes in the middle of a buffer are replaced. -/
theorem store_append (before old after : List UInt8) {data : List UInt8}
    (hlen : data.length = old.length) :
    store (before ++ (old ++ after)) before.length data = .ok (before ++ (data ++ after)) := by
  have hfit : before.length + data.length ≤ (before ++ (old ++ after)).length := by
    simp only [List.length_append]
    omega
  have hdrop : (before ++ (old ++ after)).drop (before.length + data.length) = after := by
    rw [hlen, ← List.drop_drop, List.drop_left, List.drop_left]
  rw [store, if_pos hfit, hdrop, List.take_left]

theorem zeros_add (m k : ℕ) : zeros (m + k) = zeros m ++ zeros k := List.replicate_add m k 0

/-- A string is written to the cleared part of a buffer. -/
theorem store_zeros (before : List UInt8) {data : List UInt8} {m : ℕ} (h : data.length ≤ m) :
    store (before ++ zeros m) before.length data =
      .ok (before ++ (data ++ zeros (m - data.length))) := by
  have hsplit : zeros m = zeros data.length ++ zeros (m - data.length) := by
    rw [← zeros_add, Nat.add_sub_cancel' h]
  rw [hsplit]
  exact store_append before _ _ (length_zeros _).symm

/-- A cleared buffer keeps its text when its last byte is cleared again. -/
theorem store_last (text : List UInt8) {m : ℕ} (hm : 0 < m) :
    store (text ++ zeros m) (text.length + (m - 1)) [0] = .ok (text ++ zeros m) := by
  have hzeros : zeros m = zeros (m - 1) ++ ([0] ++ []) := by
    rw [← Nat.sub_add_cancel hm, zeros_add]
    rfl
  have hlen : (text ++ zeros (m - 1)).length = text.length + (m - 1) := by
    rw [List.length_append, length_zeros]
  rw [hzeros, ← List.append_assoc, ← hlen]
  exact store_append _ [0] [] rfl

/-- A buffer that is written as a whole. -/
theorem store_all {dst data : List UInt8} (h : data.length = dst.length) :
    store dst 0 data = .ok data := by
  simpa using store_append [] dst [] h

/-- A copy that fits, to a cleared buffer. -/
theorem strncpy_zeros {src : List UInt8} {n m : ℕ} (hsrc : src.length ≤ n) (hn : n ≤ m) :
    strncpy (zeros m) src n = .ok (src ++ zeros (m - src.length)) := by
  have hlen : (src ++ zeros (n - src.length)).length = n := by
    rw [List.length_append, length_zeros, Nat.add_sub_cancel' hsrc]
  have hzeros : zeros (m - src.length) = zeros (n - src.length) ++ zeros (m - n) := by
    rw [← zeros_add]
    congr 1
    omega
  have hstore := store_zeros [] (hlen.le.trans hn)
  rw [hlen, List.nil_append, List.nil_append, List.length_nil] at hstore
  rw [strncpy, List.take_of_length_le hsrc, hstore, hzeros, List.append_assoc]

/-- A numeral that fits, in a cleared buffer. -/
theorem sprintfUnsigned_zeros {v m : ℕ} (h : (decimal v).length < m) :
    sprintfUnsigned (zeros m) v = .ok (decimal v ++ zeros (m - (decimal v).length)) := by
  have hlen : (decimal v ++ [0]).length ≤ m := by
    rw [List.length_append, List.length_singleton]
    omega
  have hzeros : zeros (m - (decimal v).length) = 0 :: zeros (m - ((decimal v).length + 1)) := by
    rw [zeros_pos (by omega), Nat.sub_sub]
  have hstore := store_zeros [] hlen
  rw [List.nil_append, List.nil_append, List.length_nil] at hstore
  rw [sprintfUnsigned, hstore, hzeros]
  simp

theorem cstr_append (htext : 0 ∉ text) (rest : List UInt8) :
    cstr (text ++ 0 :: rest) = .ok text := by
  induction text with
  | nil => rfl
  | cons b text ih =>
      have hb : b ≠ 0 := fun hzero => htext (by simp [hzero])
      rw [List.cons_append, cstr, if_neg hb, ih fun hmem => htext (List.mem_cons_of_mem b hmem)]
      rfl

theorem cstr_zeros (htext : 0 ∉ text) {m : ℕ} (hm : 0 < m) : cstr (text ++ zeros m) = .ok text := by
  rw [zeros_pos hm]
  exact cstr_append htext _

/-- Text is appended to the text of a cleared buffer. -/
theorem strcat_zeros (htext : 0 ∉ text) {src : List UInt8} {m : ℕ} (h : src.length < m) :
    strcat (text ++ zeros m) src = .ok (text ++ src ++ zeros (m - src.length)) := by
  have hlen : (src ++ [0]).length ≤ m := by
    rw [List.length_append, List.length_singleton]
    omega
  have htail : zeros (m - src.length) = 0 :: zeros (m - (src.length + 1)) := by
    rw [zeros_pos (by omega), Nat.sub_sub]
  rw [strcat, cstr_zeros htext (by omega), bind_ok, store_zeros text hlen, htail]
  simp

/-! ## Numbers in text -/

def isSpace (b : UInt8) : Bool := b == 32 || (9 ≤ b && b ≤ 13)

def isDigit (b : UInt8) : Bool := 48 ≤ b && b ≤ 57

/-- The sign of a number and what follows it. -/
def readSign (s : List UInt8) : ℤ × List UInt8 :=
  match s.head? with
  | some b => if b = 45 then (-1, s.tail) else if b = 43 then (1, s.tail) else (1, s)
  | none => (1, s)

/-- The nearest value of a 64-bit `long`. -/
def clampLong (v : ℤ) : ℤ := max (-2 ^ 63) (min (2 ^ 63 - 1) v)

/-- `strtol` in base 10. -/
def strtol (s : List UInt8) : Except Fault ℤ :=
  let (sign, s) := readSign (s.dropWhile isSpace)
  let digits := s.takeWhile isDigit
  if digits.length < s.length then .ok (clampLong (sign * ofDecimal digits))
  else .error .outOfRange

/-- `atoi`, which converts the result of `strtol` to `int`. -/
def atoi (s : List UInt8) : Except Fault Int32 := (strtol s).map Int32.ofInt

/-- A number is cast to `uint16_t` as it would be without the step through `int`. -/
theorem ofInt_toInt_ofInt (v : ℤ) : UInt16.ofInt (Int32.ofInt v).toInt = UInt16.ofInt v := by
  have hsize : Int32.size = 2 ^ 32 := rfl
  have hmod : (Int32.ofInt v).toInt % 2 ^ 16 = v % 2 ^ 16 := by
    rw [Int32.toInt_ofInt, Int.bmod_def, hsize]
    split <;> omega
  rw [UInt16.ofInt, hmod, UInt16.ofInt]

theorem clampLong_natCast (v : ℕ) :
    clampLong v = if v < 2 ^ 63 then (v : ℤ) else 2 ^ 63 - 1 := by
  unfold clampLong
  split <;> omega

/-- What is left of a number that is read as a `long` and cast to `uint16_t`. -/
theorem toNat_ofInt_clampLong (v : ℕ) : (UInt16.ofInt (clampLong v)).toNat =
    if v < 2 ^ 63 then v % 2 ^ 16 else 65535 := by
  rw [clampLong_natCast]
  split
  · rw [UInt16.ofInt, UInt16.toNat_ofNat']
    omega
  · decide

theorem ofDecimal_append (xs ys : List UInt8) :
    ofDecimal (xs ++ ys) = ofDecimal xs * 10 ^ ys.length + ofDecimal ys := by
  rw [ofDecimal, List.reverse_append, List.map_append, Nat.ofDigits_append, List.length_map,
    List.length_reverse, ofDecimal, ofDecimal, mul_comm, add_comm]

theorem isDigit_of_mem_decimal {m : ℕ} {b : UInt8} (hb : b ∈ decimal m) : isDigit b := by
  obtain ⟨d, hd, rfl⟩ := mem_decimal hb
  interval_cases d <;> decide

theorem decimal_ne_nil (m : ℕ) : decimal m ≠ [] := by
  unfold decimal
  split
  · simp
  · rename_i hm
    simpa [Nat.digits_eq_nil_iff_eq_zero] using hm

theorem isSpace_of_isDigit {b : UInt8} (hb : isDigit b) : isSpace b = false := by
  have hge : 48 ≤ b.toNat := by
    simp only [isDigit, UInt8.le_iff_toNat_le, Bool.and_eq_true, decide_eq_true_eq] at hb
    exact hb.1
  have hne : b ≠ 32 := by
    rintro rfl
    cases hb
  have hgt : ¬b ≤ 13 := fun hle => absurd (hge.trans hle) (by decide)
  simp [isSpace, hne, hgt]

/-- A number that starts with a digit is read up to the first byte that is none. -/
theorem strtol_digits {digits : List UInt8} (hne : digits ≠ []) (hdigits : ∀ b ∈ digits, isDigit b)
    (rest : List UInt8) :
    strtol (digits ++ rest) = if (rest.takeWhile isDigit).length < rest.length then
      .ok (clampLong (ofDecimal (digits ++ rest.takeWhile isDigit))) else .error .outOfRange := by
  obtain ⟨b, digits, rfl⟩ := List.exists_cons_of_ne_nil hne
  have hb : isDigit b = true := hdigits b (by simp)
  have hspace : isSpace b = false := isSpace_of_isDigit hb
  have hsign : readSign (b :: digits ++ rest) = (1, b :: digits ++ rest) := by
    have hminus : b ≠ 45 := by
      rintro rfl
      cases hb
    have hplus : b ≠ 43 := by
      rintro rfl
      cases hb
    simp [readSign, hminus, hplus]
  have hdrop : (b :: digits ++ rest).dropWhile isSpace = b :: digits ++ rest := by
    simp [hspace]
  have htake : (b :: digits ++ rest).takeWhile isDigit =
      b :: digits ++ rest.takeWhile isDigit :=
    List.takeWhile_append_of_pos hdigits
  have hlength : (b :: digits ++ rest.takeWhile isDigit).length < (b :: digits ++ rest).length ↔
      (rest.takeWhile isDigit).length < rest.length := by
    simp
  simp only [strtol, hdrop, hsign, htake, hlength, one_mul]

end CliMessaging
