import CliMessaging.Library.CString

/-! # Structures in memory

The bytes of a packed structure: little-endian 32-bit words and fixed-size fields that
hold NUL-terminated strings. -/

namespace CliMessaging

/-! ## Words -/

/-- The four bytes of a word, low byte first. -/
def encodeInt (v : UInt32) : List UInt8 :=
  [UInt8.ofNat v.toNat, UInt8.ofNat (v.toNat / 2 ^ 8), UInt8.ofNat (v.toNat / 2 ^ 16),
    UInt8.ofNat (v.toNat / 2 ^ 24)]

/-- The word at the start of a buffer. -/
def decodeInt : List UInt8 → UInt32
  | b₀ :: b₁ :: b₂ :: b₃ :: _ =>
      UInt32.ofNat (b₀.toNat + 2 ^ 8 * b₁.toNat + 2 ^ 16 * b₂.toNat + 2 ^ 24 * b₃.toNat)
  | _ => 0

/-- The 64-bit word at the start of a buffer. -/
def decodeLong (buffer : List UInt8) : UInt64 :=
  UInt64.ofNat ((decodeInt buffer).toNat + 2 ^ 32 * (decodeInt (buffer.drop 4)).toNat)

/-- The eight bytes of a 64-bit word, low byte first. -/
def encodeLong (v : UInt64) : List UInt8 :=
  encodeInt (UInt32.ofNat v.toNat) ++ encodeInt (UInt32.ofNat (v.toNat / 2 ^ 32))

@[simp] theorem length_encodeInt (v : UInt32) : (encodeInt v).length = 4 := rfl

@[simp] theorem decodeInt_encodeInt (v : UInt32) (rest : List UInt8) :
    decodeInt (encodeInt v ++ rest) = v := by
  have hv := v.toNat_lt
  apply UInt32.toNat_inj.mp
  simp only [encodeInt, decodeInt, List.cons_append, UInt8.toNat_ofNat', UInt32.toNat_ofNat']
  omega

@[simp] theorem length_encodeLong (v : UInt64) : (encodeLong v).length = 8 := rfl

@[simp] theorem decodeLong_encodeLong (v : UInt64) (rest : List UInt8) :
    decodeLong (encodeLong v ++ rest) = v := by
  have hv := v.toNat_lt
  have hlow : decodeInt (encodeLong v ++ rest) = UInt32.ofNat v.toNat := by
    rw [encodeLong, List.append_assoc, decodeInt_encodeInt]
  have hhigh : decodeInt ((encodeLong v ++ rest).drop 4) = UInt32.ofNat (v.toNat / 2 ^ 32) := by
    rw [encodeLong, List.append_assoc, List.drop_left' (length_encodeInt _), decodeInt_encodeInt]
  apply UInt64.toNat_inj.mp
  rw [decodeLong, hlow, hhigh]
  simp only [UInt64.toNat_ofNat', UInt32.toNat_ofNat']
  omega

example : encodeInt 0x01020304 = [4, 3, 2, 1] := by decide

/-- The bytes of a text without characters above 127. -/
def ascii (text : String) : List UInt8 := text.toList.map fun c => UInt8.ofNat c.toNat

/-- The bytes that `printf` writes for `%d`. -/
def formatInt (v : UInt32) : List UInt8 :=
  if v.toNat < 2 ^ 31 then decimal v.toNat else 45 :: decimal (2 ^ 32 - v.toNat)

/-! ## Copying -/

/-- `memcpy` of `n` bytes to the start of `dst`. -/
def memcpy (dst src : List UInt8) (n : ℕ) : List UInt8 := src.take n ++ dst.drop n

/-- `memset` of `n` bytes to zero. -/
def zeros (n : ℕ) : List UInt8 := List.replicate n 0

@[simp] theorem length_zeros (n : ℕ) : (zeros n).length = n := List.length_replicate

theorem zeros_pos {m : ℕ} (hm : 0 < m) : zeros m = 0 :: zeros (m - 1) := by
  obtain ⟨k, rfl⟩ : ∃ k, m = k + 1 := ⟨m - 1, by omega⟩
  rfl

theorem length_memcpy {dst src : List UInt8} {n : ℕ} (hsrc : n ≤ src.length)
    (hdst : n ≤ dst.length) : (memcpy dst src n).length = dst.length := by
  simp only [memcpy, List.length_append, List.length_take, List.length_drop]
  omega

theorem memcpy_zeros (src : List UInt8) (m : ℕ) :
    memcpy (zeros m) src src.length = src ++ zeros (m - src.length) := by
  rw [memcpy, List.take_length, zeros, List.drop_replicate, zeros]

/-- What `recvfrom` leaves in a cleared buffer of `size` bytes, and the number of bytes it
returns. The rest of a longer datagram is lost. -/
def recvfrom (size : ℕ) (data : List UInt8) : List UInt8 × ℕ :=
  (data.take size ++ zeros (size - data.length), min data.length size)

theorem recvfrom_of_le {size : ℕ} {data : List UInt8} (h : data.length ≤ size) :
    recvfrom size data = (data ++ zeros (size - data.length), data.length) := by
  rw [recvfrom, List.take_of_length_le h, Nat.min_eq_left h]

theorem recvfrom_append {size : ℕ} {xs : List UInt8} (h : xs.length ≤ size) (ys : List UInt8) :
    recvfrom size (xs ++ ys) =
      (xs ++ (recvfrom (size - xs.length) ys).1,
        xs.length + (recvfrom (size - xs.length) ys).2) := by
  have hrest : size - (xs ++ ys).length = size - xs.length - ys.length := by
    rw [List.length_append]
    omega
  have hcount : min (xs ++ ys).length size = xs.length + min ys.length (size - xs.length) := by
    rw [List.length_append]
    omega
  rw [recvfrom, recvfrom, List.take_append, List.take_of_length_le h, hrest, hcount,
    List.append_assoc]

theorem recvfrom_of_lt {size : ℕ} {data : List UInt8} (h : size < data.length) :
    recvfrom size data = (data.take size, size) := by
  rw [recvfrom, Nat.sub_eq_zero_of_le h.le, Nat.min_eq_right h.le, zeros, List.replicate_zero,
    List.append_nil]

theorem decodeInt_take {size : ℕ} (hsize : 4 ≤ size) (data rest : List UInt8)
    (hlen : 4 ≤ data.length) : decodeInt (data.take size ++ rest) = decodeInt data := by
  obtain ⟨k, rfl⟩ := Nat.exists_eq_add_of_le' hsize
  match data, hlen with
  | b₀ :: b₁ :: b₂ :: b₃ :: data, _ => rfl

theorem decodeInt_append {buffer : List UInt8} (h : 4 ≤ buffer.length) (rest : List UInt8) :
    decodeInt (buffer ++ rest) = decodeInt buffer := by
  match buffer, h with
  | b₀ :: b₁ :: b₂ :: b₃ :: buffer, _ => rfl

/-- The first four bytes name a type of messages, and there are as many bytes as such a
message has. -/
def WellSized (sizeOf : UInt32 → Option ℕ) (data : List UInt8) : Prop :=
  4 ≤ data.length ∧ sizeOf (decodeInt data) = some data.length

/-- A receiver that compares the count of `recvfrom` with the size of the type takes the
messages that are well sized, and those that it cuts off to the size of their type. -/
theorem recvfrom_sized {sizeOf : UInt32 → Option ℕ} {size : ℕ}
    (hsizes : ∀ w k, sizeOf w = some k → 4 ≤ k ∧ k ≤ size) (hsize : 4 ≤ size)
    (data : List UInt8) :
    sizeOf (decodeInt (recvfrom size data).1) = some (recvfrom size data).2 ↔
      WellSized sizeOf data ∨ (size < data.length ∧ sizeOf (decodeInt data) = some size) := by
  have hshort : ∀ w, sizeOf w = some (recvfrom size data).2 → 4 ≤ data.length := fun w hw =>
    (hsizes w _ hw).1.trans (Nat.min_le_left _ _)
  have hword : 4 ≤ data.length → decodeInt (recvfrom size data).1 = decodeInt data :=
    decodeInt_take hsize data _
  rcases Nat.lt_or_ge size data.length with hlong | hfits
  · have hcount : (recvfrom size data).2 = size := Nat.min_eq_right hlong.le
    rw [hword (hsize.trans hlong.le), hcount]
    constructor
    · exact fun h => Or.inr ⟨hlong, h⟩
    · rintro (⟨-, h⟩ | ⟨-, h⟩)
      · exact absurd (hsizes _ _ h).2 (Nat.not_le.mpr hlong)
      · exact h
  · have hcount : (recvfrom size data).2 = data.length := Nat.min_eq_left hfits
    constructor
    · intro h
      have hlen := hshort _ h
      rw [hword hlen, hcount] at h
      exact Or.inl ⟨hlen, h⟩
    · rintro (⟨hlen, h⟩ | ⟨hlong, -⟩)
      · rw [hword hlen, hcount]
        exact h
      · omega

/-! ## Strings in buffers -/

namespace CString

variable {n : ℕ}

theorem ext_bytes {s t : CString n} (h : s.bytes = t.bytes) : s = t := by
  cases s
  cases t
  simpa using h

/-- A buffer that starts with a string and its NUL is read as that string. -/
theorem ofBuffer_bytes_append (hn : 0 < n) (s : CString n) (tail : List UInt8) :
    ofBuffer n hn (s.bytes ++ 0 :: tail) = s := by
  have hpass : ∀ b ∈ s.bytes, decide (b ≠ 0) = true := by
    intro b hb
    have hne : b ≠ 0 := by
      rintro rfl
      exact s.noNul hb
    simpa using hne
  have hlen := s.length_lt
  apply ext_bytes
  change ((s.bytes ++ 0 :: tail).take (n - 1)).takeWhile (· ≠ 0) = s.bytes
  rw [List.take_append, List.take_of_length_le (by omega), List.takeWhile_append_of_pos hpass]
  cases n - 1 - s.bytes.length with
  | zero => simp
  | succ k => simp

/-- A string is read from the first bytes of a buffer only. -/
theorem ofBuffer_append (hn : 0 < n) {buffer : List UInt8} (h : n - 1 ≤ buffer.length)
    (rest : List UInt8) : ofBuffer n hn (buffer ++ rest) = ofBuffer n hn buffer := by
  apply ext_bytes
  change ((buffer ++ rest).take (n - 1)).takeWhile (· ≠ 0) = _
  rw [List.take_append_of_le_length h]
  rfl

theorem takeWhile_append_zeros (text : List UInt8) (k : ℕ) :
    (text ++ zeros k).takeWhile (· ≠ 0) = text.takeWhile (· ≠ 0) := by
  have hzeros : (zeros k).takeWhile (· ≠ 0) = [] := by simp [zeros]
  rw [List.takeWhile_append, hzeros, List.append_nil]
  split
  · rename_i hall
    exact ((List.takeWhile_prefix _).eq_of_length hall).symm
  · rfl

/-- A buffer is read up to its first NUL. -/
theorem ofBuffer_takeWhile (hn : 0 < n) (buffer : List UInt8) :
    ofBuffer n hn (buffer.takeWhile (· ≠ 0)) = ofBuffer n hn buffer := by
  apply ext_bytes
  change ((buffer.takeWhile (· ≠ 0)).take (n - 1)).takeWhile (· ≠ 0) = _
  rw [List.take_takeWhile, List.takeWhile_idem]
  rfl

/-- The first `n - 1` bytes of a text, which is what a field of `n` bytes has room for. -/
def truncate (n : ℕ) (hn : 0 < n) (text : List UInt8) (hnul : 0 ∉ text) : CString n where
  bytes := text.take (n - 1)
  noNul h := hnul (List.mem_of_mem_take h)
  length_lt := by
    have hlen := List.length_take_le (n - 1) text
    omega

end CString

/-! ## Fields -/

/-- The bytes of a `char[n]`. -/
@[ext]
structure Field (n : ℕ) where
  bytes : List UInt8
  length_eq : bytes.length = n
  deriving DecidableEq

namespace Field

variable {n : ℕ}

attribute [simp] Field.length_eq

/-- Overwrites the last byte by NUL. -/
def terminate (f : Field n) : Field n where
  bytes := f.bytes.set (n - 1) 0
  length_eq := by simp

/-- The field that is cleared before a string is copied into it. -/
def ofString (s : CString n) : Field n where
  bytes := memcpy (zeros n) s.bytes s.bytes.length
  length_eq := by
    have hlen := s.length_lt
    rw [length_memcpy (by omega) (by simp; omega), length_zeros]

/-- The field that is cleared before as much of a text is copied into it as fits. -/
def copyText (n : ℕ) (text : List UInt8) : Field n where
  bytes := if text.length < n then memcpy (zeros n) text text.length else memcpy (zeros n) text n
  length_eq := by
    split
    · rw [length_memcpy (by omega) (by simp; omega), length_zeros]
    · rw [length_memcpy (by omega) (by simp), length_zeros]

/-- The field that a text is copied into, as the client does it. -/
def ofText (n : ℕ) (text : List UInt8) : Field n := (copyText n text).terminate

theorem bytes_terminate (f : Field n) : f.terminate.bytes = f.bytes.set (n - 1) 0 := rfl

/-- `Holds f s`: a `strlen` or `strcmp` on the field reads `s`. -/
def Holds (f : Field n) (s : CString n) : Prop := ∃ tail, f.bytes = s.bytes ++ 0 :: tail

theorem bytes_ofString (s : CString n) :
    (ofString s).bytes = s.bytes ++ zeros (n - s.bytes.length) :=
  memcpy_zeros s.bytes n

theorem holds_ofString (s : CString n) : (ofString s).Holds s := by
  have hlen := s.length_lt
  refine ⟨zeros (n - s.bytes.length - 1), ?_⟩
  rw [bytes_ofString, zeros_pos (by omega)]

/-- Reading a field that holds a string, whatever follows the field in the buffer. -/
theorem Holds.ofBuffer {f : Field n} {s : CString n} (h : f.Holds s) (hn : 0 < n)
    (rest : List UInt8) : CString.ofBuffer n hn (f.bytes ++ rest) = s := by
  obtain ⟨tail, htail⟩ := h
  rw [htail, List.append_assoc, List.cons_append, CString.ofBuffer_bytes_append]

theorem Holds.terminate {f : Field n} {s : CString n} (h : f.Holds s) : f.terminate.Holds s := by
  obtain ⟨tail, htail⟩ := h
  have hlen := s.length_lt
  have hset : f.terminate.bytes = s.bytes ++ (0 :: tail).set (n - 1 - s.bytes.length) 0 := by
    rw [bytes_terminate, htail, List.set_append_right _ _ (by omega)]
  cases hk : n - 1 - s.bytes.length with
  | zero => exact ⟨tail, by rw [hset, hk, List.set_cons_zero]⟩
  | succ k => exact ⟨tail.set k 0, by rw [hset, hk, List.set_cons_succ]⟩

/-- A field whose last byte has been overwritten holds some string. -/
theorem exists_holds_terminate (hn : 0 < n) (f : Field n) : ∃ s, f.terminate.Holds s := by
  have hlen := f.length_eq
  have hnul : 0 ∈ f.terminate.bytes := List.mem_set (by omega) 0
  obtain ⟨text, tail, hsplit, htext⟩ := List.eq_append_cons_of_mem hnul
  have hlt : text.length < n := by
    have htotal := congrArg List.length hsplit
    rw [f.terminate.length_eq, List.length_append, List.length_cons] at htotal
    omega
  exact ⟨⟨text, htext, hlt⟩, tail, hsplit⟩

theorem bytes_copyText (n : ℕ) (text : List UInt8) :
    (copyText n text).bytes = text.take n ++ zeros (n - text.length) := by
  by_cases hlen : text.length < n
  · refine (if_pos hlen).trans ?_
    rw [memcpy_zeros, List.take_of_length_le hlen.le]
  · refine (if_neg hlen).trans ?_
    rw [memcpy, List.drop_of_length_le (by simp), Nat.sub_eq_zero_of_le (by omega)]
    rfl

/-- Whatever a field holds, it is a string once the last byte has been overwritten. -/
theorem holds_terminate (hn : 0 < n) (f : Field n) :
    f.terminate.Holds (CString.ofBuffer n hn f.bytes) := by
  obtain ⟨s, hs⟩ := f.exists_holds_terminate hn
  have hread := hs.ofBuffer hn []
  have hbytes : CString.ofBuffer n hn f.terminate.bytes = CString.ofBuffer n hn f.bytes := by
    apply CString.ext_bytes
    change ((f.bytes.set (n - 1) 0).take (n - 1)).takeWhile (· ≠ 0) = _
    rw [List.take_set_of_le le_rfl]
    rfl
  rw [List.append_nil, hbytes] at hread
  rw [hread]
  exact hs

/-- A text that is copied into a field is read up to its first NUL. -/
theorem ofBuffer_copyText (hn : 0 < n) (text : List UInt8) :
    CString.ofBuffer n hn (copyText n text).bytes = CString.ofBuffer n hn text := by
  apply CString.ext_bytes
  change ((copyText n text).bytes.take (n - 1)).takeWhile (· ≠ 0) = _
  rw [bytes_copyText, List.take_append, List.take_take, Nat.min_eq_left (Nat.sub_le n 1), zeros,
    List.take_replicate]
  exact CString.takeWhile_append_zeros _ _

theorem holds_ofText_ofBuffer (hn : 0 < n) (text : List UInt8) :
    (ofText n text).Holds (CString.ofBuffer n hn text) := by
  rw [← ofBuffer_copyText]
  exact (copyText n text).holds_terminate hn

/-- Of a text, a field keeps the first `n - 1` bytes. -/
theorem holds_ofText (hn : 0 < n) (text : List UInt8) (hnul : 0 ∉ text) :
    (ofText n text).Holds (CString.truncate n hn text hnul) := by
  have hcopy := bytes_copyText n text
  by_cases hlen : text.length < n
  · have htake : (CString.truncate n hn text hnul).bytes = text :=
      List.take_of_length_le (by omega)
    rw [List.take_of_length_le hlen.le, zeros_pos (by omega)] at hcopy
    apply Holds.terminate
    exact ⟨zeros (n - text.length - 1), by rw [htake, hcopy]⟩
  · -- the last byte that is copied is overwritten
    refine ⟨[], ?_⟩
    rw [Nat.sub_eq_zero_of_le (by omega), zeros, List.replicate_zero, List.append_nil] at hcopy
    change (ofText n text).bytes = text.take (n - 1) ++ [0]
    rw [ofText, bytes_terminate, hcopy]
    obtain ⟨k, rfl⟩ : ∃ k, n = k + 1 := ⟨n - 1, by omega⟩
    rw [Nat.add_sub_cancel, List.take_succ_eq_append_getElem (by omega),
      List.set_append_right _ _ (by simp), List.length_take, Nat.min_eq_left (by omega),
      Nat.sub_self, List.set_cons_zero]

end Field

end CliMessaging
