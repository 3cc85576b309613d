import CliMessaging.Model.Standalone.Keys
import CliMessaging.Verification.Standalone.Sessions

/-! # Keys in memory

Every client has a key of its own, whatever was on the stack, and the key names the client
to every handler. Of the two decoders, the one for the port reads past the digits that it
has copied. -/

namespace CliMessaging.Standalone

variable {a b : SockAddr} {dest dest' : List UInt8}

/-! ## Writing a key -/

theorem length_clientKey_lt (a : SockAddr) : (clientKey a).bytes.length < ipPortSize :=
  (clientKey a).length_lt

/-- The buffer that holds the key of a client. -/
def keyBuffer (a : SockAddr) : List UInt8 :=
  (clientKey a).bytes ++ zeros (ipPortSize - (clientKey a).bytes.length)

/-- What the buffer held before is gone, and nothing of the text is cut off. -/
theorem constructIpPortKeyInto_eq (a : SockAddr) {dest : List UInt8}
    (hdest : dest.length = ipPortSize) :
    constructIpPortKeyInto dest (inetNtoa a.ip) a.port = .ok (keyBuffer a) := by
  have hip := length_inetNtoa_le a.ip
  have hport : (decimal (ntohs a.port).toNat).length ≤ 5 :=
    length_decimal_le (by omega) (lt_trans (ntohs a.port).toNat_lt (by omega))
  have hipNul : 0 ∉ inetNtoa a.ip := notMem_inetNtoa (by decide) (by decide)
  have hportNul : 0 ∉ decimal (ntohs a.port).toNat := notMem_decimal (by decide)
  have hcolonNul : 0 ∉ inetNtoa a.ip ++ [58] := by
    simp [hipNul]
  have hclear : store dest 0 (zeros ipPortSize) = .ok (zeros ipPortSize) :=
    store_all (by rw [length_zeros, hdest])
  have hcopy : strncpy (zeros ipPortSize) (inetNtoa a.ip) 15 =
      .ok (inetNtoa a.ip ++ zeros (ipPortSize - (inetNtoa a.ip).length)) :=
    strncpy_zeros hip (by decide)
  have hcolon : strcat (inetNtoa a.ip ++ zeros (ipPortSize - (inetNtoa a.ip).length)) [58] =
      .ok (inetNtoa a.ip ++ [58] ++ zeros (ipPortSize - (inetNtoa a.ip).length - 1)) :=
    strcat_zeros hipNul (by rw [List.length_singleton, ipPortSize]; omega)
  have hprint : sprintfUnsigned (zeros 6) (ntohs a.port).toNat =
      .ok (decimal (ntohs a.port).toNat ++ zeros (6 - (decimal (ntohs a.port).toNat).length)) :=
    sprintfUnsigned_zeros (by omega)
  have hread : cstr (decimal (ntohs a.port).toNat ++
      zeros (6 - (decimal (ntohs a.port).toNat).length)) = .ok (decimal (ntohs a.port).toNat) :=
    cstr_zeros hportNul (by omega)
  have hjoin : strcat (inetNtoa a.ip ++ [58] ++ zeros (ipPortSize - (inetNtoa a.ip).length - 1))
      (decimal (ntohs a.port).toNat) = .ok (keyBuffer a) := by
    rw [strcat_zeros hcolonNul (by rw [ipPortSize]; omega), keyBuffer, clientKey_bytes]
    simp only [List.append_assoc, List.length_append, List.length_cons,
      List.cons_append, List.nil_append, Nat.sub_sub]
    congr 5
    omega
  have hlast : store (keyBuffer a) 21 [0] = .ok (keyBuffer a) := by
    have hlen : (clientKey a).bytes.length < 22 := length_clientKey_lt a
    have hsize : ipPortSize = 22 := rfl
    have hend : 21 = (clientKey a).bytes.length +
        (ipPortSize - (clientKey a).bytes.length - 1) := by omega
    rw [hend]
    exact store_last _ (by omega)
  simp only [constructIpPortKeyInto, hclear, hcopy, hcolon, hprint, hread, hjoin, hlast, bind_ok]

theorem cstr_keyBuffer (a : SockAddr) : cstr (keyBuffer a) = .ok (clientKey a).bytes :=
  cstr_zeros (clientKey a).noNul (Nat.sub_pos_of_lt (length_clientKey_lt a))

theorem length_keyBuffer (a : SockAddr) : (keyBuffer a).length = ipPortSize := by
  rw [keyBuffer, List.length_append, length_zeros,
    Nat.add_sub_cancel' (length_clientKey_lt a).le]

theorem keyBuffer_injective : Function.Injective keyBuffer := by
  intro a b h
  have htext := cstr_keyBuffer a
  rw [h, cstr_keyBuffer b] at htext
  exact clientKey_injective (CString.ext_bytes (Except.ok.inj htext).symm)

/-- Whatever the buffer held, the key of a client is the text of its address and its port,
closed by NUL and cut nowhere, and two clients have one key only if they are one client. In
every reachable state the record with that key is the one of the client, a login enters
it under the key, a logout removes it by the key, and every other request of the client
updates the time in it and in no other record. -/
theorem session_keys {st : State} (hst : st.Reachable) (hdest : dest.length = ipPortSize)
    (hdest' : dest'.length = ipPortSize) :
    (∃ buf, constructIpPortKeyInto dest (inetNtoa a.ip) a.port = .ok buf ∧
      buf.length = ipPortSize ∧ cstr buf = .ok (clientKey a).bytes ∧
      (clientKey a).bytes = inetNtoa a.ip ++ 58 :: decimal (ntohs a.port).toNat ∧
      (clientKey a).bytes.length < ipPortSize) ∧
    (constructIpPortKeyInto dest (inetNtoa a.ip) a.port =
      constructIpPortKeyInto dest' (inetNtoa b.ip) b.port ↔ a.ip = b.ip ∧ a.port = b.port) ∧
    (∀ v, st.Record v → (v.ipPort = clientKey a ↔ v.cliaddr = a)) ∧
    ∀ env req st' sent, st.react env (.recv a req) = .ok (st', sent) → ∀ v,
      (st'.Record v ∧ v.ipPort = clientKey a ↔ st.Files env.now a v req) ∧
      (st.Record v → v.ipPort ≠ clientKey a → req ≠ .login v.username → st'.Record v) := by
  have h := hst.inv
  refine ⟨⟨keyBuffer a, constructIpPortKeyInto_eq a hdest, length_keyBuffer a, cstr_keyBuffer a,
    clientKey_bytes a, length_clientKey_lt a⟩, ?_, fun v hv => ?_, fun env req st' sent hok v => ?_⟩
  · rw [constructIpPortKeyInto_eq a hdest, constructIpPortKeyInto_eq b hdest', Except.ok.injEq,
      keyBuffer_injective.eq_iff]
    cases a
    cases b
    exact Iff.of_eq (SockAddr.mk.injEq ..)
  · rw [h.directory.record_ipPort hv]
    exact clientKey_injective.eq_iff
  · have heff := h.effect_of_ok hok
    exact ⟨h.record_key heff v, fun hv hkey hname => h.record_of_key_ne heff hkey hname hv⟩

/-- Two clients on one port, over what other calls have left on the stack. -/
theorem session_keys_desks :
    ∃ st, State.initial.replay [(.at 0, .recv (desk 1) (.login alice))] = some st ∧
      constructIpPortKeyInto (List.replicate ipPortSize 255) (inetNtoa (desk 1).ip) (desk 1).port ≠
        constructIpPortKeyInto (zeros ipPortSize) (inetNtoa (desk 2).ip) (desk 2).port ∧
      ∀ v, st.Record v → (v.ipPort = clientKey (desk 1) ↔ v.cliaddr = desk 1) := by
  have hfacts : (State.initial.replay [(.at 0, .recv (desk 1) (.login alice))]).isSome := by decide
  obtain ⟨st, hreplay⟩ := Option.isSome_iff_exists.mp hfacts
  obtain ⟨-, hkeys, hrecords, -⟩ := session_keys (a := desk 1) (b := desk 2)
    (State.run_of_replay hreplay) (List.length_replicate (a := (255 : UInt8)))
    (length_zeros ipPortSize)
  exact ⟨st, hreplay, fun heq => absurd (hkeys.mp heq).1 (by decide), hrecords⟩

/-! ## Reading a key -/

/-- Text goes to a buffer that has room for it, up to the byte after it. -/
theorem copyUntil_append {stop : UInt8} {text old : List UInt8} (before after rest : List UInt8)
    (hstop : stop ∉ text) (hlen : text.length = old.length) :
    copyUntil stop (text ++ stop :: rest) (before ++ (old ++ after)) before.length =
      .ok (before ++ (text ++ after)) := by
  induction text generalizing old before with
  | nil =>
      rw [List.length_nil, eq_comm, List.length_eq_zero_iff] at hlen
      simp [copyUntil, hlen]
  | cons c text ih =>
      obtain ⟨o, old, rfl⟩ := List.exists_cons_of_length_eq_add_one hlen.symm
      have hc : c ≠ stop := fun heq => hstop (by simp [heq])
      have hstore : store (before ++ (o :: old ++ after)) before.length [c] =
          .ok (before ++ [c] ++ (old ++ after)) := by
        rw [List.append_assoc]
        exact store_append before [o] (old ++ after) rfl
      have hnext := ih (before ++ [c]) (fun hmem => hstop (List.mem_cons_of_mem c hmem))
        (Nat.succ.inj hlen)
      rw [List.length_append, List.length_singleton, List.append_assoc] at hnext
      rw [List.cons_append, copyUntil, if_neg hc, hstore, bind_ok, List.append_assoc, hnext]
      simp

theorem skipPast_append {stop : UInt8} {text : List UInt8} (hstop : stop ∉ text)
    (rest : List UInt8) : skipPast stop (text ++ stop :: rest) = .ok rest := by
  induction text with
  | nil => simp [skipPast]
  | cons c text ih =>
      have hc : c ≠ stop := fun heq => hstop (by simp [heq])
      rw [List.cons_append, skipPast, if_neg hc]
      exact ih fun hmem => hstop (List.mem_cons_of_mem c hmem)

theorem keyBuffer_eq (a : SockAddr) : ∃ tail, keyBuffer a =
    inetNtoa a.ip ++ 58 :: (decimal (ntohs a.port).toNat ++ 0 :: tail) := by
  refine ⟨zeros (ipPortSize - (clientKey a).bytes.length - 1), ?_⟩
  rw [keyBuffer, zeros_pos (Nat.sub_pos_of_lt (length_clientKey_lt a)), clientKey_bytes,
    List.append_assoc, List.cons_append]

/-- The address of a key is read back, whatever the buffer held. -/
theorem extractIpFromCombo_eq (a : SockAddr) {dest : List UInt8} (hdest : dest.length = 16) :
    ∃ ip, extractIpFromCombo (keyBuffer a) dest = .ok ip ∧ cstr ip = .ok (inetNtoa a.ip) := by
  obtain ⟨tail, hkey⟩ := keyBuffer_eq a
  have hip := length_inetNtoa_le a.ip
  have hclear : store dest 0 (zeros 16) = .ok (zeros 16) :=
    store_all (by rw [length_zeros, hdest])
  have hroom : zeros 16 = zeros (inetNtoa a.ip).length ++ zeros (16 - (inetNtoa a.ip).length) := by
    rw [← zeros_add, Nat.add_sub_cancel' (by omega)]
  have hcopy := copyUntil_append [] (zeros (16 - (inetNtoa a.ip).length))
    (decimal (ntohs a.port).toNat ++ 0 :: tail)
    (notMem_inetNtoa (b := 58) (by decide) (by decide)) (length_zeros (inetNtoa a.ip).length).symm
  refine ⟨inetNtoa a.ip ++ zeros (16 - (inetNtoa a.ip).length), ?_,
    cstr_zeros (notMem_inetNtoa (by decide) (by decide)) (by omega)⟩
  rw [extractIpFromCombo, hclear, bind_ok, hkey, hroom]
  exact hcopy

/-- The digits of the port are read together with the digits that happen to follow them. -/
theorem extractPortFromCombo_eq (a : SockAddr) {buf : List UInt8} (hbuf : buf.length = 6)
    (beyond : List UInt8) :
    extractPortFromCombo (keyBuffer a) buf beyond = (do
      let port ← atoi (decimal (ntohs a.port).toNat ++
        (buf.drop (decimal (ntohs a.port).toNat).length ++ beyond))
      return UInt16.ofInt port.toInt) := by
  obtain ⟨tail, hkey⟩ := keyBuffer_eq a
  have hport : (decimal (ntohs a.port).toNat).length ≤ 5 :=
    length_decimal_le (by omega) (lt_trans (ntohs a.port).toNat_lt (by omega))
  have hskip : skipPast 58 (keyBuffer a) = .ok (decimal (ntohs a.port).toNat ++ 0 :: tail) := by
    rw [hkey]
    exact skipPast_append (notMem_inetNtoa (by decide) (by decide)) _
  have htake : (decimal (ntohs a.port).toNat).length =
      (buf.take (decimal (ntohs a.port).toNat).length).length := by
    rw [List.length_take]
    omega
  have hcopy := copyUntil_append [] (buf.drop (decimal (ntohs a.port).toNat).length) tail
    (notMem_decimal (m := (ntohs a.port).toNat) (b := 0) (by decide)) htake
  rw [List.nil_append, List.take_append_drop] at hcopy
  have hcopy' : copyUntil 0 (decimal (ntohs a.port).toNat ++ 0 :: tail) buf 0 =
      .ok (decimal (ntohs a.port).toNat ++ buf.drop (decimal (ntohs a.port).toNat).length) := hcopy
  rw [extractPortFromCombo, hskip, bind_ok, hcopy', bind_ok, List.append_assoc]

/-- The digits among the `leftover` bytes do not change the number, as a port. -/
def Harmless (port : ℕ) (leftover : List UInt8) : Prop :=
  (leftover.takeWhile isDigit).length < leftover.length ∧
    if port * 10 ^ (leftover.takeWhile isDigit).length + ofDecimal (leftover.takeWhile isDigit) <
        2 ^ 63 then
      (port * 10 ^ (leftover.takeWhile isDigit).length +
        ofDecimal (leftover.takeWhile isDigit)) % 2 ^ 16 = port
    else port = 65535

instance (port : ℕ) (leftover : List UInt8) : Decidable (Harmless port leftover) :=
  inferInstanceAs (Decidable (_ ∧ _))

/-- So it is where the first of these bytes is no digit. -/
theorem harmless_of_head {port : ℕ} (hport : port < 2 ^ 16) {c : UInt8} (hc : isDigit c = false)
    (leftover : List UInt8) : Harmless port (c :: leftover) := by
  have hnone : (c :: leftover).takeWhile isDigit = [] := by
    simp [hc]
  have hsum : port * 10 ^ ([] : List UInt8).length + ofDecimal [] = port := by
    simp [ofDecimal]
  rw [Harmless, hnone, hsum, if_pos (by omega)]
  exact ⟨Nat.succ_pos _, Nat.mod_eq_of_lt hport⟩

/-- The number that `atoi` reads is cast back to the port that was printed. -/
theorem atoi_decimal_iff (port : UInt16) (leftover : List UInt8) :
    (do
      let v ← atoi (decimal port.toNat ++ leftover)
      return UInt16.ofInt v.toInt) = Except.ok port ↔ Harmless port.toNat leftover := by
  have hread := strtol_digits (decimal_ne_nil port.toNat) (fun _ => isDigit_of_mem_decimal) leftover
  rw [ofDecimal_append, ofDecimal_decimal] at hread
  rw [atoi, hread, Harmless]
  by_cases hend : (leftover.takeWhile isDigit).length < leftover.length
  · rw [if_pos hend, and_iff_right hend]
    change Except.ok (UInt16.ofInt (Int32.ofInt _).toInt) = Except.ok port ↔ _
    rw [Except.ok.injEq, ofInt_toInt_ofInt, ← UInt16.toNat_inj, toNat_ofInt_clampLong]
    split
    · exact Iff.rfl
    · exact eq_comm
  · rw [if_neg hend]
    exact iff_of_false (fun h => by cases h) fun h => hend h.1

/-- A key is written and its two parts are read back. -/
def RoundTrip (a : SockAddr) (dest ipBuf buf beyond : List UInt8) : Prop :=
  ∃ key ip, constructIpPortKeyInto dest (inetNtoa a.ip) a.port = .ok key ∧
    extractIpFromCombo key ipBuf = .ok ip ∧ cstr ip = .ok (inetNtoa a.ip) ∧
    extractPortFromCombo key buf beyond = .ok (ntohs a.port)

theorem not_roundTrip (hdest : dest.length = ipPortSize) {ipBuf buf beyond : List UInt8}
    (hbuf : buf.length = 6) (hharm : ¬ Harmless (ntohs a.port).toNat
      (buf.drop (decimal (ntohs a.port).toNat).length ++ beyond)) :
    ¬ RoundTrip a dest ipBuf buf beyond := by
  rintro ⟨key, ip, hkey, -, -, hport⟩
  rw [constructIpPortKeyInto_eq a hdest] at hkey
  cases hkey
  rw [extractPortFromCombo_eq a hbuf] at hport
  exact hharm ((atoi_decimal_iff _ _).mp hport)

/-- The decoders undo the encoder exactly when the bytes that happen to follow the digits of
the port in the local array and beyond it do not add to its number. -/
theorem roundTrip_iff (hdest : dest.length = ipPortSize) {ipBuf buf : List UInt8}
    (hipBuf : ipBuf.length = 16) (hbuf : buf.length = 6) (beyond : List UInt8) :
    RoundTrip a dest ipBuf buf beyond ↔ Harmless (ntohs a.port).toNat
      (buf.drop (decimal (ntohs a.port).toNat).length ++ beyond) := by
  constructor
  · intro htrip
    by_contra hharm
    exact not_roundTrip hdest hbuf hharm htrip
  · intro hharmless
    obtain ⟨ip, hip, htext⟩ := extractIpFromCombo_eq a hipBuf
    refine ⟨keyBuffer a, ip, constructIpPortKeyInto_eq a hdest, hip, htext, ?_⟩
    rw [extractPortFromCombo_eq a hbuf]
    exact (atoi_decimal_iff _ _).mpr hharmless

/-- Port 34835 on a stack full of other bytes: a letter follows its digits, and the digits
that were left in the array before it and behind it are not read. -/
theorem roundTrip_letter : RoundTrip (desk 1) (.replicate ipPortSize 120) (.replicate 16 49)
    [57, 56, 55, 54, 53, 65] [57, 57, 0] :=
  (roundTrip_iff List.length_replicate List.length_replicate rfl _).mpr
    (harmless_of_head (by decide) (by decide) _)

/-- Port 34835 is read back as 20679 where the last byte of the array was a nine. -/
theorem roundTrip_fails : ¬ ∀ a dest ipBuf buf beyond, dest.length = ipPortSize →
    ipBuf.length = 16 → buf.length = 6 → RoundTrip a dest ipBuf buf beyond := by
  intro hall
  have htrip := hall (desk 1) (zeros ipPortSize) (zeros 16) [0, 0, 0, 0, 0, 57] [0] (by decide)
    (by decide) (by decide)
  exact not_roundTrip (length_zeros _) (by decide) (by decide) htrip

end CliMessaging.Standalone
