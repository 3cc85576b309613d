import CliMessaging.Library.CString

/-! # Endpoints

The source address of a datagram, as `recvfrom` reports it. -/

namespace CliMessaging

/-- The four bytes of a `struct in_addr`, in memory order. -/
structure InAddr where
  a : UInt8
  b : UInt8
  c : UInt8
  d : UInt8
  deriving DecidableEq, Repr, Inhabited

/-- A `struct sockaddr_in`. The port is kept in host order, as `ntohs(sin_port)`. -/
structure SockAddr where
  ip : InAddr
  port : UInt16
  deriving DecidableEq, Repr, Inhabited

/-- The byte swap that `ntohs` performs on a little-endian host. -/
def ntohs (port : UInt16) : UInt16 :=
  (port <<< 8) ||| (port >>> 8)

theorem ntohs_ntohs (port : UInt16) : ntohs (ntohs port) = port := by
  apply UInt16.toBitVec_inj.mp
  simp only [ntohs, UInt16.toBitVec_or, UInt16.toBitVec_shiftLeft, UInt16.toBitVec_shiftRight]
  ext i hi
  have hshift : UInt16.toBitVec 8 % 16 = 8#16 := by decide
  simp
  grind

theorem ntohs_injective : Function.Injective ntohs :=
  Function.LeftInverse.injective ntohs_ntohs

/-- The dotted decimal text that `inet_ntoa` writes. -/
def inetNtoa (ip : InAddr) : List UInt8 :=
  decimal ip.a.toNat ++ 46 :: (decimal ip.b.toNat ++ 46 ::
    (decimal ip.c.toNat ++ 46 :: decimal ip.d.toNat))

theorem notMem_inetNtoa {ip : InAddr} {b : UInt8} (hdot : b ≠ 46)
    (hb : b.toNat < 48 ∨ 57 < b.toNat) : b ∉ inetNtoa ip := by
  simp [inetNtoa, hdot, notMem_decimal hb]

theorem length_inetNtoa_le (ip : InAddr) : (inetNtoa ip).length ≤ 15 := by
  have hlen : ∀ x : UInt8, (decimal x.toNat).length ≤ 3 := fun x =>
    length_decimal_le (by omega) (lt_trans x.toNat_lt (by omega))
  have ha := hlen ip.a
  have hb := hlen ip.b
  have hc := hlen ip.c
  have hd := hlen ip.d
  simp only [inetNtoa, List.length_append, List.length_cons]
  omega

/-- Two addresses with one text are one address. -/
theorem inetNtoa_injective : Function.Injective inetNtoa := by
  have hdot : ∀ x : UInt8, (46 : UInt8) ∉ decimal x.toNat := fun x =>
    notMem_decimal (by decide)
  have hbyte : ∀ x y : UInt8, decimal x.toNat = decimal y.toNat → x = y := fun x y h =>
    UInt8.toNat_inj.mp (decimal_injective h)
  intro ip ip' h
  obtain ⟨ha, h⟩ := append_separator_inj (hdot _) (hdot _) h
  obtain ⟨hb, h⟩ := append_separator_inj (hdot _) (hdot _) h
  obtain ⟨hc, hd⟩ := append_separator_inj (hdot _) (hdot _) h
  cases ip
  cases ip'
  simp only [InAddr.mk.injEq]
  exact ⟨hbyte _ _ ha, hbyte _ _ hb, hbyte _ _ hc, hbyte _ _ hd⟩

end CliMessaging
