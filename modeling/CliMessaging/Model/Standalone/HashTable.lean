import CliMessaging.Model.Proto
import Mathlib.Data.Int.Notation

/-! # Indices of the hash tables

`hash` of `hashmap.c` and the numbers of buckets that a table of the server can have. -/

namespace CliMessaging.Standalone

/-- A `char` as a number: it is signed on the target. -/
def signedChar (b : UInt8) : ℤ := if b.toNat < 128 then b.toNat else b.toNat - 256

/-- `hash`. The remainder of C has the sign of its dividend. With `N` below 2^28 the `long`
does not overflow. -/
def hash (key : List UInt8) (N : ℕ) : ℤ :=
  key.foldl (fun ans sp => (7 * ans + signedChar sp).tmod N) 0

/-- `MAX_CAPACITY` -/
def maxCapacity : ℕ := 134217728

/-- The number of buckets after `resize`. -/
def resize (capacity : ℕ) : ℕ :=
  if 2 * capacity > maxCapacity then maxCapacity else 2 * capacity

/-- The bucket counts of a table made by `HashMap_create(32L, 0.5f)`. -/
inductive TableSize : ℕ → Prop where
  | create : TableSize 32
  | resize {N} : TableSize N → TableSize (resize N)

/-- The username or channel that the handler of a request looks up. -/
def requestKey : ClientRequest → Option Cname
  | .login username => some username
  | .join channel => some channel
  | .leave channel => some channel
  | .say channel _ => some channel
  | .who channel => some channel
  | .logout => none
  | .list => none
  | .keepAlive => none

end CliMessaging.Standalone
