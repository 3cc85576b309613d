import CliMessaging.Library.Heap
import CliMessaging.Model.Standalone.HashTable
import Mathlib.Data.Rat.Defs

/-! # Hash maps in memory

The tables of `hashmap.c`: an array of buckets, each the first of a chain of entries on the
heap. The key of an entry is a copy that belongs to the entry. Loads are multiples of the
reciprocal of the number of buckets: in a table made by `HashMap_create(32L, 0.5f)` this
number is a power of two, and a `double` is exact. -/

namespace CliMessaging.Standalone.HashMap

/-- The bytes of a C string. -/
abbrev Key := List UInt8

structure HMEntry (α : Type) where
  next : Option ℕ
  key : Key
  element : α
  deriving DecidableEq

structure HmData where
  size : ℤ
  capacity : ℕ
  changes : ℤ
  load : ℚ
  loadFactor : ℚ
  increment : ℚ
  buckets : List (Option ℕ)

/-- Which of the blocks that a call asks for `malloc` finds: the array of `resize`, the entry
and the copy of the key. -/
structure Grants where
  array : Bool
  entry : Bool
  key : Bool

variable {α : Type}

/-! ## Buckets -/

/-- `hmd->buckets[i]` -/
def bucketAt (buckets : List (Option ℕ)) (i : ℤ) : Except Fault (Option ℕ) :=
  if 0 ≤ i then
    match buckets[i.toNat]? with
    | none => .error .outOfRange
    | some p => .ok p
  else .error .outOfRange

/-- The loop of `findKey` over at most `fuel` entries. -/
def seek (h : Heap (HMEntry α)) (key : Key) : ℕ → Option ℕ → Except Fault (Option ℕ)
  | _, none => .ok none
  | 0, some _ => .error .outOfRange
  | fuel + 1, some p => do
      let entry ← h.read p
      if entry.key = key then return some p
      seek h key fuel entry.next

/-- There are no more entries than pointers that were ever handed out. -/
def findKey (h : Heap (HMEntry α)) (hmd : HmData) (key : Key) :
    Except Fault (Option ℕ × ℤ) := do
  let i := hash key hmd.capacity
  let p ← bucketAt hmd.buckets i
  return (← seek h key h.next p, i)

def hmContainsKey (h : Heap (HMEntry α)) (hmd : HmData) (key : Key) : Except Fault Bool := do
  let (p, _) ← findKey h hmd key
  return p.isSome

/-- The result is the element behind the out parameter, `none` where the status is 0. -/
def hmGet (h : Heap (HMEntry α)) (hmd : HmData) (key : Key) : Except Fault (Option α) := do
  match ← findKey h hmd key with
  | (none, _) => return none
  | (some p, _) => do
      let entry ← h.read p
      return some entry.element

def hmSize (hmd : HmData) : ℤ := hmd.size

def hmIsEmpty (hmd : HmData) : Bool := decide (hmd.size = 0)

/-! ## Arrays of entries -/

/-- The entries of a chain, at most `fuel`. -/
def chainFrom (h : Heap (HMEntry α)) : ℕ → Option ℕ → Except Fault (List (HMEntry α))
  | _, none => .ok []
  | 0, some _ => .error .outOfRange
  | fuel + 1, some p => do
      let entry ← h.read p
      let rest ← chainFrom h fuel entry.next
      return entry :: rest

def chains (h : Heap (HMEntry α)) : List (Option ℕ) → Except Fault (List (HMEntry α))
  | [] => .ok []
  | p :: buckets => do
      let entries ← chainFrom h h.next p
      let rest ← chains h buckets
      return entries ++ rest

/-- `entries`, as the entries behind the pointers. The array has room for `size` pointers,
and its reader expects as many. -/
def entries (room : Bool) (h : Heap (HMEntry α)) (hmd : HmData) :
    Except Fault (Option (List (HMEntry α))) :=
  if 0 < hmd.size ∧ room then do
    let tmp ← chains h hmd.buckets
    if tmp.length = hmd.size then return some tmp
    else .error .outOfRange
  else .ok none

/-- `hm_entryArray`, read with `hmentry_key` and `hmentry_value`. It leaves the length as it
was when it returns NULL. -/
def hmEntryArray (room : Bool) (h : Heap (HMEntry α)) (hmd : HmData) (len : ℤ) :
    Except Fault (Option (List (Key × α)) × ℤ) := do
  match ← entries room h hmd with
  | none => return (none, len)
  | some tmp => return (some (tmp.map fun entry => (entry.key, entry.element)), hmd.size)

/-- `hm_keyArray`. The loop of `keys` is the one of `entries`. -/
def hmKeyArray (room : Bool) (h : Heap (HMEntry α)) (hmd : HmData) (len : ℤ) :
    Except Fault (Option (List Key) × ℤ) := do
  match ← entries room h hmd with
  | none => return (none, len)
  | some tmp => return (some (tmp.map HMEntry.key), hmd.size)

/-! ## Resizing -/

/-- The entries of a chain go to the front of their buckets in the new array of length `N`. -/
def moveChain (N : ℕ) : ℕ → Heap (HMEntry α) → List (Option ℕ) → Option ℕ →
    Except Fault (Heap (HMEntry α) × List (Option ℕ))
  | _, h, array, none => .ok (h, array)
  | 0, _, _, some _ => .error .outOfRange
  | fuel + 1, h, array, some p => do
      let entry ← h.read p
      let j := hash entry.key N
      let first ← bucketAt array j
      let h ← h.modify p fun entry => { entry with next := first }
      moveChain N fuel h (array.set j.toNat (some p)) entry.next

def moveChains (N : ℕ) : Heap (HMEntry α) → List (Option ℕ) → List (Option ℕ) →
    Except Fault (Heap (HMEntry α) × List (Option ℕ))
  | h, array, [] => .ok (h, array)
  | h, array, p :: buckets => do
      let (h, array) ← moveChain N h.next h array p
      moveChains N h array buckets

def resize (granted : Bool) (h : Heap (HMEntry α)) (hmd : HmData) :
    Except Fault (Heap (HMEntry α) × HmData) :=
  let N := Standalone.resize hmd.capacity
  if N = hmd.capacity then .ok (h, hmd)
  else if !granted then .ok (h, hmd)
  else do
    let (h, array) ← moveChains N h (List.replicate N none) hmd.buckets
    return (h, { hmd with
      buckets := array
      capacity := N
      load := hmd.load / 2
      changes := 0
      increment := 1 / N })

/-! ## Adding and removing -/

/-- `TRIGGER` -/
def trigger : ℤ := 100

/-- What `hm_put` and `hm_putUnique` do first. -/
def checkLoad (granted : Bool) (h : Heap (HMEntry α)) (hmd : HmData) :
    Except Fault (Heap (HMEntry α) × HmData) :=
  if hmd.changes > trigger then
    if hmd.load > hmd.loadFactor then resize granted h { hmd with changes := 0 }
    else .ok (h, { hmd with changes := 0 })
  else .ok (h, hmd)

/-- The flag is the status. -/
def insertEntry (mem : Grants) (h : Heap (HMEntry α)) (hmd : HmData) (key : Key)
    (element : α) (i : ℤ) : Except Fault (Heap (HMEntry α) × HmData × Bool) :=
  if mem.entry ∧ mem.key then do
    let first ← bucketAt hmd.buckets i
    return (h.alloc ⟨first, key, element⟩, { hmd with
      buckets := hmd.buckets.set i.toNat (some h.next)
      size := hmd.size + 1
      load := hmd.load + hmd.increment
      changes := hmd.changes + 1 }, true)
  else .ok (h, hmd, false)

/-- `hm_put`, where `previous` tells whether the caller wants the element that the key had. If
not, an entry is added even when the key is there. -/
def hmPut (mem : Grants) (h : Heap (HMEntry α)) (hmd : HmData) (key : Key) (element : α)
    (previous : Bool) : Except Fault (Heap (HMEntry α) × HmData × Bool × Option α) := do
  let (h, hmd) ← checkLoad mem.array h hmd
  match ← findKey h hmd key, previous with
  | (some p, _), true => do
      let entry ← h.read p
      let h ← h.modify p fun entry => { entry with element := element }
      return (h, hmd, true, some entry.element)
  | (_, i), _ => do
      let (h, hmd, ans) ← insertEntry mem h hmd key element i
      return (h, hmd, ans, none)

def hmPutUnique (mem : Grants) (h : Heap (HMEntry α)) (hmd : HmData) (key : Key)
    (element : α) : Except Fault (Heap (HMEntry α) × HmData × Bool) := do
  let (h, hmd) ← checkLoad mem.array h hmd
  match ← findKey h hmd key with
  | (some _, _) => return (h, hmd, false)
  | (none, i) => insertEntry mem h hmd key element i

/-- The loop of `hm_remove` that looks for the entry before `entry`, `p` in the source. -/
def findPrevious (h : Heap (HMEntry α)) (entry : ℕ) :
    ℕ → Option ℕ → Option ℕ → Except Fault (Option ℕ)
  | 0, _, _ => .error .outOfRange
  | fuel + 1, p, c =>
      if c = some entry then .ok p
      else do
        let cur ← deref c
        let node ← h.read cur
        findPrevious h entry fuel c node.next

def hmRemove (h : Heap (HMEntry α)) (hmd : HmData) (key : Key) :
    Except Fault (Heap (HMEntry α) × HmData × Option α) := do
  match ← findKey h hmd key with
  | (none, _) => return (h, hmd, none)
  | (some p, i) => do
      let entry ← h.read p
      let first ← bucketAt hmd.buckets i
      let hmd' := { hmd with
        size := hmd.size - 1
        load := hmd.load - hmd.increment
        changes := hmd.changes + 1 }
      match ← findPrevious h p (h.next + 1) none first with
      | none => do
          let h ← h.free p
          return (h, { hmd' with buckets := hmd.buckets.set i.toNat entry.next },
            some entry.element)
      | some q => do
          let h ← h.modify q fun before => { before with next := entry.next }
          let h ← h.free p
          return (h, hmd', some entry.element)

/-! ## Maps as a whole -/

/-- The loop of `purge` over a chain. The list is what it hands to `freeFxn`. -/
def purgeChain : ℕ → Heap (HMEntry α) → Option ℕ → Except Fault (Heap (HMEntry α) × List α)
  | _, h, none => .ok (h, [])
  | 0, _, some _ => .error .outOfRange
  | fuel + 1, h, some p => do
      let entry ← h.read p
      let h ← h.free p
      let (h, rest) ← purgeChain fuel h entry.next
      return (h, entry.element :: rest)

def purgeChains : Heap (HMEntry α) → List (Option ℕ) → Except Fault (Heap (HMEntry α) × List α)
  | h, [] => .ok (h, [])
  | h, p :: buckets => do
      let (h, elements) ← purgeChain h.next h p
      let (h, rest) ← purgeChains h buckets
      return (h, elements ++ rest)

def purge (h : Heap (HMEntry α)) (hmd : HmData) :
    Except Fault (Heap (HMEntry α) × HmData × List α) := do
  let (h, elements) ← purgeChains h hmd.buckets
  return (h, { hmd with buckets := hmd.buckets.map fun _ => none }, elements)

def hmClear (h : Heap (HMEntry α)) (hmd : HmData) :
    Except Fault (Heap (HMEntry α) × HmData × List α) := do
  let (h, hmd, elements) ← purge h hmd
  return (h, { hmd with size := 0, load := 0, changes := 0 }, elements)

def hmDestroy (h : Heap (HMEntry α)) (hmd : HmData) :
    Except Fault (Heap (HMEntry α) × List α) := do
  let (h, _, elements) ← purge h hmd
  return (h, elements)

/-- `HashMap_create` when `malloc` succeeds. -/
def hashMapCreate (capacity : ℤ) (loadFactor : ℚ) : HmData :=
  let N := min (if capacity > 0 then capacity.toNat else 16) maxCapacity
  { size := 0
    capacity := N
    changes := 0
    load := 0
    loadFactor := if loadFactor > 1 / 1000000 then loadFactor else 3 / 4
    increment := 1 / N
    buckets := List.replicate N none }

/-- The tables of the server, made by `HashMap_create(32L, 0.5f)`. -/
def serverTable : HmData := hashMapCreate 32 (1 / 2)

/-! ## Calls

A program keeps tables like those of the server in variables and calls the functions of
`struct hashmap` on them in any order. -/

inductive Call (α : Type) where
  | clear
  | containsKey (key : Key)
  | entryArray (len : ℤ)
  | get (key : Key)
  | isEmpty
  | keyArray (len : ℤ)
  | put (key : Key) (element : α) (previous : Bool)
  | putUnique (key : Key) (element : α)
  | remove (key : Key)
  | size

/-- What a call tells its caller: a status, the element of a status that is not 0, the status
of `hm_put` with the previous element, a number, an array with its length, or the elements
given to `freeFxn`. -/
inductive Reply (α : Type) where
  | status (ok : Bool)
  | element (e : Option α)
  | put (ok : Bool) (previous : Option α)
  | number (n : ℤ)
  | keys (keys : Option (List Key)) (len : ℤ)
  | entries (pairs : Option (List (Key × α))) (len : ℤ)
  | handed (elements : List α)
  deriving DecidableEq

/-- What `malloc` finds: blocks for the table itself, an array for the caller, and all the
blocks of `HashMap_create`. -/
structure Supply where
  grants : Grants
  room : Bool
  table : Bool

def Call.run (mem : Supply) (h : Heap (HMEntry α)) (hmd : HmData) :
    Call α → Except Fault (Heap (HMEntry α) × HmData × Reply α)
  | .clear => do
      let (h, hmd, elements) ← hmClear h hmd
      return (h, hmd, .handed elements)
  | .containsKey key => do
      let ok ← hmContainsKey h hmd key
      return (h, hmd, .status ok)
  | .entryArray len => do
      let (pairs, len) ← hmEntryArray mem.room h hmd len
      return (h, hmd, .entries pairs len)
  | .get key => do
      let e ← hmGet h hmd key
      return (h, hmd, .element e)
  | .isEmpty => .ok (h, hmd, .status (hmIsEmpty hmd))
  | .keyArray len => do
      let (keys, len) ← hmKeyArray mem.room h hmd len
      return (h, hmd, .keys keys len)
  | .put key element previous => do
      let (h, hmd, ok, old) ← hmPut mem.grants h hmd key element previous
      return (h, hmd, .put ok old)
  | .putUnique key element => do
      let (h, hmd, ok) ← hmPutUnique mem.grants h hmd key element
      return (h, hmd, .status ok)
  | .remove key => do
      let (h, hmd, e) ← hmRemove h hmd key
      return (h, hmd, .element e)
  | .size => .ok (h, hmd, .number (hmSize hmd))

/-- The tables of a program, by variable. -/
structure Maps (α : Type) where
  heap : Heap (HMEntry α)
  maps : ℕ → Option HmData

inductive Action (α : Type) where
  | create (i : ℕ)
  | call (i : ℕ) (c : Call α)
  | destroy (i : ℕ)

def Maps.perform (ms : Maps α) (mem : Supply) : Action α → Except Fault (Maps α × Reply α)
  | .create i =>
      if mem.table then
        .ok ({ ms with maps := Function.update ms.maps i (some serverTable) }, .status true)
      else .ok ({ ms with maps := Function.update ms.maps i none }, .status false)
  | .call i c => do
      let hmd ← deref (ms.maps i)
      let (h, hmd, reply) ← c.run mem ms.heap hmd
      return (⟨h, Function.update ms.maps i (some hmd)⟩, reply)
  | .destroy i => do
      let hmd ← deref (ms.maps i)
      let (h, elements) ← hmDestroy ms.heap hmd
      return (⟨h, Function.update ms.maps i none⟩, .handed elements)

end CliMessaging.Standalone.HashMap
