import CliMessaging.Library.Heap
import Mathlib.Data.Int.Notation

/-! # Linked lists in memory

The lists of `linkedlist.c`: nodes on the heap, linked both ways, with a sentinel inside the
`LlData` and a list of free nodes. The blocks that `malloc` hands out in a call are a
parameter: a block holds whatever was left in it, and when the blocks are used up `malloc`
returns NULL. -/

namespace CliMessaging.Standalone.LinkedList

/-- An element is a `void *`, `none` for NULL. -/
structure LLNode (α : Type) where
  next : Option ℕ
  prev : Option ℕ
  element : Option α
  deriving DecidableEq

/-- `sentinel` is the address of the field: the node itself lies on the heap. -/
structure LlData where
  size : ℤ
  freel : Option ℕ
  sentinel : ℕ
  deriving DecidableEq

variable {α : Type}

/-! ## The free list -/

/-- `FL_INCREMENT` -/
def flIncrement : ℕ := 128

def putEntry (h : Heap (LLNode α)) (lld : LlData) (p : ℕ) :
    Except Fault (Heap (LLNode α) × LlData) := do
  let h ← h.modify p fun node => { node with element := none, next := lld.freel }
  return (h, { lld with freel := some p })

/-- The loop of `getEntry` that puts new nodes on the free list. -/
def refill : ℕ → List (LLNode α) → Heap (LLNode α) → LlData →
    Except Fault (Heap (LLNode α) × LlData)
  | 0, _, h, lld => .ok (h, lld)
  | _ + 1, [], h, lld => .ok (h, lld)
  | i + 1, block :: blocks, h, lld => do
      let (h, lld) ← putEntry (h.alloc block) lld h.next
      refill i blocks h lld

def getEntry (blocks : List (LLNode α)) (h : Heap (LLNode α)) (lld : LlData) :
    Except Fault (Heap (LLNode α) × LlData × Option ℕ) := do
  let (h, lld) ← if lld.freel = none then refill flIncrement blocks h lld else pure (h, lld)
  match lld.freel with
  | none => return (h, lld, none)
  | some p => do
      let node ← h.read p
      return (h, { lld with freel := node.next }, some p)

/-! ## Links -/

def link (h : Heap (LLNode α)) (before p after : ℕ) : Except Fault (Heap (LLNode α)) := do
  let h ← h.modify p fun node => { node with next := some after }
  let h ← h.modify p fun node => { node with prev := some before }
  let h ← h.modify after fun node => { node with prev := some p }
  h.modify before fun node => { node with next := some p }

def unlink (h : Heap (LLNode α)) (p : ℕ) : Except Fault (Heap (LLNode α)) := do
  let node ← h.read p
  let h ← h.modify (← deref node.prev) fun before => { before with next := node.next }
  let node ← h.read p
  h.modify (← deref node.next) fun after => { after with prev := node.prev }

/-- `n` times `p = p->next` -/
def walk (h : Heap (LLNode α)) : ℕ → ℕ → Except Fault ℕ
  | 0, p => .ok p
  | n + 1, p => do
      let node ← h.read p
      walk h n (← deref node.next)

/-! ## Adding elements

The flag is the status. -/

def llInsert (blocks : List (LLNode α)) (h : Heap (LLNode α)) (lld : LlData) (index : ℤ)
    (element : Option α) : Except Fault (Heap (LLNode α) × LlData × Bool) :=
  if index ≤ lld.size then do
    match ← getEntry blocks h lld with
    | (h, lld, none) => return (h, lld, false)
    | (h, lld, some p) => do
        let h ← h.modify p fun node => { node with element := element }
        let b ← walk h index.toNat lld.sentinel
        let node ← h.read b
        let h ← link h b p (← deref node.next)
        return (h, { lld with size := lld.size + 1 }, true)
  else .ok (h, lld, false)

def llAddFirst (blocks : List (LLNode α)) (h : Heap (LLNode α)) (lld : LlData)
    (element : Option α) : Except Fault (Heap (LLNode α) × LlData × Bool) := do
  match ← getEntry blocks h lld with
  | (h, lld, none) => return (h, lld, false)
  | (h, lld, some p) => do
      let h ← h.modify p fun node => { node with element := element }
      let sentinel ← h.read lld.sentinel
      let h ← link h lld.sentinel p (← deref sentinel.next)
      return (h, { lld with size := lld.size + 1 }, true)

def llAddLast (blocks : List (LLNode α)) (h : Heap (LLNode α)) (lld : LlData)
    (element : Option α) : Except Fault (Heap (LLNode α) × LlData × Bool) := do
  match ← getEntry blocks h lld with
  | (h, lld, none) => return (h, lld, false)
  | (h, lld, some p) => do
      let h ← h.modify p fun node => { node with element := element }
      let sentinel ← h.read lld.sentinel
      let h ← link h (← deref sentinel.prev) p lld.sentinel
      return (h, { lld with size := lld.size + 1 }, true)

def llAdd (blocks : List (LLNode α)) (h : Heap (LLNode α)) (lld : LlData)
    (element : Option α) : Except Fault (Heap (LLNode α) × LlData × Bool) :=
  llAddLast blocks h lld element

/-! ## Reading elements

The result is the element behind the out parameter, `none` where the status is 0. -/

def llGet (h : Heap (LLNode α)) (lld : LlData) (index : ℤ) :
    Except Fault (Option (Option α)) :=
  if index < lld.size then do
    let sentinel ← h.read lld.sentinel
    let p ← walk h index.toNat (← deref sentinel.next)
    let node ← h.read p
    return some node.element
  else .ok none

def llGetFirst (h : Heap (LLNode α)) (lld : LlData) : Except Fault (Option (Option α)) := do
  let sentinel ← h.read lld.sentinel
  let p ← deref sentinel.next
  if p ≠ lld.sentinel then
    let node ← h.read p
    return some node.element
  else return none

def llGetLast (h : Heap (LLNode α)) (lld : LlData) : Except Fault (Option (Option α)) := do
  let sentinel ← h.read lld.sentinel
  let p ← deref sentinel.prev
  if p ≠ lld.sentinel then
    let node ← h.read p
    return some node.element
  else return none

def llSet (h : Heap (LLNode α)) (lld : LlData) (index : ℤ) (element : Option α) :
    Except Fault (Heap (LLNode α) × Option (Option α)) :=
  if index < lld.size then do
    let sentinel ← h.read lld.sentinel
    let p ← walk h index.toNat (← deref sentinel.next)
    let node ← h.read p
    let h ← h.modify p fun node => { node with element := element }
    return (h, some node.element)
  else .ok (h, none)

def llSize (lld : LlData) : ℤ := lld.size

def llIsEmpty (lld : LlData) : Bool := decide (lld.size = 0)

/-- The loop of `genArray`. -/
def collect (h : Heap (LLNode α)) : ℕ → ℕ → Except Fault (List (Option α))
  | 0, _ => .ok []
  | i + 1, p => do
      let node ← h.read p
      let rest ← collect h i (← deref node.next)
      return node.element :: rest

/-- `room` tells whether `malloc` finds room for the array. -/
def genArray (room : Bool) (h : Heap (LLNode α)) (lld : LlData) :
    Except Fault (Option (List (Option α))) :=
  if 0 < lld.size ∧ room then do
    let sentinel ← h.read lld.sentinel
    let tmp ← collect h lld.size.toNat (← deref sentinel.next)
    return some tmp
  else .ok none

/-- `ll_toArray` leaves the length as it was when it returns NULL. -/
def llToArray (room : Bool) (h : Heap (LLNode α)) (lld : LlData) (len : ℤ) :
    Except Fault (Option (List (Option α)) × ℤ) := do
  match ← genArray room h lld with
  | none => return (none, len)
  | some tmp => return (some tmp, lld.size)

/-! ## Removing elements -/

/-- What `ll_remove`, `ll_removeFirst` and `ll_removeLast` do with the node they found. -/
def removeEntry (h : Heap (LLNode α)) (lld : LlData) (p : ℕ) :
    Except Fault (Heap (LLNode α) × LlData × Option (Option α)) := do
  let node ← h.read p
  let h ← unlink h p
  let (h, lld) ← putEntry h lld p
  return (h, { lld with size := lld.size - 1 }, some node.element)

def llRemove (h : Heap (LLNode α)) (lld : LlData) (index : ℤ) :
    Except Fault (Heap (LLNode α) × LlData × Option (Option α)) :=
  if index < lld.size then do
    let sentinel ← h.read lld.sentinel
    let p ← walk h index.toNat (← deref sentinel.next)
    removeEntry h lld p
  else .ok (h, lld, none)

def llRemoveFirst (h : Heap (LLNode α)) (lld : LlData) :
    Except Fault (Heap (LLNode α) × LlData × Option (Option α)) := do
  let sentinel ← h.read lld.sentinel
  let p ← deref sentinel.next
  if p ≠ lld.sentinel then removeEntry h lld p
  else return (h, lld, none)

def llRemoveLast (h : Heap (LLNode α)) (lld : LlData) :
    Except Fault (Heap (LLNode α) × LlData × Option (Option α)) := do
  let sentinel ← h.read lld.sentinel
  let p ← deref sentinel.prev
  if p ≠ lld.sentinel then removeEntry h lld p
  else return (h, lld, none)

/-- The loop of `purge` from the node `cur` on, with at most `fuel` nodes before the
sentinel. The list is what the loop hands to `freeFxn`, in order. -/
def purgeFrom : ℕ → Heap (LLNode α) → LlData → ℕ →
    Except Fault (Heap (LLNode α) × LlData × List (Option α))
  | 0, h, lld, cur => if cur = lld.sentinel then .ok (h, lld, []) else .error .outOfRange
  | fuel + 1, h, lld, cur =>
      if cur = lld.sentinel then .ok (h, lld, [])
      else do
        let node ← h.read cur
        let (h, lld) ← putEntry h lld cur
        let (h, lld, rest) ← purgeFrom fuel h lld (← deref node.next)
        return (h, lld, node.element :: rest)

/-- There are no more nodes than pointers that were ever handed out. -/
def purge (h : Heap (LLNode α)) (lld : LlData) :
    Except Fault (Heap (LLNode α) × LlData × List (Option α)) := do
  let sentinel ← h.read lld.sentinel
  purgeFrom h.next h lld (← deref sentinel.next)

def llClear (h : Heap (LLNode α)) (lld : LlData) :
    Except Fault (Heap (LLNode α) × LlData × List (Option α)) := do
  let (h, lld, elements) ← purge h lld
  let h ← h.modify lld.sentinel fun node => { node with next := some lld.sentinel }
  let h ← h.modify lld.sentinel fun node => { node with prev := some lld.sentinel }
  return (h, { lld with size := 0 }, elements)

/-! ## Lists as a whole -/

/-- The loop of `ll_destroy` that frees the nodes on the free list. -/
def freeFrom : ℕ → Heap (LLNode α) → Option ℕ → Except Fault (Heap (LLNode α))
  | _, h, none => .ok h
  | 0, _, some _ => .error .outOfRange
  | fuel + 1, h, some p => do
      let node ← h.read p
      let h ← h.free p
      freeFrom fuel h node.next

def llDestroy (h : Heap (LLNode α)) (lld : LlData) :
    Except Fault (Heap (LLNode α) × List (Option α)) := do
  let (h, lld, elements) ← purge h lld
  let h ← freeFrom h.next h lld.freel
  let h ← h.free lld.sentinel
  return (h, elements)

/-- `LinkedList_create` asks for two blocks, and the sentinel is in the second. -/
def linkedListCreate (blocks : List (LLNode α)) (h : Heap (LLNode α)) :
    Option (Heap (LLNode α) × LlData) :=
  match blocks with
  | _ :: block :: _ =>
      some (h.alloc { block with next := some h.next, prev := some h.next },
        ⟨0, none, h.next⟩)
  | _ => none

/-! ## Calls

A program keeps its lists in variables and calls the functions of `struct linkedlist` on
them in any order. -/

inductive Call (α : Type) where
  | add (element : Option α)
  | insert (index : ℤ) (element : Option α)
  | addFirst (element : Option α)
  | addLast (element : Option α)
  | clear
  | get (index : ℤ)
  | getFirst
  | getLast
  | remove (index : ℤ)
  | removeFirst
  | removeLast
  | set (index : ℤ) (element : Option α)
  | size
  | isEmpty
  | toArray (len : ℤ)

/-- What a call tells its caller: a status, the element of a status that is not 0, a number,
an array with its length, or the elements given to `freeFxn`. -/
inductive Reply (α : Type) where
  | status (ok : Bool)
  | element (e : Option (Option α))
  | number (n : ℤ)
  | array (elements : Option (List (Option α))) (len : ℤ)
  | handed (elements : List (Option α))
  deriving DecidableEq

/-- What `malloc` finds for nodes and for an array. -/
structure Supply (α : Type) where
  blocks : List (LLNode α)
  room : Bool

def Call.run (mem : Supply α) (h : Heap (LLNode α)) (lld : LlData) :
    Call α → Except Fault (Heap (LLNode α) × LlData × Reply α)
  | .add element => do
      let (h, lld, ok) ← llAdd mem.blocks h lld element
      return (h, lld, .status ok)
  | .insert index element => do
      let (h, lld, ok) ← llInsert mem.blocks h lld index element
      return (h, lld, .status ok)
  | .addFirst element => do
      let (h, lld, ok) ← llAddFirst mem.blocks h lld element
      return (h, lld, .status ok)
  | .addLast element => do
      let (h, lld, ok) ← llAddLast mem.blocks h lld element
      return (h, lld, .status ok)
  | .clear => do
      let (h, lld, elements) ← llClear h lld
      return (h, lld, .handed elements)
  | .get index => do
      let e ← llGet h lld index
      return (h, lld, .element e)
  | .getFirst => do
      let e ← llGetFirst h lld
      return (h, lld, .element e)
  | .getLast => do
      let e ← llGetLast h lld
      return (h, lld, .element e)
  | .remove index => do
      let (h, lld, e) ← llRemove h lld index
      return (h, lld, .element e)
  | .removeFirst => do
      let (h, lld, e) ← llRemoveFirst h lld
      return (h, lld, .element e)
  | .removeLast => do
      let (h, lld, e) ← llRemoveLast h lld
      return (h, lld, .element e)
  | .set index element => do
      let (h, e) ← llSet h lld index element
      return (h, lld, .element e)
  | .size => .ok (h, lld, .number (llSize lld))
  | .isEmpty => .ok (h, lld, .status (llIsEmpty lld))
  | .toArray len => do
      let (elements, len) ← llToArray mem.room h lld len
      return (h, lld, .array elements len)

/-- The lists of a program, by variable. -/
structure Lists (α : Type) where
  heap : Heap (LLNode α)
  lists : ℕ → Option LlData

inductive Action (α : Type) where
  | create (i : ℕ)
  | call (i : ℕ) (c : Call α)
  | destroy (i : ℕ)

def Lists.perform (ls : Lists α) (mem : Supply α) :
    Action α → Except Fault (Lists α × Reply α)
  | .create i =>
      match linkedListCreate mem.blocks ls.heap with
      | none => .ok ({ ls with lists := Function.update ls.lists i none }, .status false)
      | some (h, lld) => .ok (⟨h, Function.update ls.lists i (some lld)⟩, .status true)
  | .call i c => do
      let lld ← deref (ls.lists i)
      let (h, lld, reply) ← c.run mem ls.heap lld
      return (⟨h, Function.update ls.lists i (some lld)⟩, reply)
  | .destroy i => do
      let lld ← deref (ls.lists i)
      let (h, elements) ← llDestroy ls.heap lld
      return (⟨h, Function.update ls.lists i none⟩, .handed elements)

end CliMessaging.Standalone.LinkedList
