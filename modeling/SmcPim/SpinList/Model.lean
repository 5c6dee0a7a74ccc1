import SmcPim.Lib.Stops
import SmcPim.PimList.HostList

/-!
# The list with a spin lock in each node

From `host/gen_single/LockLinkedList.h`, as one thread runs it. Its loops run by the count of the nodes. Where the
thread would wait for a lock, it would wait for itself.
-/

namespace SmcPim.SpinList

open PimList (Allocator)

inductive Fault
  | nullPointer
  | danglingPointer
  /-- The lock is not free, and nobody will free it. -/
  | spins
  | overflow
  deriving DecidableEq

def intMax : ℕ := 2 ^ 31 - 1

structure LinkedList (κ : Type) where
  data : ℕ → κ
  next : ℕ → ℕ
  lock : ℕ → Bool
  head : ℕ
  headLock : Bool
  listSize : ℕ
  used : List ℕ

namespace LinkedList

variable {κ : Type}

/-- The constructor, with any contents of the memory. -/
def make (data : ℕ → κ) (next : ℕ → ℕ) (lock : ℕ → Bool) : LinkedList κ :=
  { data, next, lock, head := 0, headLock := false, listSize := 0, used := [] }

/-! ## Accesses -/

def access (l : LinkedList κ) (p : ℕ) : Except Fault Unit :=
  if p = 0 then .error .nullPointer else if p ∈ l.used then .ok () else .error .danglingPointer

def getData (l : LinkedList κ) (p : ℕ) : Except Fault κ := do
  l.access p
  return l.data p

def getNext (l : LinkedList κ) (p : ℕ) : Except Fault ℕ := do
  l.access p
  return l.next p

def setNext (l : LinkedList κ) (p q : ℕ) : Except Fault (LinkedList κ) := do
  l.access p
  return { l with next := Function.update l.next p q }

/-- `while (true) if (!p->lock.test_and_set()) break;` -/
def acquire (l : LinkedList κ) (p : ℕ) : Except Fault (LinkedList κ) := do
  l.access p
  if l.lock p then .error .spins else return { l with lock := Function.update l.lock p true }

def clear (l : LinkedList κ) (p : ℕ) : Except Fault (LinkedList κ) := do
  l.access p
  return { l with lock := Function.update l.lock p false }

def delete (l : LinkedList κ) (p : ℕ) : Except Fault (LinkedList κ) := do
  l.access p
  return { l with used := l.used.erase p }

def acquireIf (l : LinkedList κ) (p : ℕ) : Except Fault (LinkedList κ) := if p = 0 then .ok l else l.acquire p

def clearIf (l : LinkedList κ) (p : ℕ) : Except Fault (LinkedList κ) := if p = 0 then .ok l else l.clear p

def acquireHead (l : LinkedList κ) : Except Fault (LinkedList κ) :=
  if l.headLock then .error .spins else .ok { l with headLock := true }

def clearHead (l : LinkedList κ) : LinkedList κ := { l with headLock := false }

def setHead (l : LinkedList κ) (p : ℕ) : LinkedList κ := { l with head := p }

def newNode (l : LinkedList κ) (A : Allocator) (x : κ) (next : ℕ) : LinkedList κ :=
  let node1 := A.new l.used
  { l with
    data := Function.update l.data node1 x
    next := Function.update l.next node1 next
    lock := Function.update l.lock node1 false
    used := node1 :: l.used }

def grow (l : LinkedList κ) : Except Fault (LinkedList κ) :=
  if l.listSize = intMax then .error .overflow else .ok { l with listSize := l.listSize + 1 }

def shrink (l : LinkedList κ) : LinkedList κ := { l with listSize := l.listSize - 1 }

/-- The next node, if there is one, is locked. The source has this in `contains` and in `remove`. -/
def advance (l : LinkedList κ) (curr : ℕ) : Except Fault (LinkedList κ × ℕ) := do
  let next ← l.getNext curr
  if next = 0 then return (l, curr) else return (← l.acquire next, next)

/-- What follows the loop of `add`. -/
def insertBetween (x : κ) (A : Allocator) (pred curr : ℕ) (l : LinkedList κ) : Except Fault (LinkedList κ × Bool) := do
  let node1 := A.new l.used
  let l := l.newNode A x curr
  let l ← l.setNext pred node1
  let l ← l.grow
  let l ← l.clear pred
  let l ← l.clearIf curr
  return (l, true)

variable [LinearOrder κ] (x : κ)

def containsLoop : ℕ → ℕ → LinkedList κ → Except Fault (LinkedList κ × Bool)
  | 0, _, l => return (l, false)
  | n + 1, curr, l => do
    if x < (← l.getData curr) then return (← l.clear curr, false)
    if (← l.getData curr) = x then return (← l.clear curr, true)
    let pred := curr
    let (l, curr) ← l.advance curr
    let l ← l.clear pred
    containsLoop n curr l

def contains (l : LinkedList κ) : Except Fault (LinkedList κ × Bool) := do
  let l ← l.acquireHead
  if l.listSize = 0 then return (l.clearHead, false)
  let curr := l.head
  let l ← l.acquire curr
  let l := l.clearHead
  containsLoop x l.listSize curr l

def addLoop (A : Allocator) : ℕ → ℕ → ℕ → LinkedList κ → Except Fault (LinkedList κ × Bool)
  | 0, pred, curr, l => insertBetween x A pred curr l
  | n + 1, pred, curr, l => do
    if x < (← l.getData curr) then insertBetween x A pred curr l
    else if (← l.getData curr) = x then
      let l ← l.clear pred
      return (← l.clear curr, false)
    else
      let l ← l.clear pred
      let pred := curr
      let curr ← l.getNext curr
      let l ← l.acquireIf curr
      addLoop A n pred curr l

def add (A : Allocator) (l : LinkedList κ) : Except Fault (LinkedList κ × Bool) := do
  let l ← l.acquireHead
  if l.listSize = 0 then
    let l := { l.newNode A x 0 with head := A.new l.used, listSize := 1 }
    return (l.clearHead, true)
  if x = (← l.getData l.head) then return (l.clearHead, false)
  if x < (← l.getData l.head) then
    let l ← { l.newNode A x l.head with head := A.new l.used }.grow
    return (l.clearHead, true)
  let pred := l.head
  let l ← l.acquire pred
  let curr ← l.getNext l.head
  let l ← l.acquireIf curr
  let l := l.clearHead
  addLoop x A (l.listSize - 1) pred curr l

def removeLoop : ℕ → ℕ → ℕ → LinkedList κ → Except Fault (LinkedList κ × Bool)
  | 0, _, curr, l => return (← l.clear curr, false)
  | n + 1, pred, curr, l => do
    if x < (← l.getData curr) then
      let l ← l.clear pred
      return (← l.clear curr, false)
    if (← l.getData curr) = x then
      let next ← l.getNext curr
      let l ← l.acquireIf next
      let l ← l.setNext pred next
      let l ← l.delete curr
      let l := l.shrink
      let l ← l.clear pred
      let l ← l.clearIf (← l.getNext pred)
      return (l, true)
    let l ← l.clear pred
    let pred := curr
    let (l, curr) ← l.advance curr
    removeLoop n pred curr l

def remove (l : LinkedList κ) : Except Fault (LinkedList κ × Bool) := do
  let l ← l.acquireHead
  if l.listSize = 0 then return (l.clearHead, false)
  let pred := l.head
  let l ← l.acquire l.head
  if (← l.getData l.head) = x then
    let next ← l.getNext l.head
    let l ← l.acquireIf next
    let l ← (l.setHead next).delete pred
    let l := l.shrink
    let l ← l.clearIf l.head
    return (l.clearHead, true)
  let l := l.clearHead
  let next ← l.getNext pred
  -- The `else` belongs to the `if` in the loop: it is taken if the next node is locked, not if there is none.
  if next ≠ 0 then
    l.access next
    if l.lock next then return (← l.clear pred, false)
  let l ← l.acquireIf next
  removeLoop x (l.listSize - 1) pred next l

def call (A : Allocator) (l : LinkedList κ) : SetOp κ → Except Fault (LinkedList κ × Bool)
  | .contains k => l.contains k
  | .add k => l.add k A
  | .remove k => l.remove k

end LinkedList

end SmcPim.SpinList
