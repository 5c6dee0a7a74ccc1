import SmcPim.Lib.Atomic

/-!
# The list with a lock in each node

From `Jack/FGLockLinkedList.h`. Each access to a lock or a `next` pointer is one step, and so are
the comparison with the data of a node, `new` and `delete`.
-/

namespace SmcPim.FineList

structure Ends (α : Type*) where
  head : α
  tail : α
  ne : head ≠ tail

structure Heap (α κ τ : Type*) where
  data : α → κ
  next : α → α
  lock : α → Option τ
  live : Finset α

/-- Where a thread is in one of the three functions, with its variables. -/
inductive Loc (α : Type*)
  | lockHead
  /-- `curr = curr->next`, with the lock of `curr`. -/
  | advance (curr : α)
  | lockCurr (pred curr : α)
  /-- In `contains`, as soon as `curr` is locked. -/
  | unlockPred (pred curr : α)
  /-- The condition of the loop and what follows it. -/
  | test (pred curr : α)
  /-- In the loops of `add` and `remove`. -/
  | release (pred curr : α)
  | create (pred curr : α)
  | setNext (pred curr node1 : α)
  | link (pred curr node1 : α)
  | readNext (pred curr : α)
  | unlink (pred curr succ : α)
  | unlockCurr (pred curr : α)
  | delete (pred curr : α)
  | unlockBoth (pred curr : α) (r : Bool)
  | unlockLast (node : α) (r : Bool)
  | ret (r : Bool)

inductive Thread (α κ : Type*)
  | idle
  | busy (op : SetOp κ) (loc : Loc α)

structure State (α κ τ : Type*) where
  heap : Heap α κ τ
  thread : τ → Thread α κ

inductive Instr (α κ : Type*)
  | lock (p : α)
  | unlock (p : α)
  | readNext (p : α)
  | readData (p : α)
  | new (x : κ)
  | writeNext (p q : α)
  | delete (p : α)

def Instr.node {α κ : Type*} : Instr α κ → Option α
  | lock p | unlock p | readNext p | readData p | writeNext p _ | delete p => some p
  | new _ => none

section
variable {α κ τ : Type} [DecidableEq α] [LinearOrder κ] [DecidableEq τ] (E : Ends α)

def instr (op : SetOp κ) : Loc α → Option (Instr α κ)
  | .lockHead => some (.lock E.head)
  | .advance curr => some (.readNext curr)
  | .lockCurr _ curr => some (.lock curr)
  | .unlockPred pred _ => some (.unlock pred)
  | .test _ curr => some (.readData curr)
  | .release pred _ => some (.unlock pred)
  | .create _ _ => some (.new op.key)
  | .setNext _ curr node1 => some (.writeNext node1 curr)
  | .link pred _ node1 => some (.writeNext pred node1)
  | .readNext _ curr => some (.readNext curr)
  | .unlink pred _ succ => some (.writeNext pred succ)
  | .unlockCurr _ curr => some (.unlock curr)
  | .delete _ curr => some (.delete curr)
  | .unlockBoth pred _ _ => some (.unlock pred)
  | .unlockLast node _ => some (.unlock node)
  | .ret _ => none

/-- The loop's body up to its first unlock or write, and what follows the loop. -/
def branch (h : Heap α κ τ) (pred curr : α) : SetOp κ → Loc α
  | .contains x =>
    if curr = E.tail then .unlockLast curr false
    else if x < h.data curr then .unlockLast curr false
    else if h.data curr = x then .unlockLast curr true
    else .advance curr
  | .add x =>
    if curr = E.tail then .create pred curr
    else if x < h.data curr then .create pred curr
    else if x = h.data curr then .unlockBoth pred curr false
    else .release pred curr
  | .remove x =>
    if curr = E.tail then .unlockBoth pred curr false
    else if x < h.data curr then .unlockBoth pred curr false
    else if x = h.data curr then .readNext pred curr
    else .release pred curr

/-- Where the thread goes; `n` is the node that `new` gives. -/
def goto (h : Heap α κ τ) (op : SetOp κ) (n : α) : Loc α → Loc α
  | .lockHead => .advance E.head
  | .advance curr => .lockCurr curr (h.next curr)
  | .lockCurr pred curr =>
    match op with
    | .contains _ => .unlockPred pred curr
    | .add _ | .remove _ => .test pred curr
  | .unlockPred pred curr => .test pred curr
  | .test pred curr => branch E h pred curr op
  | .release _ curr => .advance curr
  | .create pred curr => .setNext pred curr n
  | .setNext pred curr node1 => .link pred curr node1
  | .link pred curr _ => .unlockBoth pred curr true
  | .readNext pred curr => .unlink pred curr (h.next curr)
  | .unlink pred curr _ => .unlockCurr pred curr
  | .unlockCurr pred curr => .delete pred curr
  | .delete pred _ => .unlockLast pred true
  | .unlockBoth _ curr r => .unlockLast curr r
  | .unlockLast _ r => .ret r
  | .ret r => .ret r

def exec (h : Heap α κ τ) (t : τ) (n : α) : Instr α κ → Option (Heap α κ τ)
  | .lock p => if h.lock p = none then some { h with lock := Function.update h.lock p (some t) } else none
  | .unlock p => some { h with lock := Function.update h.lock p none }
  | .readNext _ => some h
  | .readData _ => some h
  | .new x =>
    if n ∈ h.live then none
    else some { data := Function.update h.data n x, next := h.next
                lock := Function.update h.lock n none, live := insert n h.live }
  | .writeNext p q => some { h with next := Function.update h.next p q }
  | .delete p => some { h with live := h.live.erase p }

def step (s : State α κ τ) : Label τ (SetOp κ) Bool α → Option (State α κ τ)
  | .call t op =>
    match s.thread t with
    | .idle => some { s with thread := Function.update s.thread t (.busy op .lockHead) }
    | .busy _ _ => none
  | .ret t r =>
    match s.thread t with
    | .busy _ (.ret r') =>
      if r = r' then some { s with thread := Function.update s.thread t .idle } else none
    | _ => none
  | .step t n =>
    match s.thread t with
    | .idle => none
    | .busy op loc => do
      let i ← instr E op loc
      let heap ← exec s.heap t n i
      some ⟨heap, Function.update s.thread t (.busy op (goto E s.heap op n loc))⟩

/-- What the constructor leaves, with any contents of the rest of the memory. -/
def init (data : α → κ) (next : α → α) : State α κ τ where
  heap :=
    { data, next := Function.update next E.head E.tail
      lock := fun _ => none, live := {E.head, E.tail} }
  thread := fun _ => .idle

end

end SmcPim.FineList
