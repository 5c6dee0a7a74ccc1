import SmcPim.Lib.SetOps
import SmcPim.Machine

/-!
# The linked list of the PIM

From `SW/PIM/kernels/linked_list.c`, in the build without debug output. A free block keeps the link
to the next free one in the word of its key, and the list lies between two sentinels in the scalar
registers.
-/

namespace SmcPim.PimList

/-- Where the two register files are. Address 0 is neither. -/
structure Layout where
  arch : Arch
  vreg : Nat
  vregSize : Nat
  sreg : Nat
  vreg_pos : 0 < vreg
  sreg_pos : 0 < sreg
  vreg_end : vreg + vregSize ≤ 2 ^ arch.bits
  sreg_end : sreg + 8 * arch.bytes ≤ 2 ^ arch.bits
  apart : vreg + vregSize ≤ sreg ∨ sreg + 8 * arch.bytes ≤ vreg

def uint32Max : Nat := 2 ^ 32 - 1

/-- Why a traversal gives no node: it dereferences a null pointer, or it goes on. -/
inductive Stop
  | nullPointer
  | running
  deriving DecidableEq, Repr

namespace Layout

variable (L : Layout) (m : Memory)

def blockSize : Nat := 2 * L.arch.bytes

def numMemBlocks : Nat := L.vregSize / L.blockSize

def block (i : Nat) : Nat := L.vreg + i * L.blockSize

def blocks : List Nat := (List.range L.numMemBlocks).map L.block

/-! ## Words -/

def load (a : Nat) : Nat := L.arch.ulong (m a)

def store (a v : Nat) : Memory := fun x => if x = a then L.arch.ulong v else m x

def sregAddr (i : Nat) : Nat := L.sreg + i * L.arch.bytes

def readSreg (i : Nat) : Nat := L.load m (L.sregAddr i)

def writeSreg (i v : Nat) : Memory := L.store m (L.sregAddr i) v

def head : Nat := L.sregAddr 4

def tail : Nat := L.sregAddr 6

def key (x : Nat) : Nat := L.load m x

def next (x : Nat) : Nat := L.load m (x + L.arch.bytes)

def setKey (x v : Nat) : Memory := L.store m x v

def setNext (x v : Nat) : Memory := L.store m (x + L.arch.bytes) v

/-- The link of a free block lies where its key does. -/
def freeNext (x : Nat) : Nat := L.load m x

def setFreeNext (x v : Nat) : Memory := L.store m x v

/-- The memory afterwards, and the block or 0. -/
def allocMemoryBlock : Memory × Nat :=
  let memBlock := L.readSreg m 3
  if memBlock ≠ 0 then (L.writeSreg m 3 (L.freeNext m memBlock), memBlock) else (m, memBlock)

def freeMemoryBlock (nodeptr : Nat) : Memory :=
  L.writeSreg (L.setFreeNext m nodeptr (L.readSreg m 3)) 3 nodeptr

/-- The body of the loop is that of `free_memory_block`. -/
def listInit : Memory :=
  let m := L.writeSreg m 3 0
  let m := (List.range L.numMemBlocks).foldl (fun m i => L.freeMemoryBlock m (L.block i)) m
  let m := L.setKey m L.head 0
  let m := L.setNext m L.head L.tail
  let m := L.setKey m L.tail uint32Max
  L.setNext m L.tail 0

/-! ## The list -/

/-- The loop of `list_add` and `list_remove`, with a bound on its steps. -/
def walk (k : Nat) : Nat → Nat → Nat → Except Stop (Nat × Nat)
  | 0, _, _ => .error .running
  | fuel + 1, pred, curr =>
    if curr = 0 then .error .nullPointer
    else if L.key m curr < k then walk k fuel curr (L.next m curr)
    else .ok (pred, curr)

def seek (k : Nat) : Nat → Nat → Except Stop Nat
  | 0, _ => .error .running
  | fuel + 1, curr =>
    if curr = 0 then .error .nullPointer
    else if L.key m curr < k then seek k fuel (L.next m curr)
    else .ok curr

def listAdd (fuel addKey : Nat) : Except Stop (Memory × Nat) := do
  let (pred, curr) ← L.walk m addKey fuel L.head (L.next m L.head)
  if L.key m curr = addKey then .ok (m, 0)
  else
    let (m, newNode) := L.allocMemoryBlock m
    if newNode = 0 then .ok (m, 0)
    else
      let m := L.setKey m newNode addKey
      let m := L.setNext m newNode curr
      .ok (L.setNext m pred newNode, 1)

def listRemove (fuel removeKey : Nat) : Except Stop (Memory × Nat) := do
  let (pred, curr) ← L.walk m removeKey fuel L.head (L.next m L.head)
  if L.key m curr ≠ removeKey then .ok (m, 0)
  else
    let m := L.setNext m pred (L.next m curr)
    .ok (L.freeMemoryBlock m curr, 1)

def listContains (fuel containsKey : Nat) : Except Stop Nat := do
  let curr ← L.seek m containsKey fuel L.head
  if L.key m curr = containsKey then .ok 1 else .ok 0

/-- The command is in `SREG[0]` and the key in `SREG[1]`; the answer goes to `SREG[2]`. -/
def executeKernel (fuel : Nat) : Except Stop Memory :=
  let paramKey := L.readSreg m 1
  match L.readSreg m 0 with
  | 0 => .ok (L.listInit m)
  | 1 => do
    let (m, r) ← L.listAdd m fuel paramKey
    .ok (L.writeSreg m 2 r)
  | 2 => do
    let (m, r) ← L.listRemove m fuel paramKey
    .ok (L.writeSreg m 2 r)
  | 3 => do
    let r ← L.listContains m fuel paramKey
    .ok (L.writeSreg m 2 r)
  | _ => .ok m

/-! ## Commands of the host -/

def code : SetOp Nat → Nat
  | .add _ => 1
  | .remove _ => 2
  | .contains _ => 3

/-- The host writes a command and its key and has the kernel run. -/
def command (fuel code k : Nat) : Except Stop Memory :=
  L.executeKernel (L.writeSreg (L.writeSreg m 0 code) 1 k) fuel

/-- Command 0, for which the host writes no key. -/
def start (fuel : Nat) : Except Stop Memory := L.executeKernel (L.writeSreg m 0 0) fuel

def perform (fuel : Nat) (op : SetOp Nat) : Except Stop (Memory × Nat) := do
  let m ← L.command m fuel (code op) op.key
  .ok (m, L.readSreg m 2)

def performAll (fuel : Nat) : Memory → List (SetOp Nat) → Except Stop (Memory × List Nat)
  | m, [] => .ok (m, [])
  | m, op :: ops => do
    let (m, r) ← L.perform m fuel op
    let (m, rs) ← performAll fuel m ops
    .ok (m, r :: rs)

end Layout

end SmcPim.PimList
