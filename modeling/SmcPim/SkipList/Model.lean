import SmcPim.FlatCombining.Nodes

/-!
# The flat-combining skip list

From `testProject/test/MyFCSkipList.h`. A node is linked at all levels below its `_top_level`. Every
access through a pointer is to a node that was allocated and not deleted, or the model has no
result.
-/

namespace SmcPim.SkipList

open FlatCombining (Malloc Slot Op intMin intMax)

def maxLevels : ℕ := 25

/-- A stream of random numbers: what the `i`-th call of `nextInt(n)` gives. -/
structure Random where
  nextInt : ℕ → ℕ → ℕ
  lt : ∀ i n, 0 < n → nextInt i n < n

structure Nodes (α : Type) where
  null : α
  head : α
  tail : α
  maxLevel : ℕ
  key : α → ℤ
  topLevel : α → ℕ
  next : α → ℕ → α
  preds : ℕ → α
  succs : ℕ → α
  used : List α
  draws : ℕ

/-- `while (((x >>= 1) & 1) != 0) ++level;`, where `fuel` is `x` at the beginning. -/
def climb : ℕ → ℕ → ℕ → ℕ
  | 0, _, level => level
  | fuel + 1, x, level => if x / 2 % 2 ≠ 0 then climb fuel (x / 2) (level + 1) else level

def randomLevel (maxLevel x : ℕ) : ℕ :=
  if BitVec.ofNat 32 x &&& 0x80000001#32 ≠ 0 then 1
  else if maxLevel - 1 < climb x x 2 then maxLevel - 1
  else climb x x 2

namespace Nodes

variable {α : Type} [DecidableEq α] (M : Malloc α) (R : Random)

/-- The loop over one level. It passes each node once, so that `fuel` is one more than their number. -/
def walk (n : Nodes α) (key : ℤ) (level : ℕ) : ℕ → α → Option (α × α)
  | 0, _ => none
  | fuel + 1, pPred =>
    if n.next pPred level ∈ n.used then
      if n.key (n.next pPred level) < key then walk n key level fuel (n.next pPred level)
      else some (pPred, n.next pPred level)
    else none

def findFrom (key : ℤ) : ℕ → α → Option α → Nodes α → Option (Nodes α × Option α)
  | 0, _, found, n => some (n, found)
  | level + 1, pPred, found, n =>
    (n.walk key level (n.used.length + 1) pPred).bind fun r =>
      findFrom key level r.1 (if found = none ∧ key = n.key r.2 then some r.2 else found)
        { n with
          preds := Function.update n.preds level r.1
          succs := Function.update n.succs level r.2 }

def find (key : ℤ) (n : Nodes α) : Option (Nodes α × Option α) := findFrom key n.maxLevel n.head none n

/-! ## Links -/

def setNext (n : Nodes α) (p : α) (level : ℕ) (q : α) : Nodes α :=
  { n with next := Function.update n.next p (Function.update (n.next p) level q) }

def newNode (inKey : ℤ) (height : ℕ) (n : Nodes α) : Nodes α × α :=
  let p := M.new n.used
  ({ n with
      key := Function.update n.key p inKey
      topLevel := Function.update n.topLevel p height
      next := Function.update n.next p fun level => if level < height then n.null else n.next p level
      used := p :: n.used }, p)

/-- The new node `p` is linked at the first levels, from 0 on. -/
def link (p : α) : ℕ → Nodes α → Option (Nodes α)
  | 0, n => some n
  | level + 1, n => (link p level n).bind fun n =>
    if n.preds level ∈ n.used then
      some ((n.setNext p level (n.succs level)).setNext (n.preds level) level p)
    else none

def unlink (x : α) : ℕ → Nodes α → Option (Nodes α)
  | 0, n => some n
  | level + 1, n => (unlink x level n).bind fun n =>
    if n.preds level ∈ n.used then some (n.setNext (n.preds level) level (n.next x level)) else none

/-- What is done for a request, and `_req_ans`; `_NULL_VALUE` is 0. -/
def act (op : Op) (inValue : ℤ) (found : Option α) (n : Nodes α) : Option (Nodes α × ℤ) :=
  match op, found with
  | .add, some _ => some (n, 0)
  | .add, none =>
    let top := randomLevel n.maxLevel (R.nextInt n.draws (2 ^ n.maxLevel))
    let (n, p) := newNode M inValue top { n with draws := n.draws + 1 }
    (link p top n).map fun n => (n, 1)
  | .del, none => some (n, 0)
  | .del, some x => (unlink x (n.topLevel x) n).map fun n => ({ n with used := n.used.erase x }, 1)
  | .contain, none => some (n, 0)
  | .contain, some _ => some (n, 1)

def request (op : Op) (inValue : ℤ) (n : Nodes α) : Option (Nodes α × ℤ) :=
  (find inValue n).bind fun r => act M R op inValue r.2 r.1

end Nodes

/-! ## Combining passes -/

/-- `currSlot` is the variable of the loop in `flat_combining`. -/
structure State (α τ : Type) where
  nodes : Nodes α
  slot : τ → Slot τ Op ℤ
  tailSlot : Option τ
  currSlot : Option τ

structure Posted (τ : Type) where
  slot : τ → Slot τ Op ℤ
  tailSlot : Option τ
  range : ∀ c, (slot c).isRequestValid = true → intMin < (slot c).reqAns ∧ (slot c).reqAns < intMax

inductive Step (τ : Type)
  | post (p : Posted τ)
  | start
  | round

section
variable {α τ : Type} [DecidableEq α] [DecidableEq τ] (M : Malloc α) (R : Random)

def round (s : State α τ) : Option (State α τ) :=
  s.currSlot.bind fun c =>
    if (s.slot c).isRequestValid then
      (Nodes.request M R (s.slot c).op (s.slot c).reqAns s.nodes).map fun r =>
        { s with
          nodes := r.1
          slot := Function.update s.slot c { s.slot c with reqAns := r.2, isRequestValid := false }
          currSlot := (s.slot c).next }
    else some { s with currSlot := (s.slot c).next }

def step (s : State α τ) : Step τ → Option (State α τ)
  | .post p => some { s with slot := p.slot, tailSlot := p.tailSlot }
  | .start => some { s with currSlot := s.tailSlot }
  | .round => round M R s

/-! ## The constructor -/

def maxLevelFor (size : ℤ) : ℕ := ((List.range' 1 (maxLevels - 1)).find? fun i => size < 2 ^ i).getD maxLevels

def sentinels (size : ℤ) (m : Nodes α) : Nodes α :=
  let (n, head) := Nodes.newNode M intMin (maxLevelFor size) { m with used := [] }
  let (n, tail) := Nodes.newNode M intMax (maxLevelFor size) n
  { n with
    head := head
    tail := tail
    maxLevel := maxLevelFor size
    next := Function.update n.next head fun level =>
      if level < maxLevelFor size then tail else n.next head level
    draws := 0 }

/-- The loop over the slots, of which there are less than `fuel`. -/
def rounds : ℕ → State α τ → Option (State α τ)
  | 0, _ => none
  | fuel + 1, s => if s.currSlot = none then some s else (round M R s).bind (rounds fuel)

/-- `_NUM_REP` is 1. -/
def flatCombining (fuel : ℕ) (s : State α τ) : Option (State α τ) :=
  rounds M R fuel { s with currSlot := s.tailSlot }

/-- `fcAdd` when no other thread is there: the slot `c` is enqueued if needed, and the thread combines. -/
def fcAdd (fuel : ℕ) (c : τ) (inValue : ℤ) (s : State α τ) : Option (State α τ) :=
  let slot := { s.slot c with op := .add, reqAns := inValue, isRequestValid := true }
  flatCombining M R fuel <|
    if slot.isSlotLinked then { s with slot := Function.update s.slot c slot }
    else
      { s with
        slot := Function.update s.slot c { slot with isSlotLinked := true, next := s.tailSlot }
        tailSlot := some c }

/-- `while (node_count < size / 2)`, after `i` calls of `rand`. -/
def prefill (rand : Random) (c : τ) (size : ℕ) (minVal : ℤ) :
    ℕ → ℕ → ℕ → State α τ → Option (State α τ)
  | 0, _, _, _ => none
  | fuel + 1, i, nodeCount, s =>
    if nodeCount < size / 2 then
      (fcAdd M R fuel c (rand.nextInt i size + minVal) s).bind fun s =>
        prefill rand c size minVal fuel (i + 1)
          (if (s.slot c).reqAns ≠ 0 then nodeCount + 1 else nodeCount) s
    else some s

/-- The list before it is filled; slots are new when they are used for the first time. -/
def initial (size : ℤ) (m : Nodes α) (slot : τ → Slot τ Op ℤ) : State α τ where
  nodes := sentinels M size m
  slot d := { slot d with
    reqAns := 0, timeStamp := 0, next := none, isSlotLinked := false, isRequestValid := false }
  tailSlot := none
  currSlot := none

/-- The constructor, with `local_slot` called `c`. A size that is no `int` is undefined. -/
def build (rand : Random) (m : Nodes α) (slot : τ → Slot τ Op ℤ) (c : τ) (fuel : ℕ) (minVal maxVal : ℤ) :
    Option (State α τ) :=
  if maxVal - minVal ≤ intMax then
    prefill M R rand c (maxVal - minVal).toNat minVal fuel 0 0 (initial M (maxVal - minVal) m slot)
  else none

end

end SmcPim.SkipList
