import SmcPim.FlatCombining.Nodes

/-!
# The flat-combining queue

From `testProject/test/MyFCQueue.h` and `get_new_slot` of `data_structures/ITest.h`. A thread posts
its request in `_req_ans` of its slot, and a combiner answers by writing `_NULL_VALUE` there. Each
access to a slot, the list of slots, the lock or the queue is one step.
-/

namespace SmcPim.FcQueue

open FlatCombining (Malloc intMin)

def nullValue : ℤ := 0

def deqValue : ℤ := intMin + 2

/-- The slots: the one that the constructor makes, and one for each thread. -/
inductive Name (τ : Type)
  | first
  | own (t : τ)
  deriving DecidableEq

structure Slot (τ ρ : Type) where
  reqAns : ℤ
  next : Option (Name τ)
  rNode : Option ρ

inductive Op (ρ : Type)
  | add (r : ρ)
  | remove
  deriving DecidableEq

inductive Ans (ρ : Type)
  | added
  | removed (r : Option ρ)
  deriving DecidableEq

/-- What a thread writes to `_req_ans`. -/
def Op.request {ρ : Type} : Op ρ → ℤ
  | add _ => 1
  | remove => deqValue

def Op.waits {ρ : Type} (v : ℤ) : Op ρ → Bool
  | add _ => v ≠ nullValue
  | remove => v = deqValue

inductive Pass (τ α ρ : Type)
  | getTail
  | visit (n : Name τ)
  | readReq (n : Name τ)
  | enqLength (n : Name τ)
  | enqRead (n : Name τ)
  | enqLink (n : Name τ) (r : Option ρ)
  | enqHead (n : Name τ)
  | deqTest (n : Name τ)
  | deqLength (n : Name τ)
  | deqNode (n : Name τ)
  | deqTail (n : Name τ)
  | deqDelete (n : Name τ) (currNode : α)
  | deqEmpty (n : Name τ)
  | answer (n : Name τ)
  | advance (n : Name τ)

inductive Pc (τ α ρ : Type)
  | idle
  | getSlot (op : Op ρ)
  | newSlot (op : Op ρ)
  | clearReq (op : Op ρ)
  | getTail (op : Op ρ)
  | setNext (op : Op ρ) (tl : Name τ)
  | cas (op : Op ρ) (tl : Name τ)
  | writeNode (op : Op ρ)
  | writeReq (op : Op ρ)
  | checkNext (op : Op ρ)
  | enqTail (op : Op ρ)
  | enqNext (op : Op ρ) (tl : Name τ)
  | enqCas (op : Op ρ) (tl : Name τ)
  /-- The lock is read `n + 1` more times, and then set. -/
  | lockRead (op : Op ρ) (n : ℕ)
  | lockCas (op : Op ρ)
  | waitReq (op : Op ρ)
  | waitLock (op : Op ρ)
  | lastReq (op : Op ρ)
  | pass (op : Op ρ) (p : Pass τ α ρ)
  | unlock (op : Op ρ)
  | result (op : Op ρ)
  | ret (r : Ans ρ)

structure State (τ α ρ : Type) where
  slot : Name τ → Slot τ ρ
  tailSlot : Name τ
  tls : τ → Bool
  lock : Bool
  length : BitVec 32
  head : α
  tail : α
  next : α → Option α
  rNode : α → Option ρ
  used : List α
  pc : τ → Pc τ α ρ

section
variable {τ α ρ : Type} [DecidableEq τ] [DecidableEq α]

/-- The constructor, with slots and nodes in a memory of any contents. -/
def init (M : Malloc α) (slot : Name τ → Slot τ ρ) (next : α → Option α) (rNode : α → Option ρ) :
    State τ α ρ where
  slot := Function.update slot .first ⟨nullValue, none, none⟩
  tailSlot := .first
  tls _ := false
  lock := false
  length := 0
  head := M.new []
  tail := M.new []
  next := Function.update next (M.new []) none
  rNode := Function.update rNode (M.new []) none
  used := [M.new []]
  pc _ := .idle

namespace State

variable (s : State τ α ρ)

def goto (t : τ) (pc : Pc τ α ρ) : State τ α ρ := { s with pc := Function.update s.pc t pc }

def write (n : Name τ) (f : Slot τ ρ → Slot τ ρ) : State τ α ρ :=
  { s with slot := Function.update s.slot n (f (s.slot n)) }

end State

variable (M : Malloc α)

def passStep (s : State τ α ρ) (t : τ) (op : Op ρ) : Pass τ α ρ → Option (State τ α ρ)
  | .getTail => some (s.goto t (.pass op (.visit s.tailSlot)))
  | .visit n =>
    if (s.slot n).next ≠ none then some (s.goto t (.pass op (.readReq n))) else some (s.goto t (.unlock op))
  | .readReq n =>
    if nullValue < (s.slot n).reqAns then some (s.goto t (.pass op (.enqLength n)))
    else if (s.slot n).reqAns = deqValue then some (s.goto t (.pass op (.deqTest n)))
    else some (s.goto t (.pass op (.advance n)))
  | .enqLength n => some (State.goto { s with length := s.length + 1 } t (.pass op (.enqRead n)))
  | .enqRead n => some (s.goto t (.pass op (.enqLink n (s.slot n).rNode)))
  | .enqLink n r =>
    if s.head ∈ s.used then
      let p := M.new s.used
      some (State.goto { s with
        used := p :: s.used
        rNode := Function.update s.rNode p r
        next := Function.update (Function.update s.next p none) s.head (some p) } t
          (.pass op (.enqHead n)))
    else none
  | .enqHead n => (s.next s.head).map fun p => State.goto { s with head := p } t (.pass op (.answer n))
  | .deqTest n =>
    if s.tail ∈ s.used then
      if s.next s.tail ≠ none then some (s.goto t (.pass op (.deqLength n)))
      else some (s.goto t (.pass op (.deqEmpty n)))
    else none
  | .deqLength n => some (State.goto { s with length := s.length - 1 } t (.pass op (.deqNode n)))
  | .deqNode n => (s.next s.tail).bind fun p =>
    if p ∈ s.used then
      some ((s.write n fun x => { x with rNode := s.rNode p }).goto t (.pass op (.deqTail n)))
    else none
  | .deqTail n => (s.next s.tail).map fun p =>
    State.goto { s with tail := p } t (.pass op (.deqDelete n s.tail))
  | .deqDelete n currNode =>
    if currNode ∈ s.used then
      some (State.goto { s with used := s.used.erase currNode } t (.pass op (.answer n)))
    else none
  | .deqEmpty n => some ((s.write n fun x => { x with rNode := none }).goto t (.pass op (.answer n)))
  | .answer n =>
    some ((s.write n fun x => { x with reqAns := nullValue }).goto t (.pass op (.advance n)))
  | .advance n => ((s.slot n).next).map fun m => s.goto t (.pass op (.visit m))

def pcStep (s : State τ α ρ) (t : τ) : Pc τ α ρ → Option (State τ α ρ)
  | .idle => none
  | .getSlot op => some (s.goto t (if s.tls t then .writeNode op else .newSlot op))
  | .newSlot op =>
    some (State.goto { s with
      slot := Function.update s.slot (.own t) ⟨nullValue, none, none⟩
      tls := Function.update s.tls t true } t (.clearReq op))
  | .clearReq op =>
    some ((s.write (.own t) fun x => { x with reqAns := nullValue }).goto t (.getTail op))
  | .getTail op => some (s.goto t (.setNext op s.tailSlot))
  | .setNext op tl =>
    some ((s.write (.own t) fun x => { x with next := some tl }).goto t (.cas op tl))
  | .cas op tl =>
    if s.tailSlot = tl then some (State.goto { s with tailSlot := .own t } t (.writeNode op))
    else some (s.goto t (.getTail op))
  | .writeNode op =>
    match op with
    | .add r => some ((s.write (.own t) fun x => { x with rNode := some r }).goto t (.writeReq op))
    | .remove => some (s.goto t (.writeReq op))
  | .writeReq op =>
    some ((s.write (.own t) fun x => { x with reqAns := op.request }).goto t (.checkNext op))
  | .checkNext op =>
    some (s.goto t (if (s.slot (.own t)).next = none then .enqTail op else .lockRead op 2))
  | .enqTail op => some (s.goto t (.enqNext op s.tailSlot))
  | .enqNext op tl =>
    some ((s.write (.own t) fun x => { x with next := some tl }).goto t (.enqCas op tl))
  | .enqCas op tl =>
    if s.tailSlot = tl then some (State.goto { s with tailSlot := .own t } t (.lockRead op 2))
    else some (s.goto t (.enqTail op))
  | .lockRead op n =>
    some (s.goto t (if s.lock then .waitReq op else match n with
      | 0 => .lockCas op
      | n + 1 => .lockRead op n))
  | .lockCas op =>
    if s.lock then some (s.goto t (.waitReq op))
    else some (State.goto { s with lock := true } t (.pass op .getTail))
  | .waitReq op => some (s.goto t (if op.waits (s.slot (.own t)).reqAns then .waitLock op else .lastReq op))
  | .waitLock op => some (s.goto t (if s.lock then .waitReq op else .lastReq op))
  | .lastReq op => some (s.goto t (if op.waits (s.slot (.own t)).reqAns then .checkNext op else .result op))
  | .pass op p => passStep M s t op p
  | .unlock op => some (State.goto { s with lock := false } t (.result op))
  | .result op =>
    match op with
    | .add _ => some (s.goto t (.ret .added))
    | .remove => some (s.goto t (.ret (.removed (s.slot (.own t)).rNode)))
  | .ret _ => none

def step [DecidableEq ρ] (s : State τ α ρ) : Label τ (Op ρ) (Ans ρ) Unit → Option (State τ α ρ)
  | .call t op =>
    match s.pc t with
    | .idle => some (s.goto t (.getSlot op))
    | _ => none
  | .ret t r =>
    match s.pc t with
    | .ret r' => if r = r' then some (s.goto t .idle) else none
    | _ => none
  | .step t () => pcStep M s t (s.pc t)

end

end SmcPim.FcQueue
