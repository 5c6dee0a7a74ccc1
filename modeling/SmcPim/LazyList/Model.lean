import SmcPim.FlatCombining.Nodes

/-!
# The lazy list

From `testProject/test/MyFCLinkedList.h`: `parallelContain`, `parallelAdd` and `parallelDelete`. A
node is marked before it is taken out, and never freed. Each read or write of a next pointer or a
mark and each lock operation is one step.
-/

namespace SmcPim.LazyList

open FlatCombining

/-- Where a thread is. After `unlockCurr` and `unlockPrev` a thread without an answer begins again.
-/
inductive Loc (α : Type)
  | find (curr : α)
  | start
  | walk (prev curr : α)
  | lockPrev (prev curr : α)
  | lockCurr (prev curr : α)
  | testPrev (prev curr : α)
  | testCurr (prev curr : α)
  | testNext (prev curr : α)
  | getNewNode (prev curr : α)
  | setNext (prev curr newNode : α)
  | link (prev curr newNode : α)
  | mark (prev curr : α)
  | readNext (prev curr : α)
  | unlink (prev curr next : α)
  | unlockCurr (prev curr : α) (r : Option Bool)
  | unlockPrev (prev : α) (r : Option Bool)
  | ret (r : Bool)

inductive Thread (α : Type)
  | idle
  | busy (op : SetOp ℤ) (loc : Loc α)

structure State (α τ : Type) where
  nodes : Nodes α
  marked : α → Bool
  lock : α → Option τ
  thread : τ → Thread α

section
variable {α τ : Type} [DecidableEq α] [DecidableEq τ]

namespace State

variable (s : State α τ) (t : τ)

def goto (th : Thread α) : State α τ := { s with thread := Function.update s.thread t th }

def setLock (p : α) (o : Option τ) : State α τ := { s with lock := Function.update s.lock p o }

def setNext (p q : α) : State α τ :=
  { s with nodes := { s.nodes with next := Function.update s.nodes.next p q } }

def setMark (p : α) : State α τ := { s with marked := Function.update s.marked p true }

def new (p : α) (inKey : ℤ) : State α τ where
  nodes := { s.nodes with
    key := Function.update s.nodes.key p inKey
    next := Function.update s.nodes.next p s.nodes.null
    used := p :: s.nodes.used }
  marked := Function.update s.marked p false
  lock := Function.update s.lock p none
  thread := s.thread

end State

/-- What follows if the two neighbours are still neighbours. `parallelContain` does not ask. -/
def found (n : Nodes α) (prev curr : α) : SetOp ℤ → Loc α
  | .add inValue =>
    if n.key curr ≠ inValue then .getNewNode prev curr else .unlockCurr prev curr (some false)
  | .remove inValue =>
    if n.key curr = inValue then .mark prev curr else .unlockCurr prev curr (some false)
  | .contains _ => .unlockCurr prev curr none

/-- One step of a thread inside its call. `p` is the node that `malloc` gives, if it is called. -/
def locStep (s : State α τ) (t : τ) (p : α) (op : SetOp ℤ) : Loc α → Option (State α τ)
  | .find curr =>
    some (s.goto t (.busy op (
      if s.nodes.key curr < op.key then .find (s.nodes.next curr)
      else .ret (decide (s.nodes.key curr = op.key) && !s.marked curr))))
  | .start => some (s.goto t (.busy op (.walk s.nodes.head (s.nodes.next s.nodes.head))))
  | .walk prev curr =>
    some (s.goto t (.busy op (
      if s.nodes.key curr < op.key then .walk curr (s.nodes.next curr) else .lockPrev prev curr)))
  | .lockPrev prev curr =>
    if s.lock prev = none then
      some ((s.setLock prev (some t)).goto t (.busy op (.lockCurr prev curr)))
    else none
  | .lockCurr prev curr =>
    if s.lock curr = none then
      some ((s.setLock curr (some t)).goto t (.busy op (.testPrev prev curr)))
    else none
  | .testPrev prev curr =>
    some (s.goto t (.busy op (
      if s.marked prev then .unlockCurr prev curr none else .testCurr prev curr)))
  | .testCurr prev curr =>
    some (s.goto t (.busy op (
      if s.marked curr then .unlockCurr prev curr none else .testNext prev curr)))
  | .testNext prev curr =>
    some (s.goto t (.busy op (
      if s.nodes.next prev = curr then found s.nodes prev curr op
      else .unlockCurr prev curr none)))
  | .getNewNode prev curr =>
    if p ∈ s.nodes.used ∨ p = s.nodes.null then none
    else some ((s.new p op.key).goto t (.busy op (.setNext prev curr p)))
  | .setNext prev curr newNode =>
    some ((s.setNext newNode curr).goto t (.busy op (.link prev curr newNode)))
  | .link prev curr newNode =>
    some ((s.setNext prev newNode).goto t (.busy op (.unlockCurr prev curr (some true))))
  | .mark prev curr => some ((s.setMark curr).goto t (.busy op (.readNext prev curr)))
  | .readNext prev curr =>
    some (s.goto t (.busy op (.unlink prev curr (s.nodes.next curr))))
  | .unlink prev curr next =>
    some ((s.setNext prev next).goto t (.busy op (.unlockCurr prev curr (some true))))
  | .unlockCurr prev curr r =>
    some ((s.setLock curr none).goto t (.busy op (.unlockPrev prev r)))
  | .unlockPrev prev r =>
    some ((s.setLock prev none).goto t (.busy op (r.elim .start .ret)))
  | .ret _ => none

def begin (n : Nodes α) : SetOp ℤ → Loc α
  | .contains _ => .find n.head
  | .add _ | .remove _ => .start

def step (s : State α τ) : Label τ (SetOp ℤ) Bool α → Option (State α τ)
  | .call t op =>
    match s.thread t with
    | .idle => some (s.goto t (.busy op (begin s.nodes op)))
    | .busy _ _ => none
  | .ret t r =>
    match s.thread t with
    | .busy _ (.ret r') => if r = r' then some (s.goto t .idle) else none
    | _ => none
  | .step t p =>
    match s.thread t with
    | .idle => none
    | .busy op loc => locStep s t p op loc

def init (n : Nodes α) : State α τ := ⟨n, fun _ => false, fun _ => none, fun _ => .idle⟩

def InRange : Label τ (SetOp ℤ) Bool α → Prop
  | .call _ op => intMin < op.key ∧ op.key < intMax
  | _ => True

def Run : State α τ → List (Label τ (SetOp ℤ) Bool α) → State α τ → Prop :=
  Runs.Steps (Runs.Restrict (Runs.Next step) fun _ l => InRange l)

end

end SmcPim.LazyList
