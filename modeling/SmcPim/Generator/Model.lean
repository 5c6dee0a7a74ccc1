import SmcPim.FineList.Model
import SmcPim.Lib.Merge

/-!
# The generator of the logs

From `host_generator_pthread.cpp` and `CoarseLinkedList.h` in `All_Summer2017/Jack`. Each access to
a shared variable, a `next` pointer or the data of a node is one step, and so are `new` and
`delete`. The main thread is `none`.
-/

namespace SmcPim.Generator

open FineList (Ends Heap)

/-- What the user enters. Keys are positive and below the data of the tail. -/
structure Config where
  leftBound : ℕ
  rightBound : ℕ
  initRange : ℕ
  initialSize : ℤ
  maxSize : ℤ
  containPercent : ℕ
  totalOps : ℤ
  left_pos : 1 ≤ leftBound
  left_le : leftBound ≤ rightBound
  right_lt : rightBound < 2 ^ 32 - 1

/-- Where a thread is in a function of the list. In `contains` there is no `pred`. -/
inductive Loc (α : Type)
  | lock
  | first
  | test (pred curr : α)
  | advance (curr : α)
  | create (pred curr : α)
  | setNext (pred curr node1 : α)
  | link (pred curr node1 : α)
  | readNext (pred curr : α)
  | unlink (pred curr succ : α)
  | delete (curr : α)
  | unlock (r : Bool)

inductive Pc (α : Type)
  | test
  | count
  | draw
  | room (key : ℕ)
  | busy (op : SetOp ℕ) (loc : Loc α)
  | report (op : SetOp ℕ) (r : Bool)
  | resize (op : SetOp ℕ) (r : Bool)
  | done

def Pc.isDone {α : Type} : Pc α → Bool
  | done => true
  | _ => false

structure State (α τ : Type) where
  heap : Heap α ℕ (Option τ)
  opCount : ℤ
  size : ℤ
  pc : Option τ → Pc α
  log : Option τ → List (Entry ℕ)

/-- A step of a thread, with what `rand` gives it and where `new` puts a node, if it calls them. -/
structure Act (α τ : Type) where
  who : Option τ
  randKey : ℕ
  randTemp : ℕ
  node : α

section
variable {α τ : Type} [DecidableEq α] [DecidableEq τ] (cfg : Config) (E : Ends α)

/-- The condition of the loop and the comparisons in its body, up to the next access to a pointer. -/
def branch (h : Heap α ℕ (Option τ)) (pred curr : α) : SetOp ℕ → Loc α
  | .contains x =>
    if curr = E.tail then .unlock false
    else if x < h.data curr then .unlock false
    else if h.data curr = x then .unlock true
    else .advance curr
  | .add x =>
    if curr = E.tail then .create pred curr
    else if x < h.data curr then .create pred curr
    else if h.data curr = x then .unlock false
    else .advance curr
  | .remove x =>
    if curr = E.tail then .unlock false
    else if x < h.data curr then .unlock false
    else if x = h.data curr then .readNext pred curr
    else .advance curr

def listStep (h : Heap α ℕ (Option τ)) (who : Option τ) (n : α) (op : SetOp ℕ) :
    Loc α → Option (Heap α ℕ (Option τ) × Pc α)
  | .lock =>
    if h.lock E.head = none then
      some ({ h with lock := Function.update h.lock E.head (some who) }, .busy op .first)
    else none
  | .first => some (h, .busy op (.test E.head (h.next E.head)))
  | .test pred curr => some (h, .busy op (branch E h pred curr op))
  | .advance curr => some (h, .busy op (.test curr (h.next curr)))
  | .create pred curr =>
    if n ∈ h.live then none
    else some ({ h with data := Function.update h.data n op.key, live := insert n h.live }, .busy op (.setNext pred curr n))
  | .setNext pred curr node1 =>
    some ({ h with next := Function.update h.next node1 curr }, .busy op (.link pred curr node1))
  | .link pred _ node1 => some ({ h with next := Function.update h.next pred node1 }, .busy op (.unlock true))
  | .readNext pred curr => some (h, .busy op (.unlink pred curr (h.next curr)))
  | .unlink pred curr succ => some ({ h with next := Function.update h.next pred succ }, .busy op (.delete curr))
  | .delete curr => some ({ h with live := h.live.erase curr }, .busy op (.unlock true))
  | .unlock r => some ({ h with lock := Function.update h.lock E.head none }, .report op r)

/-! ## The threads -/

def chosen (a : Act α τ) : Pc α :=
  match a.who with
  | none => .busy (.add (a.randKey % cfg.initRange + cfg.leftBound)) .lock
  | some _ =>
    let keyValue := a.randKey % (cfg.rightBound - cfg.leftBound + 1) + cfg.leftBound
    let randTemp := a.randTemp % 100 + 1
    if randTemp ≤ cfg.containPercent then .busy (.contains keyValue) .lock
    else if cfg.containPercent + (100 - cfg.containPercent) / 2 < randTemp then .busy (.remove keyValue) .lock
    else .room keyValue

def resized (size : ℤ) : SetOp ℕ → Bool → ℤ
  | .add _, true => size + 1
  | .remove _, true => size - 1
  | _, _ => size

def State.goto (s : State α τ) (who : Option τ) (p : Pc α) : State α τ := { s with pc := Function.update s.pc who p }

def step (s : State α τ) (a : Act α τ) : Option (State α τ) :=
  -- The threads are created when the list has its initial size.
  if a.who.isSome && !(s.pc none).isDone then none
  else
    match s.pc a.who with
    | .test =>
      match a.who with
      | none => some (s.goto none (if s.size < cfg.initialSize then .draw else .done))
      | some t => some (s.goto (some t) (if s.opCount < cfg.totalOps then .count else .done))
    | .count => some { s.goto a.who .draw with opCount := s.opCount + 1 }
    | .draw => some (s.goto a.who (chosen cfg a))
    | .room key => some (s.goto a.who (.busy (if s.size < cfg.maxSize then .add key else .remove key) .lock))
    | .busy op loc => (listStep E s.heap a.who a.node op loc).map fun x => { s.goto a.who x.2 with heap := x.1 }
    | .report op r => some { s.goto a.who (.resize op r) with log := Function.update s.log a.who (s.log a.who ++ [⟨op, r⟩]) }
    | .resize op r => some { s.goto a.who .test with size := resized s.size op r }
    | .done => none

/-- Before `main`, with any contents of the memory outside the two nodes of the list. -/
def init (data : α → ℕ) (next : α → α) : State α τ where
  heap :=
    { data, next := Function.update next E.head E.tail
      lock := fun _ => none, live := {E.head, E.tail} }
  opCount := 0
  size := 0
  pc := fun _ => .test
  log := fun _ => []

end

end SmcPim.Generator
