import SmcPim.Lib.Atomic

/-!
# Flat combining

From `testProject/test/MyFCLinkedList.h` and `data_structures/ITest.h`. Each access to a slot, the
tail of the publication list, the lock or the time stamp is one step. The list of keys is touched
only with the lock: what one request does to it is one step of an object. `combined` tells
`combinedFCOP` from `singleFCOP`: the requests are collected first, sorted by their keys, and then
executed.
-/

namespace SmcPim.FlatCombining

/-- `SlotInfo`. A slot has the name of its thread. -/
structure Slot (τ Ω κ : Type) where
  reqAns : κ
  timeStamp : Int
  next : Option τ
  isSlotLinked : Bool
  isRequestValid : Bool
  returnVal : Bool
  op : Ω

inductive Op
  | contain
  | add
  | del
  deriving DecidableEq

def Op.toSetOp {κ : Type} (v : κ) : Op → SetOp κ
  | contain => .contains v
  | add => .add v
  | del => .remove v

def listObject (κ : Type) [DecidableEq κ] : Sequential (Finset κ) (Op × κ) Bool where
  after S r := (r.1.toSetOp r.2).after S
  answer S r := (r.1.toSetOp r.2).answer S

/-- The three places where a slot is enqueued again if it is not linked. -/
inductive Site
  | posted
  | locked
  | waiting

structure Walk (τ : Type) where
  stamp : Int
  prev : Option τ
  curr : Option τ
  requests : List τ

/-- What follows a request: the rest of the list, or the rest of the requests. -/
inductive Rest (τ : Type)
  | walk (w : Walk τ)
  | list (stamp : Int) (rest : List τ)

def Rest.stamp {τ : Type} : Rest τ → Int
  | walk w => w.stamp
  | list stamp _ => stamp

inductive Pass (τ Ω κ : Type)
  | readStamp
  | writeStamp (v : Int)
  | getStamp
  | getTail (stamp : Int)
  | visit (w : Walk τ)
  | readOp (w : Walk τ) (c : τ)
  | readReq (w : Walk τ) (c : τ) (op : Ω)
  | writeFalse (w : Walk τ) (c : τ) (op : Ω) (v : κ)
  | stale (w : Walk τ) (c : τ)
  | cutRead (w : Walk τ) (c : τ)
  | cutWrite (w : Walk τ) (c : τ) (d : Option τ)
  | cutFlag (w : Walk τ) (c : τ)
  | cutAdvance (w : Walk τ)
  | advance (w : Walk τ) (c : τ)
  | sort (w : Walk τ)
  | next (stamp : Int) (rest : List τ)
  | loadReq (stamp : Int) (rest : List τ) (c : τ)
  | loadOp (stamp : Int) (rest : List τ) (c : τ) (v : κ)
  | execute (k : Rest τ) (c : τ) (op : Ω) (v : κ)
  | writeTrue (k : Rest τ) (c : τ) (r : Bool)
  | stampSlot (k : Rest τ) (c : τ)
  | clearValid (k : Rest τ) (c : τ)

def Rest.next {τ Ω κ : Type} (c : τ) : Rest τ → Pass τ Ω κ
  | walk w => .advance w c
  | list stamp rest => .next stamp rest

inductive Pc (τ Ω κ : Type)
  | idle
  | writeOp (op : Ω) (v : κ)
  | writeReq (op : Ω) (v : κ)
  | setValid (op : Ω) (v : κ)
  | checkLinked (site : Site)
  | checkValid (site : Site)
  | enqFlag (site : Site)
  | enqReadStamp (site : Site)
  | enqStamp (site : Site) (v : Int)
  | enqTail (site : Site)
  | enqNext (site : Site) (tl : Option τ)
  | enqCas (site : Site) (tl : Option τ)
  /-- The lock is read `n + 1` more times, and then set. -/
  | lockRead (n : Nat)
  | lockCas
  | waitValid
  | waitLock
  | lastValid
  | pass (p : Pass τ Ω κ)
  | unlock
  | readRet
  | ret (r : Bool)

structure State (τ Ω κ σ : Type) where
  slot : τ → Slot τ Ω κ
  tail : Option τ
  lock : Bool
  timestamp : Int
  object : σ
  pc : τ → Pc τ Ω κ

def stampThreshold : Int := 25

section
variable {τ Ω κ σ : Type} [DecidableEq τ]

namespace State

variable (s : State τ Ω κ σ)

def goto (t : τ) (pc : Pc τ Ω κ) : State τ Ω κ σ := { s with pc := Function.update s.pc t pc }

def write (c : τ) (f : Slot τ Ω κ → Slot τ Ω κ) : State τ Ω κ σ :=
  { s with slot := Function.update s.slot c (f (s.slot c)) }

end State

def Site.next : Site → Pc τ Ω κ
  | .posted => .lockRead 2
  | .locked => .pass .readStamp
  | .waiting => .waitValid

variable [LinearOrder κ] (combined : Bool) (O : Sequential σ (Ω × κ) Bool)

/-- One step of a combiner `t`; `sorted` is the order that `std::sort` gives. -/
def passStep (s : State τ Ω κ σ) (t : τ) (sorted : List τ) : Pass τ Ω κ → Option (State τ Ω κ σ)
  | .readStamp => some (s.goto t (.pass (.writeStamp s.timestamp)))
  | .writeStamp v => some (State.goto { s with timestamp := v + 1 } t (.pass .getStamp))
  | .getStamp => some (s.goto t (.pass (.getTail s.timestamp)))
  | .getTail stamp => some (s.goto t (.pass (.visit ⟨stamp, s.tail, s.tail, []⟩)))
  | .visit w =>
    match w.curr with
    | none => some (s.goto t (if combined then .pass (.sort w) else .unlock))
    | some c =>
      if (s.slot c).isRequestValid then
        if combined then
          some (s.goto t (.pass (.advance { w with requests := w.requests ++ [c] } c)))
        else some (s.goto t (.pass (.readOp w c)))
      else some (s.goto t (.pass (.stale w c)))
  | .readOp w c => some (s.goto t (.pass (.readReq w c (s.slot c).op)))
  | .readReq w c op => some (s.goto t (.pass (.writeFalse w c op (s.slot c).reqAns)))
  | .writeFalse w c op v =>
    some ((s.write c fun x => { x with returnVal := false }).goto t (.pass (.execute (.walk w) c op v)))
  | .stale w c =>
    if w.curr ≠ w.prev ∧ stampThreshold < w.stamp - (s.slot c).timeStamp then
      some (s.goto t (.pass (.cutRead w c)))
    else some (s.goto t (.pass (.advance w c)))
  | .cutRead w c => some (s.goto t (.pass (.cutWrite w c (s.slot c).next)))
  | .cutWrite w c d =>
    match w.prev with
    | none => none
    | some p => some ((s.write p fun x => { x with next := d }).goto t (.pass (.cutFlag w c)))
  | .cutFlag w c =>
    some ((s.write c fun x => { x with isSlotLinked := false }).goto t (.pass (.cutAdvance w)))
  | .cutAdvance w =>
    match w.prev with
    | none => none
    | some p => some (s.goto t (.pass (.visit { w with curr := (s.slot p).next })))
  | .advance w c =>
    some (s.goto t (.pass (.visit { w with prev := some c, curr := (s.slot c).next })))
  | .sort w =>
    if sorted.Perm w.requests ∧ sorted.Pairwise (fun a b => (s.slot a).reqAns ≤ (s.slot b).reqAns) then
      some (s.goto t (.pass (.next w.stamp sorted)))
    else none
  | .next _ [] => some (s.goto t .unlock)
  | .next stamp (c :: rest) =>
    some ((s.write c fun x => { x with returnVal := false }).goto t (.pass (.loadReq stamp rest c)))
  | .loadReq stamp rest c => some (s.goto t (.pass (.loadOp stamp rest c (s.slot c).reqAns)))
  | .loadOp stamp rest c v => some (s.goto t (.pass (.execute (.list stamp rest) c (s.slot c).op v)))
  | .execute k c op v =>
    some (State.goto { s with object := O.after s.object (op, v) } t
      (.pass (.writeTrue k c (O.answer s.object (op, v)))))
  | .writeTrue k c r =>
    some ((if r then s.write c fun x => { x with returnVal := true } else s).goto t
      (.pass (.stampSlot k c)))
  | .stampSlot k c =>
    some ((s.write c fun x => { x with timeStamp := k.stamp }).goto t (.pass (.clearValid k c)))
  | .clearValid k c =>
    some ((s.write c fun x => { x with isRequestValid := false }).goto t (.pass (k.next c)))

def pcStep (s : State τ Ω κ σ) (t : τ) (sorted : List τ) : Pc τ Ω κ → Option (State τ Ω κ σ)
  | .idle => none
  | .writeOp op v => some ((s.write t fun x => { x with op := op }).goto t (.writeReq op v))
  | .writeReq op v => some ((s.write t fun x => { x with reqAns := v }).goto t (.setValid op v))
  | .setValid _ _ =>
    some ((s.write t fun x => { x with isRequestValid := true }).goto t (.checkLinked .posted))
  | .checkLinked site =>
    some (s.goto t (if (s.slot t).isSlotLinked then site.next else .checkValid site))
  | .checkValid site =>
    some (s.goto t (if (s.slot t).isRequestValid then .enqFlag site else site.next))
  | .enqFlag site =>
    some ((s.write t fun x => { x with isSlotLinked := true }).goto t (.enqReadStamp site))
  | .enqReadStamp site => some (s.goto t (.enqStamp site s.timestamp))
  | .enqStamp site v => some ((s.write t fun x => { x with timeStamp := v }).goto t (.enqTail site))
  | .enqTail site => some (s.goto t (.enqNext site s.tail))
  | .enqNext site tl => some ((s.write t fun x => { x with next := tl }).goto t (.enqCas site tl))
  | .enqCas site tl =>
    if s.tail = tl then some (State.goto { s with tail := some t } t site.next)
    else some (s.goto t (.enqTail site))
  | .lockRead n =>
    some (s.goto t (if s.lock then .waitValid else match n with
      | 0 => .lockCas
      | n + 1 => .lockRead n))
  | .lockCas =>
    if s.lock then some (s.goto t .waitValid)
    else some (State.goto { s with lock := true } t (.checkLinked .locked))
  | .waitValid => some (s.goto t (if (s.slot t).isRequestValid then .waitLock else .lastValid))
  | .waitLock => some (s.goto t (if s.lock then .checkLinked .waiting else .lastValid))
  | .lastValid => some (s.goto t (if (s.slot t).isRequestValid then .lockRead 2 else .readRet))
  | .pass p => passStep combined O s t sorted p
  | .unlock => some (State.goto { s with lock := false } t .readRet)
  | .readRet => some (s.goto t (.ret (s.slot t).returnVal))
  | .ret _ => none

def step (s : State τ Ω κ σ) : Label τ (Ω × κ) Bool (List τ) → Option (State τ Ω κ σ)
  | .call t (op, v) =>
    match s.pc t with
    | .idle => some (s.goto t (.writeOp op v))
    | _ => none
  | .ret t r =>
    match s.pc t with
    | .ret r' => if r = r' then some (s.goto t .idle) else none
    | _ => none
  | .step t sorted => pcStep combined O s t sorted (s.pc t)

def init (slot : τ → Slot τ Ω κ) (object : σ) : State τ Ω κ σ where
  slot t := { slot t with isSlotLinked := false, isRequestValid := false }
  tail := none
  lock := false
  timestamp := 0
  object := object
  pc _ := .idle

end

end SmcPim.FlatCombining
