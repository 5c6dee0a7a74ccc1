import SmcPim.Lib.Runs
import SmcPim.Machine

/-!
# Ideal accesses of the PIM crossbar

`recvTimingReq` and `respond` of `mem/pim_xbar.cc`. `respond` is cut in two at `sendTimingResp`: the
master that is sent the response may send its next request from inside. The path through the layers
does not touch the queues and is left out.
-/

namespace SmcPim.Crossbar

/-- A packet, told from the others by its address in the simulator. -/
structure Packet where
  ptr : ℕ
  addr : ℕ
  instFetch : Bool
  isRead : Bool
  needsResponse : Bool
  isResponse : Bool
  isExpressSnoop : Bool
  deriving DecidableEq, Repr

structure Xbar where
  idealInstrFetch : Bool
  idealSpmAccess : Bool
  spmMasterPort : ℤ
  findPort : ℕ → ℤ

def Xbar.idealFetch (x : Xbar) (pkt : Packet) : Bool := x.idealInstrFetch && pkt.instFetch

def Xbar.idealSpm (x : Xbar) (pkt : Packet) : Bool :=
  x.idealSpmAccess && x.findPort pkt.addr == x.spmMasterPort

def Xbar.ideal (x : Xbar) (pkt : Packet) : Bool := x.idealFetch pkt || !pkt.isExpressSnoop && x.idealSpm pkt

structure State (n : ℕ) where
  portList : List (Fin n)
  pktList : List Packet
  responseScheduled : Bool
  /-- `respondEvent.scheduled()`. -/
  scheduled : Bool
  /-- Inside `respond`, the port and the packet of `sendTimingResp`. -/
  sending : Option (Fin n × Packet)
  delivered : List (Fin n × ℕ)
  deriving DecidableEq, Repr

def State.init (n : ℕ) : State n where
  portList := []
  pktList := []
  responseScheduled := false
  scheduled := false
  sending := none
  delivered := []

variable {n : ℕ}

def State.waiting (s : State n) : List (Fin n × ℕ) := s.portList.zip (s.pktList.map (·.ptr))

/-! ## The two functions -/

/-- `schedule(respondEvent, …)`. It is never called with a time that has passed. -/
def schedule (s : State n) : Except Fault (State n) := do
  assert (s.scheduled = false) "!event->scheduled()"
  return { s with scheduled := true }

def State.push (s : State n) (port : Fin n) (pkt : Packet) : State n :=
  { s with portList := s.portList ++ [port], pktList := s.pktList ++ [pkt] }

def enqueue (s : State n) (port : Fin n) (pkt : Packet) : Except Fault (State n) :=
  if s.responseScheduled then .ok (s.push port pkt)
  else schedule { s.push port pkt with responseScheduled := true }

/-- `answer` is what `recvAtomic` makes of the packet. -/
def recvTimingReq (x : Xbar) (s : State n) (pkt answer : Packet) (slavePort : Fin n) :
    Except Fault (State n) :=
  if x.idealFetch pkt then do
    assert (pkt.isRead = true) "pkt->isRead()"
    enqueue s slavePort answer
  else if pkt.isExpressSnoop then .ok s
  else if x.idealSpm pkt then
    -- the packet is queued before `recvAtomic`, but the queue holds its address
    enqueue s slavePort answer
  else .ok s

/-- `respond` up to the call of `sendTimingResp`. -/
def respond (s : State n) : Except Fault (State n) := do
  assert (s.pktList.length ≠ 0) "pkt_list.size()"
  assert (s.responseScheduled = true) "response_scheduled"
  match s.portList, s.pktList with
  | port :: _, pkt :: _ =>
    assert (pkt.isResponse = true) "pkt->isResponse()"
    return { s with sending := some (port, pkt) }
  | _, _ => .error (.undefined "front()")

/-- The event queue takes the event out before it calls `respond`. -/
def serviceOne (s : State n) : Except Fault (State n) := respond { s with scheduled := false }

def reschedule (s : State n) : Except Fault (State n) :=
  if s.pktList.isEmpty then .ok { s with responseScheduled := false, sending := none }
  else do
    let s ← schedule s
    return { s with responseScheduled := true, sending := none }

/-- `respond` from the return of `sendTimingResp` on. -/
def responded (s : State n) (sent : Fin n × Packet) (success : Bool) : Except Fault (State n) :=
  if success then
    match s.portList, s.pktList with
    | _ :: ports, _ :: pkts =>
      reschedule { s with
        portList := ports, pktList := pkts, delivered := s.delivered ++ [(sent.1, sent.2.ptr)] }
    | _, _ => .error (.undefined "pop()")
  else reschedule s

/-! ## The system -/

inductive Act (n : ℕ)
  | request (port : Fin n) (pkt answer : Packet)
  | fire
  | returned (success : Bool)
  deriving DecidableEq, Repr

/-- What the rest of the system may do. The event fires when it is scheduled, not while `respond`
runs. -/
def Enabled (x : Xbar) (s : State n) : Act n → Prop
  | .request _ pkt answer =>
    (x.ideal pkt → pkt.needsResponse) ∧ (pkt.instFetch → pkt.isRead) ∧
      (pkt.needsResponse → answer.isResponse) ∧ answer.ptr = pkt.ptr
  | .fire => s.scheduled ∧ s.sending = none
  | .returned _ => s.sending.isSome

def step (x : Xbar) (s : State n) : Act n → Except Fault (State n)
  | .request port pkt answer => recvTimingReq x s pkt answer port
  | .fire => serviceOne s
  | .returned success =>
    match s.sending with
    | some sent => responded s sent success
    | none => .ok s

def Step (x : Xbar) (s : State n) (a : Act n) (t : State n) : Prop :=
  Enabled x s a ∧ step x s a = .ok t

def accepted (x : Xbar) (acts : List (Act n)) : List (Fin n × ℕ) :=
  acts.filterMap fun
    | .request port pkt _ => if x.ideal pkt then some (port, pkt.ptr) else none
    | _ => none

def taken (acts : List (Act n)) : ℕ := acts.count (.returned true)

end SmcPim.Crossbar
