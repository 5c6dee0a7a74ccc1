import SmcPim.Tlb.Accesses

/-!
# The DMA engine of the PIM

From `dev/ethz_dma.cc`, `dev/ethz_dma.hh`, `dev/dma_device.cc` and `base/chunk_generator.hh`, in
timing mode. A packet is in flight from `dmaAction` to its response. Interrupts and debug output are
left out.
-/

namespace SmcPim

/-- A pending request. `id` stands for the pointer to it; nothing reads `id` and `ended`. -/
structure DMARequest where
  id : Nat
  vregPtr : Nat
  memVstart : Nat
  memVend : Nat
  dmaResource : BitVec 8
  rw : Bool
  /-- `mem_pstart` and `mem_pend`, which are pushed together. -/
  memP : List (Nat × Nat)
  bytesExpected : Nat
  bytesCompleted : Nat
  issued : Bool
  ended : Bool
  deriving DecidableEq, Repr

def DMARequest.new (id vreg start numBytes : Nat) (dir : Bool) (dmaRes : BitVec 8) : DMARequest :=
  { id := id
    vregPtr := vreg
    memVstart := addr64 start
    memVend := sub64 (addr64 (addr64 start + addr64 numBytes)) 1
    dmaResource := dmaRes
    rw := dir
    memP := []
    bytesExpected := addr64 numBytes
    bytesCompleted := 0
    issued := false
    ended := false }

def DMARequest.nextSubRequest (r : DMARequest) (vaddr : Nat) : Except Fault (DMARequest × Bool) := do
  assert (r.memVstart ≤ vaddr) "vaddr>= mem_vstart"
  if r.memVend ≤ vaddr then .ok ({ r with ended := true }, false)
  else
    let diff := vaddr - r.memVstart
    .ok ({ r with memVstart := r.memVstart + diff, vregPtr := r.vregPtr + diff }, true)

inductive DmaState
  | idle | tlbRefill | transfer
  deriving DecidableEq, Repr

structure Dma where
  requests : List DMARequest
  currentIndex : Option Nat
  currentState : DmaState
  nextStateScheduled : Bool
  dmaResources : BitVec 8
  /-- The number of completion events that are free. -/
  dmaDoneEventFree : Nat
  deriving DecidableEq, Repr

def Dma.maxOutstandingDma : Nat := 16

/-! ## The port -/

structure DmaReqState where
  totBytes : Nat
  numBytes : Nat
  deriving DecidableEq, Repr

structure DmaPacket where
  addr : Nat
  size : Nat
  data : Nat
  /-- The `DmaReqState` it was sent with. -/
  action : Nat
  /-- The request whose sub-transfer it is part of. Nothing reads it. -/
  owner : Nat
  deriving DecidableEq, Repr

structure SubTransfer where
  owner : Nat
  vstart : Nat
  vend : Nat
  pstart : Nat
  size : Nat
  vregPtr : Nat
  deriving DecidableEq, Repr

/-- The chunks of `ChunkGenerator`: no packet crosses a cache line. -/
def chunks (cacheLineSize : Nat) : Nat → Nat → Nat → List (Nat × Nat)
  | 0, _, _ => []
  | fuel + 1, addr, size =>
    if size = 0 then []
    else
      let cur := if cacheLineSize = 0 then size else min size (cacheLineSize - addr % cacheLineSize)
      (addr, cur) :: chunks cacheLineSize fuel (addr64 (addr + cur)) (size - cur)

/-- The parameter `int size` of `dmaAction`, as the `unsigned` of `ChunkGenerator`. -/
def uint32 (n : Nat) : Nat := n % 2 ^ 32

/-- The same `int`, as the `Addr` of `DmaReqState`. -/
def intToAddr (n : Nat) : Nat :=
  if uint32 n < 2 ^ 31 then uint32 n else uint32 n + 2 ^ 64 - 2 ^ 32

/-! ## The engine with its TLB and the memory -/

structure DmaParams where
  tlb : Tlb.Params
  cacheLineSize : Nat
  deriving DecidableEq, Repr

structure DmaSys where
  front : Tlb.Front
  dma : Dma
  /-- The status byte in the memory of the PIM. -/
  dmaStatus : BitVec 8
  inFlight : List DmaPacket
  actions : List DmaReqState
  doneEvents : Nat
  nextId : Nat
  /-- The request that was selected last in IDLE. -/
  selected : Option Nat
  transfers : List SubTransfer

namespace DmaSys

def updateStatusRegister (s : DmaSys) : DmaSys := { s with dmaStatus := s.dma.dmaResources }

def setRequest (s : DmaSys) (i : Nat) (r : DMARequest) : DmaSys :=
  { s with dma := { s.dma with requests := s.dma.requests.set i r } }

def setState (s : DmaSys) (st : DmaState) : DmaSys :=
  { s with dma := { s.dma with currentState := st, nextStateScheduled := true } }

def curr (s : DmaSys) (null : Fault) : Except Fault (Nat × DMARequest) :=
  match s.dma.currentIndex with
  | none => .error null
  | some i =>
    match s.dma.requests[i]? with
    | none => .error (.undefined "requests[current_index]")
    | some r => .ok (i, r)

def stateIdle (s : DmaSys) : DmaSys :=
  match s.dma.requests.findIdx? (fun r => !r.issued) with
  | none => { s with dma := { s.dma with currentIndex := none, nextStateScheduled := true } }
  | some i =>
    { s with
      dma := { s.dma with
        currentIndex := some i, currentState := .tlbRefill, nextStateScheduled := true }
      selected := s.dma.requests[i]?.map DMARequest.id }

def stateTlbRefill (p : DmaParams) (mem : Memory) (now : Nat) (s : DmaSys) :
    Except Fault DmaSys := do
  let (i, r) ← s.curr (.assertion "curr")
  let s := s.setRequest i { r with issued := true }
  if r.memVstart < r.memVend then
    if s.front.tlb.remapCheck r.memVstart = noAddr then
      let t ← s.front.tlb.refillTLBFunctional p.tlb mem now r.memVstart
      .ok ({ s with front := { s.front with tlb := t } }.setState .transfer)
    else .ok (s.setState .transfer)
  else .ok (s.setState .idle)

def actionPackets (p : DmaParams) (pstart size vregPtr action owner : Nat) : List DmaPacket :=
  (chunks p.cacheLineSize (uint32 size) pstart (uint32 size)).map fun c =>
    { addr := c.1, size := c.2, data := vregPtr + (c.1 - pstart), action := action, owner := owner }

def dmaAction (p : DmaParams) (s : DmaSys) (r : DMARequest) (pstart size : Nat) : DmaSys :=
  { s with
    inFlight := s.inFlight ++ actionPackets p pstart size r.vregPtr s.actions.length r.id
    actions := s.actions ++ [⟨intToAddr size, 0⟩] }

/-- Takes a completion event and sends the sub-transfer from `memVstart` to `vend`. -/
def issue (p : DmaParams) (s : DmaSys) (r : DMARequest) (vend pstart size : Nat) : DmaSys :=
  let s := s.dmaAction p r pstart size
  { s with
    dma := { s.dma with dmaDoneEventFree := s.dma.dmaDoneEventFree - 1 }
    transfers := s.transfers ++
      [{ owner := r.id, vstart := r.memVstart, vend := vend, pstart := pstart
         size := uint32 size, vregPtr := r.vregPtr }] }

def stateTransfer (p : DmaParams) (s : DmaSys) : Except Fault DmaSys := do
  let (i, r) ← s.curr (.undefined "curr->mem_vstart")
  let pstart := s.front.tlb.remapCheck r.memVstart
  let sliceEnd ← s.front.tlb.sliceVend r.memVstart
  let vend := min sliceEnd r.memVend
  let pend := s.front.tlb.remapCheck vend
  assert (sub64 pend pstart = sub64 vend r.memVstart) "pend-pstart == vend - curr->mem_vstart"
  assert (s.dma.dmaDoneEventFree ≠ 0) "!dmaDoneEventFree.empty()"
  let s := s.issue p r vend pstart (addr64 (sub64 pend pstart + 1))
  let (r', more) ← { r with memP := r.memP ++ [(pstart, pend)] }.nextSubRequest (addr64 (vend + 1))
  .ok ((s.setRequest i r').setState (if more then .tlbRefill else .idle))

def nextState (p : DmaParams) (mem : Memory) (now : Nat) (s : DmaSys) : Except Fault DmaSys :=
  if s.dma.requests = [] then
    .ok { s with dma := { s.dma with
      currentState := .idle, currentIndex := none, nextStateScheduled := false } }
  else
    match s.dma.currentState with
    | .idle => .ok s.stateIdle
    | .tlbRefill => s.stateTlbRefill p mem now
    | .transfer => s.stateTransfer p

def initiate (dir : Bool) (busy : String) (p : DmaParams) (mem : Memory) (now : Nat) (s : DmaSys)
    (vregPtr dmaMemVaddr dmaNumBytes : Nat) (dmaResource : BitVec 8) : Except Fault DmaSys := do
  assert (dmaResource ≠ 0) "dma_resource"
  if s.dma.dmaResources &&& dmaResource ≠ 0 then .error (.panic busy)
  else
    let r := DMARequest.new s.nextId vregPtr dmaMemVaddr dmaNumBytes dir dmaResource
    let s := { s with
      dma := { s.dma with
        dmaResources := s.dma.dmaResources ||| dmaResource
        requests := r :: s.dma.requests }
      nextId := s.nextId + 1 }
    let s := s.updateStatusRegister
    if s.dma.nextStateScheduled then .ok s else s.nextState p mem now

def initiateRead : DmaParams → Memory → Nat → DmaSys → Nat → Nat → Nat → BitVec 8 →
    Except Fault DmaSys :=
  initiate true "[PIM-DMA] READ: DMA resource is already busy!"

def initiateWrite : DmaParams → Memory → Nat → DmaSys → Nat → Nat → Nat → BitVec 8 →
    Except Fault DmaSys :=
  initiate false "[PIM-DMA] WRITE: DMA resource is already busy!"

/-! ## Responses -/

def hits (r : DMARequest) (addr : Nat) : Nat :=
  r.memP.countP fun x => decide (x.1 ≤ addr ∧ addr ≤ x.2)

/-- The two loops of `handle_packet`: the index of the request, once for each range that contains
the address. -/
def matchings (addr : Nat) : Nat → List DMARequest → List Nat
  | _, [] => []
  | i, r :: rs => List.replicate (hits r addr) i ++ matchings addr (i + 1) rs

def findRequest (s : DmaSys) (addr : Nat) : Except Fault Nat :=
  match matchings addr 0 s.dma.requests with
  | [] => .error (.assertion "curr")
  | [i] => .ok i
  | _ => .error
      (.panic "One response belongs to two different requets. (Overlap between ranges)")

def handlePacket (s : DmaSys) (addr size : Nat) : Except Fault DmaSys := do
  let i ← s.findRequest addr
  match s.dma.requests[i]? with
  | none => .error (.undefined "requests[delete_index]")
  | some r =>
    let r' := { r with bytesCompleted := addr64 (r.bytesCompleted + size) }
    assert (r'.bytesCompleted ≤ r.bytesExpected) "curr->bytes_completed <= curr->bytes_expected"
    if r'.bytesCompleted = r.bytesExpected then
      assert (s.dma.dmaResources &&& r.dmaResource ≠ 0) "dma_resources & curr->dma_resource"
      let s := { s with dma := { s.dma with
        dmaResources := s.dma.dmaResources &&& ~~~ r.dmaResource } }
      let s := s.updateStatusRegister
      assert (s.dma.dmaResources &&& r.dmaResource = 0)
        "(dma_resources & curr->dma_resource) == 0"
      .ok { s with dma := { s.dma with requests := s.dma.requests.eraseIdx i } }
    else .ok (s.setRequest i r')

/-- `handleResp` for the packet `pkt`, which has left the list of packets in flight. -/
def handleResp (s : DmaSys) (pkt : DmaPacket) : Except Fault DmaSys := do
  match s.actions[pkt.action]? with
  | none => .error (.assertion "state")
  | some a =>
    let a' := { a with numBytes := a.numBytes + pkt.size }
    assert (a'.numBytes ≤ a.totBytes) "state->totBytes >= state->numBytes"
    { s with
      actions := s.actions.set pkt.action a'
      doneEvents := if a'.numBytes = a.totBytes then s.doneEvents + 1 else s.doneEvents
    }.handlePacket pkt.addr pkt.size

/-- A new request, `nextState`, the response to the `k`-th packet, a completion event, an access to
the TLB. -/
inductive Event
  | initiateRead (vregPtr vaddr numBytes : Nat) (resource : BitVec 8)
  | initiateWrite (vregPtr vaddr numBytes : Nat) (resource : BitVec 8)
  | nextState
  | response (k : Nat)
  | done
  | cpu (a : Tlb.Access)

/-- One event at a tick. An event that is not due does nothing. -/
def step (p : DmaParams) (mem : Memory) (s : DmaSys) : Nat × Event → Except Fault DmaSys
  | (now, .initiateRead vreg vaddr n res) => s.initiateRead p mem now vreg vaddr n res
  | (now, .initiateWrite vreg vaddr n res) => s.initiateWrite p mem now vreg vaddr n res
  | (now, .nextState) => if s.dma.nextStateScheduled then s.nextState p mem now else .ok s
  | (_, .response k) =>
    match s.inFlight[k]? with
    | none => .ok s
    | some pkt => { s with inFlight := s.inFlight.eraseIdx k }.handleResp pkt
  | (_, .done) =>
    if s.doneEvents = 0 then .ok s
    else
      .ok { s with
        doneEvents := s.doneEvents - 1
        dma := { s.dma with dmaDoneEventFree := s.dma.dmaDoneEventFree + 1 } }
  | (now, .cpu a) => do
    let f ← s.front.step p.tlb mem (now, a)
    .ok { s with front := f }

def init (f : Tlb.Front) : DmaSys :=
  { front := f
    dma :=
      { requests := [], currentIndex := none, currentState := .idle, nextStateScheduled := false
        dmaResources := 0, dmaDoneEventFree := Dma.maxOutstandingDma }
    dmaStatus := 0
    inFlight := []
    actions := []
    doneEvents := 0
    nextId := 0
    selected := none
    transfers := [] }

end DmaSys

end SmcPim
