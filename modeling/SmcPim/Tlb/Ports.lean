import SmcPim.Tlb.Model

/-!
# Packets through the TLB

The port functions of `mem/ethz_tlb.cc`. A call of `recvTimingReq` makes at most one send to the
memory side, and `accept` is its answer.
-/

namespace SmcPim

inductive HmcCommand
  | nop | inc | fadd | min
  deriving DecidableEq, Repr

/-- What a hop pushes on a packet to find its way back. -/
inductive SenderState
  | addrMapper (origAddr : Nat)
  | other
  deriving DecidableEq, Repr

structure Packet where
  addr : Nat
  size : Nat
  isWrite : Bool
  needsResponse : Bool
  memInhibitAsserted : Bool
  data : Nat
  isRemapped : Bool
  atomicHmcCommand : HmcCommand
  atomicHmcOperand : Nat
  senderState : List SenderState
  deriving DecidableEq, Repr

def Packet.remappedTo (pkt : Packet) (addr : Nat) : Packet :=
  { pkt with addr := addr, isRemapped := true }

/-- The three atomic commands. An address of 0 is ignored, and the function then returns at once. -/
def Tlb.atomicCommand (p : Tlb.Params) (cmd : HmcCommand) (operand : Option Nat) (pkt : Packet) :
    Except Fault (Option (Nat × Packet)) := do
  assert (pkt.size = p.pimArch.bits / 8) "pkt->getSize() == pim_arch/8"
  assert (p.pimArch.ulong pkt.data ≠ noAddr) "remapped_addr!=(Addr)-1"
  if p.pimArch.ulong pkt.data = 0 then .ok none
  else
    .ok (some (p.pimArch.ulong pkt.data,
      { pkt with
        atomicHmcCommand := cmd
        atomicHmcOperand := operand.getD pkt.atomicHmcOperand }))

def Tlb.hmcTarget (p : Tlb.Params) (t : Tlb) (pkt : Packet) :
    Except Fault (Option (Nat × Packet)) :=
  if pkt.addr = p.hmcAtomicIncr ∧ pkt.isWrite then Tlb.atomicCommand p .inc none pkt
  else if pkt.addr = p.hmcAtomicFadd ∧ pkt.isWrite then
    Tlb.atomicCommand p .fadd (some t.hmcOperand) pkt
  else if pkt.addr = p.hmcAtomicImin ∧ pkt.isWrite then
    Tlb.atomicCommand p .min (some t.hmcOperand) pkt
  else .ok (some (0, pkt))

/-- The target of an atomic command, or 0, with the packet and the TLB as they are left. -/
def Tlb.checkHmcCommand (p : Tlb.Params) (t : Tlb) (pkt : Packet) :
    Except Fault (Nat × Packet × Tlb) :=
  if pkt.addr = 0 then .ok (0, pkt, t)
  else do
    match ← t.hmcTarget p pkt with
    | none => .ok (0, pkt, t)
    | some (target, pkt') =>
      if pkt.addr = p.hmcOperand ∧ pkt.isWrite then
        .ok (target, pkt', { t with hmcOperand := pkt.data % 2 ^ 32 })
      else .ok (target, pkt', t)

/-! ## Atomic accesses -/

def Tlb.isRefillRegister (p : Tlb.Params) (pkt : Packet) : Prop :=
  p.pimDtlbIdealRefillReg ≠ 0 ∧ pkt.addr = p.pimDtlbIdealRefillReg

instance (p : Tlb.Params) (pkt : Packet) : Decidable (Tlb.isRefillRegister p pkt) :=
  inferInstanceAs (Decidable (_ ∧ _))

/-- A request from software for refilling the TLB with the rule of `a`. -/
def Tlb.refillFor (p : Tlb.Params) (mem : Memory) (now : Nat) (t : Tlb) (a : Nat) :
    Except Fault Tlb :=
  if a ≠ 0 ∧ t.remapCheck a = noAddr then t.refillTLBFunctional p mem now a else .ok t

/-- The packet that goes to the memory, if one does. The address of the packet is restored
afterwards. -/
def Tlb.recvAtomic (p : Tlb.Params) (mem : Memory) (now : Nat) (t : Tlb) (pkt : Packet) :
    Except Fault (Tlb × Option Packet) := do
  let origAddr := pkt.addr
  if Tlb.isRefillRegister p pkt then
    assert (pkt.size = p.pimArch.bits / 8) "pkt->getSize() == pim_arch/8"
    assert pkt.isWrite "pkt->isWrite()"
    let t ← t.refillFor p mem now (p.pimArch.ulong pkt.data)
    .ok (t, none)
  else
    let (target, pkt, t) ← t.checkHmcCommand p pkt
    let (remappedAddr, t) ← t.remap now (if target = 0 then origAddr else target)
    if remappedAddr = noAddr then
      let t ← t.refillTLBAtomic p mem now origAddr
      let (remappedAddr, t) ← t.remap now origAddr
      if remappedAddr = noAddr then
        .error (.panic "TLB refill was not successful! (ethz_TLB::recvAtomic)")
      else .ok (t, some { pkt with addr := remappedAddr })
    else .ok (t, some { pkt with addr := remappedAddr })

/-! ## Timing accesses -/

structure TimingReq where
  tlb : Tlb
  /-- The packet as its sender has it afterwards. -/
  pkt : Packet
  successful : Bool
  /-- The packet as it was offered to the memory. -/
  offered : Option Packet
  /-- The address of a refill request that the memory took. -/
  refill : Option Nat
  deriving DecidableEq, Repr

/-- The end of `recvTimingReq`: push the sender state, send, and pop it after a refusal. -/
def Tlb.sendTimingReq (t : Tlb) (pkt : Packet) (origAddr : Nat) (accept : Bool) : TimingReq :=
  let sent :=
    if pkt.needsResponse ∧ ¬ pkt.memInhibitAsserted then
      { pkt with senderState := .addrMapper origAddr :: pkt.senderState }
    else pkt
  let after :=
    if ¬ accept ∧ pkt.needsResponse then { sent with senderState := sent.senderState.tail }
    else sent
  { tlb := t, pkt := after, successful := accept, offered := some sent, refill := none }

def Tlb.recvTimingReq (p : Tlb.Params) (mem : Memory) (now : Nat) (t : Tlb) (pkt : Packet)
    (accept : Bool) : Except Fault TimingReq := do
  let origAddr := pkt.addr
  if Tlb.isRefillRegister p pkt then
    assert pkt.isWrite "pkt->isWrite()"
    assert (pkt.size = p.pimArch.bits / 8) "pkt->getSize() == pim_arch/8"
    if ¬ pkt.needsResponse then .error (.panic "Only WRITE should happen to this register")
    else
      let t ← t.refillFor p mem now (p.pimArch.ulong pkt.data)
      .ok { tlb := t, pkt := pkt, successful := true, offered := none, refill := none }
  else if pkt.isRemapped then .ok (t.sendTimingReq pkt origAddr accept)
  else
    let (target, pkt, t) ← t.checkHmcCommand p pkt
    let origAddr := if target ≠ 0 then target else origAddr
    let (remappedAddr, t) ← t.remap now origAddr
    if remappedAddr = noAddr then
      if p.idealRefill then
        let t ← t.refillTLBFunctional p mem now origAddr
        let (remappedAddr, t) ← t.remap now origAddr
        assert (remappedAddr ≠ noAddr) "remapped_addr != (Addr)-1"
        .ok (t.sendTimingReq (pkt.remappedTo remappedAddr) origAddr accept)
      else
        let (t, refill) ← t.refillTLBTiming p origAddr accept
        .ok { tlb := t, pkt := pkt, successful := false, offered := none, refill := refill }
    else
      .ok (t.sendTimingReq (pkt.remappedTo remappedAddr) origAddr accept)

/-- The other branch of `recvTimingResp`: the response to a packet that went through. -/
def Tlb.restore (pkt : Packet) : Option Packet :=
  match pkt.senderState with
  | .addrMapper origAddr :: predecessor =>
    some { pkt with senderState := predecessor, addr := origAddr }
  | _ => none

end SmcPim
