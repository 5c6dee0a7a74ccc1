import SmcPim.Lib.Bytes
import SmcPim.Tlb.Accesses

/-!
# HMC atomic commands

`AbstractMemory::access` of `mem/abstract_mem.cc`, and a processor that writes the HMC registers
through the TLB of `mem/ethz_tlb.cc`, one command after the other.
-/

namespace SmcPim.Hmc

open Bytes (load store)

/-! ## The memory -/

/-- The sum of two floats, given and returned by their bits. -/
def addFloat (x y : ℕ) : ℕ := (Float32.ofBits (.ofNat x) + Float32.ofBits (.ofNat y)).toBits.toNat

/-- A write that carries an HMC command updates the word where it is. -/
def atomicAccess (m : ℕ → UInt8) (pkt : Packet) : Except Fault (ℕ → UInt8) :=
  let word := load pkt.size m pkt.addr
  match pkt.atomicHmcCommand with
  | .nop => .ok (store pkt.size m pkt.addr pkt.data)
  | .inc =>
    if pkt.size = 4 then .ok (store 4 m pkt.addr ((word + 1) % 2 ^ 32))
    else if pkt.size = 8 then .ok (store 8 m pkt.addr ((word + 1) % 2 ^ 64))
    else .error (.panic "Unsupported size for atomic increment")
  | .fadd => .ok (store 4 m pkt.addr (addFloat (load 4 m pkt.addr) pkt.atomicHmcOperand))
  | .min =>
    if pkt.size = 4 then
      let n := pkt.atomicHmcOperand % 2 ^ 32
      if n < word then .ok (store 4 m pkt.addr n) else .ok m
    else if pkt.size = 8 then .error (.panic "not implemented yet!")
    else .error (.panic "Unsupported size for atomic increment")

def access (range : AddrRange) (m : ℕ → UInt8) (pkt : Packet) : Except Fault (ℕ → UInt8) := do
  assert (range.start ≤ pkt.addr ∧ addr64 (pkt.addr + pkt.size - 1) ≤ range.last)
    "AddrRange(pkt->getAddr(), pkt->getAddr() + pkt->getSize() - 1).isSubset(range)"
  if pkt.memInhibitAsserted then .ok m
  else if pkt.isWrite then atomicAccess m pkt
  else .ok m

/-- The crossbar gives the packet to the memory that its address belongs to. -/
def deliver (ranges : List AddrRange) (m : ℕ → UInt8) (pkt : Packet) :
    Except Fault (ℕ → UInt8) :=
  match ranges.find? (·.contains pkt.addr) with
  | some range => access range m pkt
  | none => .error (.panic "Unable to find destination for addr")

/-! ## The processor -/

/-- Writes to `HMC_OPERAND`, `HMC_ATOMIC_INCR` and `HMC_ATOMIC_IMIN` by the 32-bit PIM. -/
inductive Command
  | operand (value : UInt32)
  | incr (target : UInt32)
  | imin (target : UInt32)
  deriving DecidableEq

def Command.register (p : Tlb.Params) : Command → ℕ
  | .operand _ => p.hmcOperand
  | .incr _ => p.hmcAtomicIncr
  | .imin _ => p.hmcAtomicImin

def Command.data : Command → ℕ
  | .operand value => value.toNat
  | .incr target => target.toNat
  | .imin target => target.toNat

def Command.packet (p : Tlb.Params) (c : Command) : Packet :=
  { addr := c.register p
    size := 4
    isWrite := true
    needsResponse := true
    memInhibitAsserted := false
    data := c.data
    isRemapped := false
    atomicHmcCommand := .nop
    atomicHmcOperand := 0
    senderState := [] }

structure System where
  tlb : Tlb
  /-- The refill requests in flight. -/
  refills : List ℕ
  mem : ℕ → UInt8
  todo : List Command
  /-- The packet of the first command, once it has been refused. -/
  held : Option Packet
  /-- The packet that is on its way to the memory. -/
  taken : Option Packet

def System.boot (tlb : Tlb) (refills : List ℕ) (mem : ℕ → UInt8) (todo : List Command) : System :=
  { tlb, refills, mem, todo, held := none, taken := none }

/-- The processor sends its packet, the memory serves one, or answers the `i`-th refill request. -/
inductive Event
  | attempt (now : ℕ) (accept : Bool)
  | serve
  | refillResp (now i : ℕ)

section
variable (p : Tlb.Params) (ranges : List AddrRange)

def words (m : ℕ → UInt8) : Memory := load p.pimArch.bytes m

def System.attempt (s : System) (now : ℕ) (accept : Bool) : Except Fault System :=
  match s.todo, s.taken with
  | c :: rest, none => do
    let r ← s.tlb.recvTimingReq p (words p s.mem) now (s.held.getD (c.packet p)) accept
    let s := { s with tlb := r.tlb, refills := s.refills ++ r.refill.toList }
    if r.successful then
      match r.offered with
      | some pkt => .ok { s with held := none, taken := some pkt }
      -- The TLB has answered the packet itself.
      | none => .ok { s with held := none, todo := rest }
    else .ok { s with held := some r.pkt }
  | _, _ => .ok s

def System.serve (s : System) : Except Fault System :=
  match s.taken with
  | some pkt => do
    let mem ← deliver ranges s.mem pkt
    .ok { s with mem := mem, taken := none, todo := s.todo.tail }
  | none => .ok s

def System.refillResp (s : System) (now i : ℕ) : Except Fault System := do
  let f ← Tlb.Front.step p (words p s.mem) ⟨s.tlb, s.refills, []⟩ (now, .refillResp i)
  .ok { s with tlb := f.tlb, refills := f.refills }

def System.step (s : System) : Event → Except Fault System
  | .attempt now accept => s.attempt p now accept
  | .serve => s.serve ranges
  | .refillResp now i => s.refillResp p now i

def System.run (s : System) (es : List Event) : Except Fault System :=
  es.foldlM (System.step p ranges) s

end

/-! ## What the commands are for -/

section
variable {p : Tlb.Params} {mem : Memory} (T : Tlb.Table p mem)

def staticAddr (p : Tlb.Params) (v : ℕ) : ℕ :=
  addr64 (sub64 v p.originalRange.start + p.remappedRange.start)

def Command.word : Command → ℕ
  | .operand _ => staticAddr p p.hmcOperand
  | .incr target => T.phys target.toNat
  | .imin target => T.phys target.toNat

structure Spec where
  operand : ℕ
  mem : ℕ → UInt8

def Command.perform (s : Spec) (c : Command) : Spec :=
  match c with
  | .operand value => { operand := value.toNat, mem := store 4 s.mem (c.word T) value.toNat }
  | .incr _ => { s with mem := store 4 s.mem (c.word T) ((load 4 s.mem (c.word T) + 1) % 2 ^ 32) }
  | .imin _ =>
    { s with mem := store 4 s.mem (c.word T) (min (load 4 s.mem (c.word T)) (s.operand % 2 ^ 32)) }

def performAll (s : Spec) (cs : List Command) : Spec := cs.foldl (Command.perform T) s

end

end SmcPim.Hmc
