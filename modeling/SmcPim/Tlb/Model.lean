import SmcPim.Driver.SliceTable

/-!
# The TLB of the PIM

From `mem/ethz_tlb.cc` and `base/addr_range.hh`. Rule 0 is static; the others are installed from the
slice table. Statistics, debug output and the address dump are left out.
-/

namespace SmcPim

open Driver (Slice)

/-- A range as the TLB builds it, without interleaving. Both ends belong to it. -/
structure AddrRange where
  start : Nat
  last : Nat
  deriving DecidableEq, Repr, Inhabited

def AddrRange.contains (r : AddrRange) (a : Nat) : Bool :=
  decide (r.start ≤ a ∧ a ≤ r.last)

def AddrRange.size (r : AddrRange) : Nat := addr64 (sub64 r.last r.start + 1)

/-- `AddrRange(start, start + size-1)`. -/
def AddrRange.ofSize (start size : Nat) : AddrRange := ⟨start, sub64 (addr64 (start + size)) 1⟩

structure Tlb.Params where
  pimArch : Arch
  osPageShift : Nat
  tlbSize : Nat
  idealRefill : Bool
  pimDtlbIdealRefillReg : Nat
  hmcAtomicIncr : Nat
  hmcAtomicImin : Nat
  hmcAtomicFadd : Nat
  hmcOperand : Nat
  originalRange : AddrRange
  remappedRange : AddrRange
  deriving DecidableEq, Repr

structure Tlb where
  originalRanges : List AddrRange
  remappedRanges : List AddrRange
  lastUsed : List Nat
  pendingRefills : List Nat
  pimSlicetablePtr : Nat
  pimSlicevstart : Nat
  hmcOperand : Nat
  deriving DecidableEq, Repr

def Tlb.Params.create (p : Tlb.Params) : Tlb :=
  { originalRanges := [p.originalRange]
    remappedRanges := [p.remappedRange]
    lastUsed := [2 ^ 64 - 1]
    pendingRefills := []
    pimSlicetablePtr := 0
    pimSlicevstart := 0
    hmcOperand := 0 }

/-- The data TLB of the default configuration. The registers lie in the memory of the PIM, which
rule 0 maps. -/
def Tlb.Params.dtlb : Tlb.Params :=
  { pimArch := .arm
    osPageShift := 12
    tlbSize := 16
    idealRefill := true
    pimDtlbIdealRefillReg := 0x100
    hmcAtomicIncr := 0x200
    hmcAtomicImin := 0x204
    hmcAtomicFadd := 0x208
    hmcOperand := 0x20c
    originalRange := ⟨0, 0xFFFFF⟩
    remappedRange := ⟨0x70000000, 0x700FFFFF⟩ }

/-! ## Lookup -/

/-- The loop that all lookups share: the first rule that contains the address. -/
def Tlb.findRule (t : Tlb) (addr : Nat) : Option Nat :=
  t.originalRanges.findIdx? (·.contains addr)

def Tlb.offsetIn (t : Tlb) (i addr : Nat) : Nat :=
  addr64 (sub64 addr (t.originalRanges.getD i default).start +
    (t.remappedRanges.getD i default).start)

def Tlb.remapCheck (t : Tlb) (addr : Nat) : Nat :=
  match t.findRule addr with
  | some i => t.offsetIn i addr
  | none => noAddr

def Tlb.sliceVend (t : Tlb) (addr : Nat) : Except Fault Nat :=
  match t.findRule addr with
  | some i =>
    let r := t.originalRanges.getD i default
    .ok (sub64 (addr64 (r.start + r.size)) 1)
  | none => .error (.panic "This method should never fail: slice_vend() ")

/-- The lookup of an access at tick `now`, which refreshes the stamp of a dynamic rule. -/
def Tlb.remap (now : Nat) (t : Tlb) (addr : Nat) : Except Fault (Nat × Tlb) :=
  match t.findRule addr with
  | some i =>
    .ok (t.offsetIn i addr,
      if 0 < i then { t with lastUsed := t.lastUsed.set i now } else t)
  | none =>
    if t.pimSlicetablePtr ≠ 0 then .ok (noAddr, t)
    else .error (.panic "TLB: Unresolvable address!")

/-! ## Replacement -/

/-- The search of `updateTLB` for the earliest stamp, from index 1 on. -/
def Tlb.lruIndex (lastUsed : List Nat) : Nat :=
  ((List.range' 1 (lastUsed.length - 1)).foldl
    (fun (m : Nat × Nat) i =>
      if lastUsed.getD i 0 < m.1 then (lastUsed.getD i 0, i) else m)
    (lastUsed.getD 1 0, 1)).2

def Tlb.evict (t : Tlb) : Tlb :=
  let minIndex := Tlb.lruIndex t.lastUsed
  { t with
    lastUsed := t.lastUsed.eraseIdx minIndex
    originalRanges := t.originalRanges.eraseIdx minIndex
    remappedRanges := t.remappedRanges.eraseIdx minIndex }

def Tlb.push (now : Nat) (t : Tlb) (s : Slice) : Tlb :=
  { t with
    originalRanges := t.originalRanges ++ [.ofSize s.vaddr s.size]
    remappedRanges := t.remappedRanges ++ [.ofSize s.paddr s.size]
    lastUsed := t.lastUsed ++ [now] }

def Tlb.updateTLB (p : Tlb.Params) (now : Nat) (t : Tlb) (s : Slice) : Tlb :=
  (if p.tlbSize ≤ t.originalRanges.length then t.evict else t).push now s

/-! ## Refill -/

def readSlice (a : Arch) (mem : Memory) (addr : Nat) : Slice :=
  { vaddr := a.ulong (mem addr)
    paddr := a.ulong (mem (addr + a.bytes))
    size := a.ulong (mem (addr + 2 * a.bytes)) }

def Tlb.Params.length (p : Tlb.Params) : Nat := 3 * p.pimArch.bits / 8

/-- `PIM_SLICETABLE_PTR+index`: where the refill functions read the rule of an address. -/
def Tlb.entryAddr (p : Tlb.Params) (t : Tlb) (addr : Nat) : Nat :=
  addr64 (t.pimSlicetablePtr + (sub64 addr t.pimSlicevstart >>> p.osPageShift) * p.length)

/-- What `refillTLB_functional` and `refillTLB_atomic` do: read the entry at once. -/
def Tlb.refillNow (msg : String) (p : Tlb.Params) (mem : Memory) (now : Nat) (t : Tlb) (addr : Nat) :
    Except Fault Tlb := do
  assert (t.pimSlicevstart ≤ addr) "addr >= PIM_SLICEVSTART"
  if t.entryAddr p addr ∈ t.pendingRefills then .error (.panic msg)
  else .ok (t.updateTLB p now (readSlice p.pimArch mem (t.entryAddr p addr)))

def Tlb.refillTLBFunctional : Tlb.Params → Memory → Nat → Tlb → Nat → Except Fault Tlb :=
  Tlb.refillNow "refillTLB_functional: this situation is not very bad, but we avoid it for now"

def Tlb.refillTLBAtomic : Tlb.Params → Memory → Nat → Tlb → Nat → Except Fault Tlb :=
  Tlb.refillNow "refillTLB_atomic: atomic and timing cannot coexist!"

/-- Sends a request for the entry, unless one is in flight; `accept` is the answer of the memory. -/
def Tlb.refillTLBTiming (p : Tlb.Params) (t : Tlb) (addr : Nat) (accept : Bool) :
    Except Fault (Tlb × Option Nat) := do
  assert (t.pimSlicevstart ≤ addr) "addr >= PIM_SLICEVSTART"
  let entry := t.entryAddr p addr
  if entry ∈ t.pendingRefills then .ok (t, none)
  else
    let t' := { t with pendingRefills := t.pendingRefills ++ [entry] }
    if accept then .ok (t', some entry)
    else .ok ({ t' with pendingRefills := t'.pendingRefills.dropLast }, none)

/-- The branch of `recvTimingResp` for the response to a refill request. -/
def Tlb.recvRefillResp (p : Tlb.Params) (mem : Memory) (now : Nat) (t : Tlb) (addr : Nat) :
    Except Fault Tlb :=
  if addr ∈ t.pendingRefills then
    .ok ({ t with pendingRefills := t.pendingRefills.erase addr }.updateTLB p now
      (readSlice p.pimArch mem addr))
  else .error (.panic "success = remove_pending_refill(pkt->getAddr()) failed!")

end SmcPim
