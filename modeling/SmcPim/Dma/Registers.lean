import SmcPim.Dma.Accounting
import SmcPim.Tlb.Pending

/-!
# The DMA registers

The part of `ethz_PIMMemory::recvAtomic` (`mem/ethz_pim_memory.cc`) that programs the engine, in
timing mode.
-/

namespace SmcPim

open List Nat Except

/-- Where the registers are; `pmemAddr` is the pointer to the byte `range.start()`. -/
structure PimMemory.Params where
  pimArch : Arch
  pimAddressBase : Nat
  pimVregAddr : Nat
  pimVregSize : Nat
  pimDmaMemAddrAddr : Nat
  pimDmaSpmAddrAddr : Nat
  pimDmaNumbytesAddr : Nat
  pimDmaCommandAddr : Nat
  pmemAddr : Nat
  rangeStart : Nat
  rangeStart_le : rangeStart ≤ pimVregAddr
  vreg_lt : pimVregAddr + pimVregSize < 2 ^ 64
  pmem_lt : pmemAddr + (pimVregAddr + pimVregSize - rangeStart) < 2 ^ 64

structure PimMemory where
  dmaNumBytes : Nat
  dmaMemAddr : Nat
  dmaSpmAddr : Nat
  sys : DmaSys

namespace PimMemory

def pimDmaRead : BitVec 8 := 0b00000000

def pimDmaWrite : BitVec 8 := 0b10000000

def Params.ptr (q : Params) (addr : Nat) : Nat := sub64 (addr64 (q.pmemAddr + addr)) q.rangeStart

def Params.spmAddr (q : Params) (ptr : Nat) : Nat :=
  sub64 (addr64 (ptr + q.rangeStart)) q.pmemAddr

/-- A write to `PIM_DMA_COMMAND`. The address in `_dma_spm_addr` is translated in place. -/
def command (q : Params) (p : DmaParams) (mem : Memory) (now : Nat) (m : PimMemory)
    (cmd : BitVec 8) : Except Fault PimMemory :=
  if cmd = 0 then .ok m
  else do
    assert (m.dmaNumBytes ≠ 0) "_dma_num_bytes != 0 "
    assert (m.dmaMemAddr ≠ 0) "_dma_mem_addr != 0 "
    let spm := addr64 (m.dmaSpmAddr + q.pimAddressBase)
    if spm < q.pimVregAddr ∨
        addr64 (q.pimVregAddr + q.pimVregSize) < addr64 (spm + m.dmaNumBytes) then
      .error (.panic "DMA access must be within the PIM's Vector Register File")
    else if cmd &&& 0b10000000 = pimDmaRead then
      let s ← m.sys.initiateRead p mem now (q.ptr spm) m.dmaMemAddr m.dmaNumBytes
        (cmd &&& 0b01111111)
      .ok { m with dmaSpmAddr := spm, sys := s }
    else if cmd &&& 0b10000000 = pimDmaWrite then
      let s ← m.sys.initiateWrite p mem now (q.ptr spm) m.dmaMemAddr m.dmaNumBytes
        (cmd &&& 0b01111111)
      .ok { m with dmaSpmAddr := spm, sys := s }
    else .error (.panic "Illegal DMA command!")

/-- A packet at the memory of the PIM. The registers of other devices are left out. -/
def recvAtomic (q : Params) (p : DmaParams) (mem : Memory) (now : Nat) (m : PimMemory)
    (pkt : Packet) : Except Fault PimMemory := do
  if ¬ pkt.isWrite then .ok m
  else if pkt.addr = q.pimDmaNumbytesAddr then
    assert (pkt.size = q.pimArch.bits / 8) "pkt->getSize() == pim_arch/8"
    .ok { m with dmaNumBytes := q.pimArch.ulong pkt.data }
  else if pkt.addr = q.pimDmaMemAddrAddr then
    assert (pkt.size = q.pimArch.bits / 8) "pkt->getSize() == pim_arch/8"
    .ok { m with dmaMemAddr := q.pimArch.ulong pkt.data }
  else if pkt.addr = q.pimDmaSpmAddrAddr then
    assert (pkt.size = q.pimArch.bits / 8) "pkt->getSize() == pim_arch/8"
    .ok { m with dmaSpmAddr := q.pimArch.ulong pkt.data }
  else if pkt.addr = q.pimDmaCommandAddr then
    assert (pkt.size = 1) "pkt->getSize() == 1"
    m.command q p mem now (BitVec.ofNat 8 pkt.data)
  else .ok m

inductive Event
  | atomic (pkt : Packet)
  | nextState
  | response (k : Nat)
  | done
  | cpu (a : Tlb.Access)

def engine (p : DmaParams) (mem : Memory) (m : PimMemory) (l : Nat × DmaSys.Event) :
    Except Fault PimMemory := do
  let s ← m.sys.step p mem l
  .ok { m with sys := s }

def step (q : Params) (p : DmaParams) (mem : Memory) (m : PimMemory) :
    Nat × Event → Except Fault PimMemory
  | (now, .atomic pkt) => m.recvAtomic q p mem now pkt
  | (now, .nextState) => m.engine p mem (now, .nextState)
  | (now, .response k) => m.engine p mem (now, .response k)
  | (now, .done) => m.engine p mem (now, .done)
  | (now, .cpu a) => m.engine p mem (now, .cpu a)

/-- The constructor. It leaves `_dma_spm_addr` as it is. -/
def init (dmaSpmAddr : Nat) (f : Tlb.Front) : PimMemory := ⟨0, 0, dmaSpmAddr, .init f⟩

end PimMemory

/-! ## Ranges of addresses -/

namespace Tlb

variable {p : Tlb.Params} {mem : Memory} {t t' : Tlb} {f f' : Front} {pkt : Packet} {n v : Nat}

def Bounded (t : Tlb) : Prop := ∀ r ∈ t.originalRanges, r.last < 2 ^ 64

instance (t : Tlb) : Decidable t.Bounded := inferInstanceAs (Decidable (∀ r ∈ _, _))

lemma kept_bounded : Kept p Bounded where
  update := by
    intro t h now s r hr
    rcases mem_append.mp hr with hr | hr
    · split at hr
      · exact h r (mem_of_mem_eraseIdx hr)
      · exact h r hr
    · rw [mem_singleton.mp hr]
      exact mod_lt _ (by decide)
  stamps := fun h _ => h
  operand := fun h _ => h

lemma Bounded.refillNow {msg : String} (h : t.Bounded) (hs : t.refillNow msg p mem n v = .ok t') :
    t'.Bounded :=
  kept_bounded.refillNow h hs

lemma Bounded.refillTLBTiming {a : Option Nat} {accept : Bool} (h : t.Bounded)
    (hs : t.refillTLBTiming p v accept = .ok (t', a)) : t'.Bounded := by
  unfold Tlb.refillTLBTiming at hs
  obtain ⟨_, -, hs⟩ := bind_eq_ok.mp hs
  dsimp only at hs
  split at hs
  · rw [← (Prod.mk.inj (ok.inj hs)).1]
    exact h
  · split at hs
    · rw [← (Prod.mk.inj (ok.inj hs)).1]
      exact h
    · rw [← (Prod.mk.inj (ok.inj hs)).1]
      exact h

lemma Bounded.recvRefillResp {a : Nat} (h : t.Bounded) (hs : t.recvRefillResp p mem n a = .ok t') :
    t'.Bounded := by
  have hfree : { t with pendingRefills := t.pendingRefills.erase a }.Bounded := h
  unfold Tlb.recvRefillResp at hs
  split at hs
  · rw [← ok.inj hs]
    exact kept_bounded.update hfree _ _
  · cases hs

lemma Bounded.step {a : Access} (h : f.tlb.Bounded) (hs : f.step p mem (n, a) = .ok f') :
    f'.tlb.Bounded := by
  unfold Front.step at hs
  rcases a with ⟨pkt, accept⟩ | pkt | v | i
  · obtain ⟨r, hr, hs⟩ := bind_eq_ok.mp hs
    rw [← ok.inj hs]
    rcases kept_bounded.recvTimingReq h hr with ⟨-, h₁⟩ | ⟨t1, v, h₁, href⟩
    · exact h₁
    · exact h₁.refillTLBTiming href
  · obtain ⟨⟨t', sent⟩, ht, hs⟩ := bind_eq_ok.mp hs
    rw [← ok.inj hs]
    exact kept_bounded.recvAtomic h ht
  · dsimp only at hs
    split at hs
    · obtain ⟨t', ht, hs⟩ := bind_eq_ok.mp hs
      rw [← ok.inj hs]
      exact h.refillNow ht
    · rw [← ok.inj hs]
      exact h
  · dsimp only at hs
    split at hs
    · rw [← ok.inj hs]
      exact h
    · obtain ⟨t', ht, hs⟩ := bind_eq_ok.mp hs
      rw [← ok.inj hs]
      exact h.recvRefillResp ht

lemma Bounded.sliceVend_last {e : Nat} (h : t.Bounded) (hs : t.sliceVend v = .ok e) :
    ∃ r ∈ t.originalRanges, v ≤ r.last ∧ r.last < 2 ^ 64 ∧ e = r.last := by
  unfold sliceVend at hs
  split at hs
  · rename_i i hi
    have hc := Lists.findIdx?_getD hi default
    have hmem : t.originalRanges.getD i default ∈ t.originalRanges := by
      rw [getD_eq_getElem _ _ (Lists.findIdx?_lt hi)]
      exact getElem_mem (Lists.findIdx?_lt hi)
    have hlast := h _ hmem
    unfold AddrRange.contains at hc
    rw [decide_eq_true_iff] at hc
    refine ⟨_, hmem, hc.2, hlast, ?_⟩
    rw [← ok.inj hs]
    unfold AddrRange.size sub64 addr64
    omega
  · cases hs

end Tlb

/-! ## The engine between two pointers -/

namespace DMARequest

variable {lo hi : Nat} {r r' : DMARequest}

/-- What is left of a request fits between two pointers, also when the end address has wrapped
around. -/
structure Between (lo hi : Nat) (r : DMARequest) : Prop where
  start_lt : r.memVstart < 2 ^ 64
  end_lt : r.memVend < 2 ^ 64
  low : lo ≤ r.vregPtr
  high : r.vregPtr + sub64 r.memVend r.memVstart + 1 ≤ hi

lemma between_new {vreg start n : Nat} (hn : 1 ≤ n) (hlt : n < 2 ^ 64) (hlow : lo ≤ vreg)
    (hhigh : vreg + n ≤ hi) (id : Nat) (dir : Bool) (res : BitVec 8) :
    (new id vreg start n dir res).Between lo hi := by
  refine ⟨mod_lt _ (by decide), mod_lt _ (by decide), hlow, ?_⟩
  unfold new sub64 addr64
  dsimp only
  omega

lemma Between.size_le {e : Nat} (h : r.Between lo hi) (hle : r.memVstart ≤ e) (he : e < 2 ^ 64) :
    uint32 (addr64 (sub64 (min e r.memVend) r.memVstart + 1)) ≤
      sub64 r.memVend r.memVstart + 1 := by
  have h1 := h.start_lt
  have h2 := h.end_lt
  have hu : uint32 (addr64 (sub64 (min e r.memVend) r.memVstart + 1)) ≤
      sub64 (min e r.memVend) r.memVstart + 1 :=
    Nat.le_trans (mod_le _ _) (mod_le _ _)
  refine Nat.le_trans hu (Nat.add_le_add_right ?_ 1)
  unfold sub64 addr64
  omega

lemma Between.next {v : Nat} {more : Bool} (h : r.Between lo hi)
    (hs : r.nextSubRequest v = .ok (r', more)) : r'.Between lo hi := by
  obtain ⟨h1, h2, h3, h4⟩ := h
  obtain ⟨hle, ⟨-, -, rfl⟩ | ⟨hlt, -, rfl⟩⟩ := nextSubRequest_ok hs
  · exact ⟨h1, h2, h3, h4⟩
  · rw [sub64_of_le (by omega) h2] at h4
    refine ⟨lt_trans hlt h2, h2, Nat.le_trans h3 (le_add_right _ _), ?_⟩
    dsimp only
    rw [sub64_of_le (le_of_lt hlt) h2]
    omega

end DMARequest

namespace DmaSys

variable {p : DmaParams} {mem : Memory} {now lo hi : Nat} {s s' : DmaSys}

structure Confined (lo hi : Nat) (s : DmaSys) : Prop where
  ranges : s.front.tlb.Bounded
  requests : ∀ r ∈ s.dma.requests, r.Between lo hi
  transfers : ∀ x ∈ s.transfers, lo ≤ x.vregPtr ∧ x.vregPtr + x.size ≤ hi

section
variable (h : Confined lo hi s)
include h

lemma Confined.setRequest {r : DMARequest} (hr : r.Between lo hi) (i : Nat) :
    Confined lo hi (s.setRequest i r) := by
  refine ⟨h.ranges, ?_, h.transfers⟩
  intro q hq
  rcases mem_or_eq_of_mem_set hq with hq | rfl
  · exact h.requests q hq
  · exact hr

lemma Confined.stateTlbRefill (hs : s.stateTlbRefill p mem now = .ok s') : Confined lo hi s' := by
  obtain ⟨i, r, -, hr, hcase⟩ := stateTlbRefill_ok hs
  obtain ⟨h1, h2, h3, h4⟩ := h.requests r (mem_of_getElem? hr)
  have hset := h.setRequest (r := { r with issued := true }) ⟨h1, h2, h3, h4⟩ i
  rcases hcase with ⟨-, rfl⟩ | ⟨-, t, rfl, ⟨-, rfl⟩ | ⟨-, ht⟩⟩
  · exact { hset with }
  · exact { hset with }
  · exact ⟨h.ranges.refillNow ht, hset.requests, hset.transfers⟩

lemma Confined.stateTransfer (hs : s.stateTransfer p = .ok s') : Confined lo hi s' := by
  obtain ⟨i, r, e, r', more, -, hr, he, -, hsub, hnext, rfl⟩ := stateTransfer_ok hs
  have hfits := h.requests r (mem_of_getElem? hr)
  have hpushed : { r with memP := r.memP ++ [(s.front.tlb.remapCheck r.memVstart,
      s.front.tlb.remapCheck (min e r.memVend))] }.Between lo hi :=
    { hfits with }
  refine ⟨h.ranges, (h.setRequest (hpushed.next hnext) i).requests, ?_⟩
  intro x hx
  rcases mem_append.mp hx with hx | hx
  · exact h.transfers x hx
  · rw [mem_singleton.mp hx]
    obtain ⟨a, -, hle, hlt, rfl⟩ := h.ranges.sliceVend_last he
    have hsize := hfits.size_le hle hlt
    have hhigh := hfits.high
    refine ⟨hfits.low, ?_⟩
    dsimp only
    rw [hsub]
    omega

lemma Confined.nextState (hs : s.nextState p mem now = .ok s') : Confined lo hi s' := by
  obtain ⟨-, rfl⟩ | ⟨-, ⟨-, rfl⟩ | ⟨-, hs⟩ | ⟨-, hs⟩⟩ := nextState_ok hs
  · exact { h with }
  · unfold DmaSys.stateIdle
    split
    · exact { h with }
    · exact { h with }
  · exact h.stateTlbRefill hs
  · exact h.stateTransfer hs

lemma Confined.initiate {dir : Bool} {busy : String} {vreg start n : Nat}
    {res : BitVec 8} (hn : 1 ≤ n) (hlt : n < 2 ^ 64) (hlow : lo ≤ vreg) (hhigh : vreg + n ≤ hi)
    (hs : s.initiate dir busy p mem now vreg start n res = .ok s') : Confined lo hi s' := by
  have hnew : Confined lo hi (s.withRequest (.new s.nextId vreg start n dir res)) := by
    refine ⟨h.ranges, ?_, h.transfers⟩
    intro q hq
    rcases mem_cons.mp hq with rfl | hq
    · exact DMARequest.between_new hn hlt hlow hhigh _ _ _
    · exact h.requests q hq
  obtain ⟨-, -, ⟨-, rfl⟩ | ⟨-, hs⟩⟩ := initiate_ok hs
  · exact hnew
  · exact hnew.nextState hs

lemma Confined.step {e : Event} (hread : ∀ vreg start n res, e ≠ .initiateRead vreg start n res)
    (hwrite : ∀ vreg start n res, e ≠ .initiateWrite vreg start n res)
    (hs : s.step p mem (now, e) = .ok s') : Confined lo hi s' := by
  rcases e with ⟨vreg, v, n, res⟩ | ⟨vreg, v, n, res⟩ | _ | k | _ | a
  · exact absurd rfl (hread vreg v n res)
  · exact absurd rfl (hwrite vreg v n res)
  · obtain ⟨-, rfl⟩ | ⟨-, hs⟩ := nextState_step_ok hs
    · exact h
    · exact h.nextState hs
  · obtain ⟨-, rfl⟩ | ⟨pkt, a, -, -, -, hs⟩ := response_ok hs
    · exact h
    · obtain ⟨i, r, -, hr, -, ⟨-, rfl⟩ | ⟨-, rfl⟩⟩ := handlePacket_ok hs
      · exact ⟨h.ranges, fun q hq => h.requests q (mem_of_mem_eraseIdx hq), h.transfers⟩
      · obtain ⟨h1, h2, h3, h4⟩ := h.requests r (mem_of_getElem? hr)
        have hset := h.setRequest
          (r := { r with bytesCompleted := addr64 (r.bytesCompleted + pkt.size) })
          ⟨h1, h2, h3, h4⟩ i
        exact ⟨h.ranges, hset.requests, h.transfers⟩
  · obtain ⟨-, rfl⟩ | ⟨-, rfl⟩ := done_ok hs
    · exact h
    · exact { h with }
  · obtain ⟨f, hf, rfl⟩ := cpu_ok hs
    exact ⟨h.ranges.step hf, h.requests, h.transfers⟩

end

end DmaSys

/-! ## Commands -/

namespace PimMemory

variable {q : Params} {p : DmaParams} {mem : Memory} {now : Nat} {m m' : PimMemory}

def Params.vregPtr (q : Params) : Nat := q.pmemAddr + (q.pimVregAddr - q.rangeStart)

lemma Params.ptr_eq {a : Nat} (hlo : q.pimVregAddr ≤ a) (hhi : a ≤ q.pimVregAddr + q.pimVregSize) :
    q.ptr a = q.vregPtr + (a - q.pimVregAddr) := by
  have h1 := q.rangeStart_le
  have h2 := q.vreg_lt
  have h3 := q.pmem_lt
  unfold Params.ptr Params.vregPtr sub64 addr64
  omega

lemma Params.spmAddr_mem {x : Nat} (hlo : q.vregPtr ≤ x) (hhi : x < q.vregPtr + q.pimVregSize) :
    q.pimVregAddr ≤ q.spmAddr x ∧ q.spmAddr x < q.pimVregAddr + q.pimVregSize := by
  have h1 := q.rangeStart_le
  have h2 := q.vreg_lt
  have h3 := q.pmem_lt
  unfold Params.vregPtr at hlo hhi
  unfold Params.spmAddr sub64 addr64
  omega

structure Inv (q : Params) (m : PimMemory) : Prop where
  numBytes : m.dmaNumBytes < 2 ^ 64
  sys : m.sys.Confined q.vregPtr (q.vregPtr + q.pimVregSize)

/-- No command has a length that takes the address past the end of the address space. -/
def NoWrap (q : Params) (m : PimMemory) : Event → Prop
  | .atomic pkt => pkt.addr = q.pimDmaCommandAddr →
      addr64 (m.dmaSpmAddr + q.pimAddressBase) + m.dmaNumBytes < 2 ^ 64
  | .nextState | .response _ | .done | .cpu _ => True

instance (q : Params) (m : PimMemory) : (e : Event) → Decidable (NoWrap q m e)
  | .atomic pkt => inferInstanceAs (Decidable (pkt.addr = q.pimDmaCommandAddr → _))
  | .nextState | .response _ | .done | .cpu _ => .isTrue trivial

lemma command_ok {cmd : BitVec 8}
    (hwrap : addr64 (m.dmaSpmAddr + q.pimAddressBase) + m.dmaNumBytes < 2 ^ 64)
    (hs : m.command q p mem now cmd = .ok m') :
    m' = m ∨ m'.dmaNumBytes = m.dmaNumBytes ∧ 1 ≤ m.dmaNumBytes ∧
      ∃ dir busy vreg, q.vregPtr ≤ vreg ∧ vreg + m.dmaNumBytes ≤ q.vregPtr + q.pimVregSize ∧
        m.sys.initiate dir busy p mem now vreg m.dmaMemAddr m.dmaNumBytes (cmd &&& 0b01111111) =
          .ok m'.sys := by
  unfold PimMemory.command at hs
  split at hs
  · exact .inl (ok.inj hs).symm
  · obtain ⟨_, hn, hs⟩ := bind_eq_ok.mp hs
    obtain ⟨_, -, hs⟩ := bind_eq_ok.mp hs
    rw [assert_eq_ok] at hn
    dsimp only at hs
    split at hs
    · cases hs
    · rename_i hcheck
      rw [not_or, not_lt, not_lt, addr64_of_lt q.vreg_lt, addr64_of_lt hwrap] at hcheck
      obtain ⟨hlow, hhigh⟩ := hcheck
      have hptr := q.ptr_eq hlow (by omega)
      refine .inr ?_
      split at hs
      · obtain ⟨s, hinit, hs⟩ := bind_eq_ok.mp hs
        rw [← ok.inj hs]
        exact ⟨rfl, pos_of_ne_zero hn, _, _, _, by omega, by omega, hinit⟩
      · split at hs
        · obtain ⟨s, hinit, hs⟩ := bind_eq_ok.mp hs
          rw [← ok.inj hs]
          exact ⟨rfl, pos_of_ne_zero hn, _, _, _, by omega, by omega, hinit⟩
        · cases hs

lemma recvAtomic_ok {pkt : Packet} (hok : NoWrap q m (.atomic pkt)) (hn : m.dmaNumBytes < 2 ^ 64)
    (hs : m.recvAtomic q p mem now pkt = .ok m') :
    m'.dmaNumBytes < 2 ^ 64 ∧ (m'.sys = m.sys ∨ 1 ≤ m.dmaNumBytes ∧
      ∃ dir busy vreg, ∃ cmd : BitVec 8, q.vregPtr ≤ vreg ∧
        vreg + m.dmaNumBytes ≤ q.vregPtr + q.pimVregSize ∧
        m.sys.initiate dir busy p mem now vreg m.dmaMemAddr m.dmaNumBytes (cmd &&& 0b01111111) =
          .ok m'.sys) := by
  unfold PimMemory.recvAtomic at hs
  split at hs
  · rw [← ok.inj hs]
    exact ⟨hn, .inl rfl⟩
  split at hs
  · obtain ⟨_, -, hs⟩ := bind_eq_ok.mp hs
    rw [← ok.inj hs]
    exact ⟨lt_of_lt_of_le (Arch.ulong_lt _ _) (Arch.pow_bits_le _), .inl rfl⟩
  split at hs
  · obtain ⟨_, -, hs⟩ := bind_eq_ok.mp hs
    rw [← ok.inj hs]
    exact ⟨hn, .inl rfl⟩
  split at hs
  · obtain ⟨_, -, hs⟩ := bind_eq_ok.mp hs
    rw [← ok.inj hs]
    exact ⟨hn, .inl rfl⟩
  split at hs
  · rename_i haddr
    obtain ⟨_, -, hs⟩ := bind_eq_ok.mp hs
    rcases command_ok (hok haddr) hs with rfl | ⟨hsame, hpos, dir, busy, vreg, hlo, hhi, hinit⟩
    · exact ⟨hn, .inl rfl⟩
    · exact ⟨hsame ▸ hn, .inr ⟨hpos, dir, busy, vreg, _, hlo, hhi, hinit⟩⟩
  · rw [← ok.inj hs]
    exact ⟨hn, .inl rfl⟩

lemma Inv.recvAtomic (h : Inv q m) {pkt : Packet} (hok : NoWrap q m (.atomic pkt))
    (hs : m.recvAtomic q p mem now pkt = .ok m') : Inv q m' := by
  obtain ⟨hn, heq | ⟨hpos, dir, busy, vreg, cmd, hlo, hhi, hinit⟩⟩ := recvAtomic_ok hok h.numBytes hs
  · exact ⟨hn, heq ▸ h.sys⟩
  · exact ⟨hn, h.sys.initiate hpos h.numBytes hlo hhi hinit⟩

lemma Inv.engine (h : Inv q m) {e : DmaSys.Event}
    (hread : ∀ vreg start n res, e ≠ .initiateRead vreg start n res)
    (hwrite : ∀ vreg start n res, e ≠ .initiateWrite vreg start n res)
    (hs : m.engine p mem (now, e) = .ok m') : Inv q m' := by
  obtain ⟨s, hstep, hs⟩ := bind_eq_ok.mp hs
  rw [← ok.inj hs]
  exact ⟨h.numBytes, h.sys.step hread hwrite hstep⟩

lemma Inv.step (h : Inv q m) {l : Nat × Event} (hok : NoWrap q m l.2)
    (hs : m.step q p mem l = .ok m') : Inv q m' := by
  obtain ⟨now, e⟩ := l
  rcases e with pkt | _ | k | _ | a
  · exact h.recvAtomic hok hs
  · exact h.engine (by simp) (by simp) hs
  · exact h.engine (by simp) (by simp) hs
  · exact h.engine (by simp) (by simp) hs
  · exact h.engine (by simp) (by simp) hs

lemma inv_init {spm : Nat} {f : Tlb.Front} (hf : f.tlb.Bounded) : Inv q (init spm f) :=
  ⟨by simp [init], hf, by simp [init, DmaSys.init], by simp [init, DmaSys.init]⟩

def PlainStep (q : Params) (p : DmaParams) (mem : Memory) : PimMemory → Nat × Event → PimMemory → Prop :=
  Runs.Restrict (fun m l m' => m.step q p mem l = .ok m') fun m l => NoWrap q m l.2

/-- Whatever is written to the registers, sub-transfers stay in the vector register file. -/
theorem transfers_inside_vreg (q : Params) (p : DmaParams) (mem : Memory) (spm : Nat)
    (f : Tlb.Front) (hf : f.tlb.Bounded) (ls : List (Nat × Event)) (m : PimMemory)
    (hrun : Runs.Steps (PlainStep q p mem) (init spm f) ls m) :
    ∀ x ∈ m.sys.transfers, ∀ j < x.size, q.pimVregAddr ≤ q.spmAddr (x.vregPtr + j) ∧
      q.spmAddr (x.vregPtr + j) < q.pimVregAddr + q.pimVregSize := by
  have h := hrun.inv (Inv q) (fun _ _ _ hi hstep => hi.step hstep.1 hstep.2) (inv_init hf)
  intro x hx j hj
  obtain ⟨hlo, hhi⟩ := h.sys.transfers x hx
  exact q.spmAddr_mem (by omega) (by omega)

def arm64Memory : Params where
  pimArch := .arm64
  pimAddressBase := 0x70000000
  pimVregAddr := 0x70001000
  pimVregSize := 4096
  pimDmaMemAddrAddr := 0x70000300
  pimDmaSpmAddrAddr := 0x70000308
  pimDmaNumbytesAddr := 0x70000310
  pimDmaCommandAddr := 0x70000318
  pmemAddr := 0x7F0000000000
  rangeStart := 0x70000000
  rangeStart_le := by decide
  vreg_lt := by decide
  pmem_lt := by decide

def arm64Params : DmaParams := ⟨{ Tlb.Params.dtlb with pimArch := .arm64 }, 64⟩

def arm64Front : Tlb.Front := ⟨arm64Params.tlb.create, [], []⟩

def store (addr size data : Nat) : Event :=
  .atomic ⟨addr, size, true, true, false, data, false, .nop, 0, []⟩

def programRun (spm n : Nat) : List (Nat × Event) :=
  [(1, store 0x70000308 8 spm), (2, store 0x70000300 8 0x1000), (3, store 0x70000310 8 n),
    (4, store 0x70000318 1 1), (5, .nextState), (6, .nextState)]

def touched (m : PimMemory) : List (Nat × Nat) :=
  m.sys.transfers.map fun x => (arm64Memory.spmAddr x.vregPtr, x.size)

theorem transfers_inside_vreg_end :
    ∃ m, Runs.Steps (PlainStep arm64Memory arm64Params fun _ => 0) (init 0 arm64Front)
        (programRun 0x1FC0 64) m ∧ m.touched = [(0x70001FC0, 64)] ∧
      ∀ x ∈ m.sys.transfers, ∀ j < x.size, 0x70001000 ≤ arm64Memory.spmAddr (x.vregPtr + j) ∧
        arm64Memory.spmAddr (x.vregPtr + j) < 0x70001000 + 4096 := by
  have hrun : (Runs.exec (Runs.guarded (step arm64Memory arm64Params fun _ => 0)
      fun m l _ => NoWrap arm64Memory m l.2) (init 0 arm64Front) (programRun 0x1FC0 64)).map
        touched = some [(0x70001FC0, 64)] := by decide +kernel
  obtain ⟨m, hm, htouched⟩ := Option.map_eq_some_iff.mp hrun
  have hsteps : Runs.Steps (PlainStep arm64Memory arm64Params fun _ => 0) (init 0 arm64Front)
      (programRun 0x1FC0 64) m := Runs.steps_of_guarded (fun _ _ _ h1 h2 => ⟨h2, h1⟩) hm
  exact ⟨m, hsteps, htouched, transfers_inside_vreg arm64Memory arm64Params (fun _ => 0) 0
    arm64Front (by decide) _ m hsteps⟩

/-- The end address wraps around to one below the end of the file, and the request is accepted. -/
theorem transfer_outside_vreg :
    ∃ m, Runs.Steps (fun m l m' => m.step arm64Memory arm64Params (fun _ => 0) l = .ok m')
        (init 0 arm64Front) (programRun (2 ^ 64 - 64 - 0x70000000) 128) m ∧
      m.touched = [(2 ^ 64 - 64, 128)] ∧
      ¬ 2 ^ 64 - 64 < arm64Memory.pimVregAddr + arm64Memory.pimVregSize := by
  have hrun : (Runs.exec (Runs.succeed (step arm64Memory arm64Params fun _ => 0))
      (init 0 arm64Front) (programRun (2 ^ 64 - 64 - 0x70000000) 128)).map touched =
        some [(2 ^ 64 - 64, 128)] := by decide +kernel
  obtain ⟨m, hm, htouched⟩ := Option.map_eq_some_iff.mp hrun
  refine ⟨m, ?_, htouched, by decide⟩
  exact ((Runs.steps_iff_exec _ _ _ _).mpr hm).mono fun _ _ _ hnext => Runs.next_succeed.mp hnext

end PimMemory

end SmcPim
