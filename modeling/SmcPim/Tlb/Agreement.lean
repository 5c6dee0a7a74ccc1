import SmcPim.Tlb.EndToEnd
import SmcPim.Tlb.Requests

/-! # Atomic and timing accesses -/

namespace SmcPim.Tlb

variable {p : Tlb.Params} {mem : Memory} {T : Table p mem} {t : Tlb} {pkt : Packet} {n : Nat}

def Agree (T : Table p mem) (now : Nat) (t : Tlb) (pkt : Packet) (accept : Bool) : Prop :=
  ∃ t₁ q₁ r q₂, t.recvAtomic p mem now pkt = .ok (t₁, some q₁) ∧
    t.recvTimingReq p mem now pkt accept = .ok r ∧ r.offered = some q₂ ∧
    q₁.addr = T.phys (p.target pkt) ∧ q₂.addr = T.phys (p.target pkt)

lemma sendTimingReq_offered (t : Tlb) (pkt : Packet) (v : Nat) (accept : Bool) :
    ∃ q, (t.sendTimingReq pkt v accept).offered = some q ∧ q.addr = pkt.addr := by
  unfold sendTimingReq
  dsimp only
  split
  · exact ⟨_, rfl, rfl⟩
  · exact ⟨_, rfl, rfl⟩

/-! ## Commands -/

lemma atomicCommand_ok (cmd : HmcCommand) (operand : Option Nat) (ha : p.IsAtomic pkt)
    (hsize : pkt.size = p.pimArch.bits / 8) (hword : p.target pkt ≠ noAddr) :
    ∃ o, atomicCommand p cmd operand pkt = .ok (some (p.target pkt, pkt.withCommand cmd o)) := by
  have htarget : p.target pkt = p.pimArch.ulong pkt.data := if_pos ha
  unfold atomicCommand
  rw [htarget] at hword ⊢
  rw [assert_ok hsize, assert_ok hword, if_neg ha.2.2.2]
  exact ⟨_, rfl⟩

lemma hmcTarget_ok (ha : p.IsAtomic pkt) (hsize : pkt.size = p.pimArch.bits / 8)
    (hword : p.target pkt ≠ noAddr) :
    ∃ c o, t.hmcTarget p pkt = .ok (some (p.target pkt, pkt.withCommand c o)) := by
  unfold hmcTarget
  split
  · exact ⟨_, atomicCommand_ok .inc none ha hsize hword⟩
  split
  · exact ⟨_, atomicCommand_ok .fadd (some t.hmcOperand) ha hsize hword⟩
  split
  · exact ⟨_, atomicCommand_ok .min (some t.hmcOperand) ha hsize hword⟩
  · rename_i h1 h2 h3
    obtain ⟨-, hreg, hw, -⟩ := ha
    rcases hreg with hreg | hreg | hreg
    · exact absurd ⟨hreg, hw⟩ h1
    · exact absurd ⟨hreg, hw⟩ h2
    · exact absurd ⟨hreg, hw⟩ h3

lemma target_ne_zero (ha : p.IsAtomic pkt) : p.target pkt ≠ 0 := by
  rw [Params.target, if_pos ha]
  exact ha.2.2.2

lemma checkHmcCommand_atomic (ha : p.IsAtomic pkt) (hsize : pkt.size = p.pimArch.bits / 8)
    (hword : p.target pkt ≠ noAddr) :
    ∃ c o op, t.checkHmcCommand p pkt =
      .ok (p.target pkt, pkt.withCommand c o, { t with hmcOperand := op }) := by
  obtain ⟨c, o, h⟩ := hmcTarget_ok (t := t) ha hsize hword
  unfold checkHmcCommand
  rw [if_neg ha.1, h]
  simp only [Bind.bind, Except.bind]
  split
  · exact ⟨c, o, _, rfl⟩
  · exact ⟨c, o, t.hmcOperand, rfl⟩

section Commands

variable (h : Ok T t) (ha : p.IsAtomic pkt) (hreg : ¬ isRefillRegister p pkt)
  (hsize : pkt.size = p.pimArch.bits / 8) (hword : p.target pkt ≠ noAddr)
  (hv : T.region (p.target pkt))

include h ha hreg hsize hword hv

lemma Ok.agree_of_resident (hnew : pkt.isRemapped = false) (hres : t.Resident (p.target pkt))
    (now : Nat) (accept : Bool) : Agree T now t pkt accept := by
  obtain ⟨c, o, op, hcheck⟩ := checkHmcCommand_atomic (t := t) ha hsize hword
  have hphys := h.remapCheck_of_resident hv hres
  obtain ⟨t₁, hremap, -⟩ := h.asks_remap op now (p.target pkt)
  have hasks : Asks p t pkt (p.target pkt) (pkt.withCommand c o) op :=
    ⟨hreg, hnew, _, hcheck, if_pos (target_ne_zero ha)⟩
  obtain ⟨t2, htiming, -⟩ := h.asks_hits (n := now) hasks (hphys ▸ phys_ne_noAddr hv) accept
  rw [hphys] at hremap htiming
  obtain ⟨q, hoff, hq⟩ := sendTimingReq_offered t2
    ((pkt.withCommand c o).remappedTo (T.phys (p.target pkt))) (p.target pkt) accept
  refine ⟨t₁, { pkt.withCommand c o with addr := T.phys (p.target pkt) }, _, q, ?_, htiming, hoff,
    rfl, hq⟩
  unfold recvAtomic
  rw [if_neg hreg, hcheck]
  simp only [Bind.bind, Except.bind]
  rw [if_neg (target_ne_zero ha), hremap]
  simp only
  rw [if_neg (phys_ne_noAddr hv)]

lemma Ok.recvAtomic_faults (hstart : p.originalRange.start = 0)
    (hstatic : p.originalRange.contains pkt.addr = true) (hres : ¬ t.Resident (p.target pkt))
    (now : Nat) : t.recvAtomic p mem now pkt = .error (.assertion "addr >= PIM_SLICEVSTART") := by
  obtain ⟨c, o, op, hcheck⟩ := checkHmcCommand_atomic (t := t) ha hsize hword
  have hok := h.withOperand op
  obtain ⟨t₁, hremap, hok1, -⟩ := hok.remap_eq now (p.target pkt)
  rw [remapCheck_of_not_resident hok.remapped hres] at hremap
  have hbelow : ¬ t₁.pimSlicevstart ≤ pkt.addr := by
    rw [hok1.vstart]
    intro hle
    rw [AddrRange.contains, decide_eq_true_iff] at hstatic
    have hvs := T.static T.vstart (le_refl _) (lt_of_le_of_lt hv.1 hv.2)
    rw [AddrRange.contains, decide_eq_false_iff_not] at hvs
    omega
  unfold recvAtomic
  rw [if_neg hreg, hcheck]
  simp only [Bind.bind, Except.bind]
  rw [if_neg (target_ne_zero ha), hremap]
  simp only [if_true]
  rw [refillTLBAtomic, refillNow, assert, if_neg hbelow]
  rfl

end Commands

/-! ## All accesses -/

lemma Ok.agree_of_plain (h : Ok T t) (hsize : 2 ≤ p.tlbSize) (hideal : p.idealRefill = true)
    (hpend : t.pendingRefills = []) (hnew : pkt.isRemapped = false) (ha : ¬ p.IsAtomic pkt)
    (hv : T.region (p.target pkt)) (now : Nat) (accept : Bool) : Agree T now t pkt accept := by
  have htarget : p.target pkt = pkt.addr := if_neg ha
  have hno : t.entryAddr p pkt.addr ∉ t.pendingRefills := by rw [hpend]; simp
  rw [htarget] at hv
  obtain ⟨t₁, hatomic, -⟩ := h.recvAtomic_forwards (n := now) hsize hv (.inr hno)
  obtain ⟨t2, htiming, -⟩ := h.recvTimingReq_forwards (n := now) hsize hv hnew
    (.inr ⟨hideal, hno⟩) accept
  obtain ⟨q, hoff, hq⟩ := sendTimingReq_offered t2
    (pkt.remappedTo (T.phys pkt.addr)) pkt.addr accept
  refine ⟨t₁, _, _, q, hatomic, htiming, hoff, ?_, ?_⟩
  · rw [htarget]
  · rw [htarget]
    exact hq

/-- With ideal refills the two paths agree but for HMC commands whose target misses. -/
theorem atomic_agrees_with_timing_iff (T : Table p mem) (t : Tlb) (pkt : Packet) (now : Nat)
    (accept : Bool) (hok : Ok T t) (hsize : 2 ≤ p.tlbSize) (hideal : p.idealRefill = true)
    (hpend : t.pendingRefills = []) (hstart : p.originalRange.start = 0)
    (hregs : ∀ r ∈ p.registers, p.originalRange.contains r = true)
    (hnew : pkt.isRemapped = false) (hreg : ¬ isRefillRegister p pkt)
    (hword : p.IsAtomic pkt → pkt.size = p.pimArch.bits / 8 ∧ p.target pkt ≠ noAddr)
    (hv : T.region (p.target pkt)) :
    Agree T now t pkt accept ↔ (p.IsAtomic pkt → t.Resident (p.target pkt)) := by
  constructor
  · rintro ⟨t₁, q₁, -, -, hatomic, -⟩ ha
    by_contra hres
    have hstatic : p.originalRange.contains pkt.addr = true := by
      apply hregs
      rcases ha.2.1 with hr | hr | hr <;> simp [Params.registers, hr]
    rw [hok.recvAtomic_faults ha hreg (hword ha).1 (hword ha).2 hv hstart hstatic hres] at hatomic
    exact absurd hatomic (by simp)
  · intro hres
    by_cases ha : p.IsAtomic pkt
    · exact hok.agree_of_resident ha hreg (hword ha).1 (hword ha).2 hv hnew (hres ha) now accept
    · exact hok.agree_of_plain hsize hideal hpend hnew ha hv now accept

theorem atomic_agrees_on_first_read :
    Agree defaultOffload.table 5 defaultOffload.tlb ⟨0x10000040, 4, false, true, false, 0, false, .nop, 0, []⟩
      true := by
  refine (atomic_agrees_with_timing_iff defaultOffload.table defaultOffload.tlb _ 5 true defaultOffload.front_inv.tlb
    (by decide) rfl rfl rfl (by decide) rfl (by decide) (by decide) ⟨by decide, by decide⟩).mpr ?_
  intro ha
  exact absurd ha (by decide)

def pageIncr : Packet := ⟨0x200, 4, true, true, false, 0x10000040, false, .nop, 0, []⟩

/-- The timing path refills for an increment, the atomic path stops at an assertion. -/
theorem atomic_increment_faults :
    (defaultOffload.tlb.recvTimingReq .dtlb defaultOffload.published.mem 5 pageIncr true).map
      (fun r => r.offered.map Packet.addr) = .ok (some 0x80005040) ∧
    defaultOffload.tlb.recvAtomic .dtlb defaultOffload.published.mem 5 pageIncr =
      .error (.assertion "addr >= PIM_SLICEVSTART") ∧
    ¬ Agree defaultOffload.table 5 defaultOffload.tlb pageIncr true := by
  have hfault : defaultOffload.tlb.recvAtomic .dtlb defaultOffload.published.mem 5 pageIncr =
      .error (.assertion "addr >= PIM_SLICEVSTART") := rfl
  refine ⟨by rfl, hfault, ?_⟩
  rintro ⟨t₁, q₁, -, -, hatomic, -⟩
  rw [hfault] at hatomic
  exact absurd hatomic (by simp)

end SmcPim.Tlb
