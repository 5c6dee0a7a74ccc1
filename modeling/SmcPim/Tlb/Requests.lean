import SmcPim.Tlb.Accesses

/-! # The way of one request through the TLB -/

namespace SmcPim

open Except Except

def Packet.withCommand (pkt : Packet) (c : HmcCommand) (o : Nat) : Packet :=
  { pkt with atomicHmcCommand := c, atomicHmcOperand := o }

namespace Tlb

variable {p : Tlb.Params} {mem : Memory} {t : Tlb} {pkt : Packet} {n : Nat}

/-! ## The target of a packet -/

def Params.IsAtomic (p : Tlb.Params) (pkt : Packet) : Prop :=
  pkt.addr ≠ 0 ∧ (pkt.addr = p.hmcAtomicIncr ∨ pkt.addr = p.hmcAtomicFadd ∨
    pkt.addr = p.hmcAtomicImin) ∧ pkt.isWrite = true ∧ p.pimArch.ulong pkt.data ≠ 0

instance : Decidable (p.IsAtomic pkt) := inferInstanceAs (Decidable (_ ∧ _))

def Params.target (p : Tlb.Params) (pkt : Packet) : Nat :=
  if p.IsAtomic pkt then p.pimArch.ulong pkt.data else pkt.addr

lemma atomicCommand_spec {cmd : HmcCommand} {operand : Option Nat} {r : Option (Nat × Packet)}
    (haddr : pkt.addr ≠ 0)
    (hreg : pkt.addr = p.hmcAtomicIncr ∨ pkt.addr = p.hmcAtomicFadd ∨ pkt.addr = p.hmcAtomicImin)
    (hw : pkt.isWrite = true) (h : atomicCommand p cmd operand pkt = .ok r) :
    (r = none ∧ p.target pkt = pkt.addr) ∨
      ∃ c o, r = some (p.target pkt, pkt.withCommand c o) ∧ p.target pkt ≠ 0 := by
  unfold atomicCommand at h
  rw [bind_eq_ok] at h
  obtain ⟨_, -, h⟩ := h
  rw [bind_eq_ok] at h
  obtain ⟨_, -, h⟩ := h
  unfold Params.target
  split at h
  · rename_i hz
    rw [if_neg (fun ha : p.IsAtomic pkt => ha.2.2.2 hz)]
    exact .inl ⟨(ok.inj h).symm, rfl⟩
  · rename_i hz
    rw [if_pos ⟨haddr, hreg, hw, hz⟩]
    exact .inr ⟨_, _, (ok.inj h).symm, hz⟩

lemma hmcTarget_spec {r : Option (Nat × Packet)} (haddr : pkt.addr ≠ 0)
    (h : t.hmcTarget p pkt = .ok r) :
    (r = none ∧ p.target pkt = pkt.addr) ∨
      ∃ c o, r = some (p.target pkt, pkt.withCommand c o) ∧ p.target pkt ≠ 0 ∨
        r = some (0, pkt) ∧ p.target pkt = pkt.addr := by
  unfold hmcTarget at h
  split at h
  · rename_i hc
    rcases atomicCommand_spec haddr (.inl hc.1) hc.2 h with h | ⟨c, o, h⟩
    · exact .inl h
    · exact .inr ⟨c, o, .inl h⟩
  split at h
  · rename_i hc
    rcases atomicCommand_spec haddr (.inr (.inl hc.1)) hc.2 h with h | ⟨c, o, h⟩
    · exact .inl h
    · exact .inr ⟨c, o, .inl h⟩
  split at h
  · rename_i hc
    rcases atomicCommand_spec haddr (.inr (.inr hc.1)) hc.2 h with h | ⟨c, o, h⟩
    · exact .inl h
    · exact .inr ⟨c, o, .inl h⟩
  · rename_i h1 h2 h3
    refine .inr ⟨.nop, 0, .inr ⟨(ok.inj h).symm, if_neg ?_⟩⟩
    rintro ⟨-, hreg, hw, -⟩
    rcases hreg with hreg | hreg | hreg
    · exact h1 ⟨hreg, hw⟩
    · exact h2 ⟨hreg, hw⟩
    · exact h3 ⟨hreg, hw⟩

variable {x v : Nat} {t' : Tlb} {accept : Bool} {resp : Packet}

lemma checkHmcCommand_spec {pkt' : Packet} (h : t.checkHmcCommand p pkt = .ok (x, pkt', t')) :
    (if x ≠ 0 then x else pkt.addr) = p.target pkt ∧ (∃ c o, pkt' = pkt.withCommand c o) ∧
      ∃ o, t' = { t with hmcOperand := o } := by
  unfold checkHmcCommand at h
  split at h
  · rename_i hz
    rw [ok.injEq, Prod.mk.injEq, Prod.mk.injEq] at h
    obtain ⟨rfl, rfl, rfl⟩ := h
    exact ⟨(if_neg (fun ha : p.IsAtomic pkt => ha.1 hz)).symm, ⟨_, _, rfl⟩, _, rfl⟩
  · rename_i haddr
    rw [bind_eq_ok] at h
    obtain ⟨r, hr, h⟩ := h
    -- The register of the operand does not change what is returned.
    have hop : ∀ {y : Nat} {q : Packet},
        (if pkt.addr = p.hmcOperand ∧ pkt.isWrite = true then
          ok (y, q, { t with hmcOperand := pkt.data % 2 ^ 32 })
        else .ok (y, q, t) : Except Fault _) = .ok (x, pkt', t') →
        x = y ∧ pkt' = q ∧ ∃ o, t' = { t with hmcOperand := o } := by
      intro y q hq
      split at hq
      · rw [ok.injEq, Prod.mk.injEq, Prod.mk.injEq] at hq
        exact ⟨hq.1.symm, hq.2.1.symm, _, hq.2.2.symm⟩
      · rw [ok.injEq, Prod.mk.injEq, Prod.mk.injEq] at hq
        exact ⟨hq.1.symm, hq.2.1.symm, _, hq.2.2.symm⟩
    rcases hmcTarget_spec haddr hr with ⟨rfl, ht⟩ | ⟨c, o, ⟨rfl, ht⟩ | ⟨rfl, ht⟩⟩
    · rw [ok.injEq, Prod.mk.injEq, Prod.mk.injEq] at h
      obtain ⟨rfl, rfl, rfl⟩ := h
      exact ⟨ht.symm, ⟨_, _, rfl⟩, _, rfl⟩
    · obtain ⟨rfl, rfl, ho⟩ := hop h
      exact ⟨if_pos ht, ⟨_, _, rfl⟩, ho⟩
    · obtain ⟨rfl, rfl, ho⟩ := hop h
      exact ⟨ht.symm, ⟨_, _, rfl⟩, ho⟩

/-! ## A new packet -/

def SendsOn (p : Tlb.Params) (t : Tlb) (v : Nat) : Prop :=
  p.idealRefill = true ∨ t.remapCheck v ≠ noAddr

instance {v : Nat} : Decidable (SendsOn p t v) := inferInstanceAs (Decidable (_ ∨ _))

def translation (p : Tlb.Params) (mem : Memory) (now : Nat) (t : Tlb) (v : Nat) : Nat :=
  match t.remap now v with
  | .ok (a, t') =>
    if a = noAddr then
      (t'.updateTLB p now (readSlice p.pimArch mem (t'.entryAddr p v))).remapCheck v
    else a
  | .error _ => noAddr

lemma remap_operand (o v : Nat) :
    { t with hmcOperand := o }.remap n v =
      (t.remap n v).map fun r => (r.1, { r.2 with hmcOperand := o }) := by
  have hfind : { t with hmcOperand := o }.findRule v = t.findRule v := rfl
  unfold remap
  rw [hfind]
  rcases t.findRule v with _ | i
  · simp only
    split <;> rfl
  · simp only
    split <;> rfl

lemma remap_fst (h : t.remap n v = .ok (x, t')) : x = t.remapCheck v := by
  unfold remap at h
  unfold remapCheck
  rcases hf : t.findRule v with _ | i
  · rw [hf] at h
    simp only at h
    split at h
    · exact (Prod.mk.inj (ok.inj h)).1.symm
    · cases h
  · rw [hf] at h
    exact (Prod.mk.inj (ok.inj h)).1.symm

lemma refillNow_ok {msg : String} (h : t.refillNow msg p mem n v = .ok t') :
    t' = t.updateTLB p n (readSlice p.pimArch mem (t.entryAddr p v)) := by
  unfold refillNow at h
  rw [bind_eq_ok] at h
  obtain ⟨_, -, h⟩ := h
  split at h
  · cases h
  · exact (ok.inj h).symm

lemma recvTimingReq_new {r : TimingReq} (hnew : pkt.isRemapped = false)
    (hreg : ¬ isRefillRegister p pkt) (h : t.recvTimingReq p mem n pkt accept = .ok r) :
    ∃ c o, (¬ SendsOn p t (p.target pkt) ∧ r.successful = false ∧ r.offered = none ∧
        r.pkt = pkt.withCommand c o) ∨
      (SendsOn p t (p.target pkt) ∧ ∃ t' : Tlb, r = t'.sendTimingReq
        ((pkt.withCommand c o).remappedTo (translation p mem n t (p.target pkt)))
        (p.target pkt) accept) := by
  unfold recvTimingReq at h
  rw [if_neg hreg, if_neg (by simp [hnew]), bind_eq_ok] at h
  obtain ⟨⟨x, pkt', t1⟩, hcheck, h⟩ := h
  obtain ⟨htarget, ⟨c, o, rfl⟩, op, rfl⟩ := checkHmcCommand_spec hcheck
  simp only at h
  rw [htarget, bind_eq_ok] at h
  obtain ⟨⟨a, t2⟩, hremap, h⟩ := h
  rw [remap_operand] at hremap
  rcases hr : t.remap n (p.target pkt) with e | ⟨a', t'⟩
  · rw [hr] at hremap
    exact absurd hremap (by simp [Except.map])
  rw [hr] at hremap
  obtain ⟨rfl, rfl⟩ := Prod.mk.inj (Except.ok.inj hremap)
  have hcheck' := remap_fst hr
  refine ⟨c, o, ?_⟩
  simp only at h
  split at h
  · rename_i hmiss
    split at h
    · rename_i hideal
      refine .inr ⟨.inl hideal, ?_⟩
      rw [bind_eq_ok] at h
      obtain ⟨t3, hrefill, h⟩ := h
      rw [bind_eq_ok] at h
      obtain ⟨⟨a2, t4⟩, hremap2, h⟩ := h
      simp only at h
      rw [bind_eq_ok] at h
      obtain ⟨_, -, h⟩ := h
      have ha2 := remap_fst hremap2
      rw [refillNow_ok hrefill, updateTLB_operand] at ha2
      refine ⟨t4, ?_⟩
      rw [translation, hr]
      simp only
      rw [if_pos hmiss, ← ok.inj h, ha2]
      rfl
    · rename_i hideal
      rw [bind_eq_ok] at h
      obtain ⟨⟨t3, refill⟩, -, h⟩ := h
      have hr := ok.inj h
      refine .inl ⟨?_, by rw [← hr], by rw [← hr], by rw [← hr]⟩
      rintro (hi | hi)
      · exact hideal hi
      · exact hi (hcheck' ▸ hmiss)
  · rename_i hhit
    refine .inr ⟨.inr (hcheck' ▸ hhit), { t' with hmcOperand := op }, ?_⟩
    rw [translation, hr]
    simp only
    rw [if_neg hhit]
    exact (ok.inj h).symm

/-! ## A request and its response -/

structure Attempt where
  tlb : Tlb
  now : Nat
  accept : Bool

/-- A requester sends its packet until it is taken, and the memory answers. -/
def roundTrip (p : Tlb.Params) (mem : Memory) : Packet → List Attempt → Except Fault (Option Packet)
  | _, [] => .ok none
  | pkt, a :: as => do
    let r ← a.tlb.recvTimingReq p mem a.now pkt a.accept
    if r.successful then .ok (r.offered.bind restore) else roundTrip p mem r.pkt as

lemma restore_sendTimingReq (hresp : pkt.needsResponse = true)
    (hinh : pkt.memInhibitAsserted = false) (v : Nat) :
    (t.sendTimingReq pkt v true).offered.bind restore = some { pkt with addr := v } := by
  unfold sendTimingReq
  dsimp only
  rw [if_pos ⟨hresp, by simp [hinh]⟩]
  rfl

lemma sendTimingReq_refused (hresp : pkt.needsResponse = true)
    (hinh : pkt.memInhibitAsserted = false) (v : Nat) :
    (t.sendTimingReq pkt v false).pkt = pkt := by
  unfold sendTimingReq
  dsimp only
  rw [if_pos ⟨by simp, hresp⟩, if_pos ⟨hresp, by simp [hinh]⟩]
  rfl

lemma recvTimingReq_remapped (hrem : pkt.isRemapped = true) (hreg : ¬ isRefillRegister p pkt)
    (accept : Bool) :
    t.recvTimingReq p mem n pkt accept = .ok (t.sendTimingReq pkt pkt.addr accept) := by
  unfold recvTimingReq
  rw [if_neg hreg, if_pos hrem]

lemma recvTimingReq_register {r : TimingReq} (hreg : isRefillRegister p pkt)
    (h : t.recvTimingReq p mem n pkt accept = .ok r) : r.successful = true ∧ r.offered = none := by
  unfold recvTimingReq at h
  rw [if_pos hreg, bind_eq_ok] at h
  obtain ⟨_, -, h⟩ := h
  rw [bind_eq_ok] at h
  obtain ⟨_, -, h⟩ := h
  split at h
  · cases h
  · rw [bind_eq_ok] at h
    obtain ⟨_, -, h⟩ := h
    rw [← ok.inj h]
    exact ⟨rfl, rfl⟩

lemma roundTrip_remapped (as : List Attempt) (hrem : pkt.isRemapped = true)
    (hresp : pkt.needsResponse = true) (hinh : pkt.memInhibitAsserted = false)
    (h : roundTrip p mem pkt as = .ok (some resp)) : resp.addr = pkt.addr := by
  induction as with
  | nil => exact absurd h (by simp [roundTrip])
  | cons a as ih =>
    unfold roundTrip at h
    rw [bind_eq_ok] at h
    obtain ⟨r, hr, h⟩ := h
    by_cases hreg : isRefillRegister p pkt
    · -- The physical address is that of the refill register: the packet goes no further.
      obtain ⟨hsucc, hoff⟩ := recvTimingReq_register hreg hr
      rw [if_pos hsucc, hoff] at h
      cases h
    · rw [recvTimingReq_remapped hrem hreg] at hr
      rw [← ok.inj hr] at h
      rcases ha : a.accept with _ | _
      · rw [ha, sendTimingReq_refused hresp hinh] at h
        exact ih h
      · rw [ha, restore_sendTimingReq hresp hinh] at h
        rw [← Option.some.inj (ok.inj h)]

def firstSent (p : Tlb.Params) (pkt : Packet) (as : List Attempt) : Option Attempt :=
  as.find? fun a => SendsOn p a.tlb (p.target pkt)

lemma roundTrip_addr (as : List Attempt) (hnew : pkt.isRemapped = false)
    (hreg : ¬ isRefillRegister p pkt) (hresp : pkt.needsResponse = true)
    (hinh : pkt.memInhibitAsserted = false) (h : roundTrip p mem pkt as = .ok (some resp)) :
    ∃ a, firstSent p pkt as = some a ∧
      resp.addr = if a.accept then p.target pkt
        else translation p mem a.now a.tlb (p.target pkt) := by
  induction as generalizing pkt with
  | nil => exact absurd h (by simp [roundTrip])
  | cons a as ih =>
    unfold roundTrip at h
    rw [bind_eq_ok] at h
    obtain ⟨r, hr, h⟩ := h
    unfold firstSent
    rcases recvTimingReq_new hnew hreg hr with ⟨c, o, ⟨hno, hsucc, -, hpkt⟩ | ⟨hyes, t', rfl⟩⟩
    · rw [List.find?_cons_of_neg (by simpa using hno)]
      rw [hsucc, hpkt] at h
      exact @ih (pkt.withCommand c o) hnew hreg hresp hinh h
    · rw [List.find?_cons_of_pos (by simpa using hyes)]
      refine ⟨a, rfl, ?_⟩
      have hresp' : ((pkt.withCommand c o).remappedTo
        (translation p mem a.now a.tlb (p.target pkt))).needsResponse = true := hresp
      have hinh' : ((pkt.withCommand c o).remappedTo
        (translation p mem a.now a.tlb (p.target pkt))).memInhibitAsserted = false := hinh
      rcases ha : a.accept with _ | _
      · rw [ha, sendTimingReq_refused hresp' hinh'] at h
        exact roundTrip_remapped as rfl hresp' hinh' h
      · rw [ha, restore_sendTimingReq hresp' hinh'] at h
        rw [← Option.some.inj (ok.inj h)]
        rfl

/-- The response carries the address of the request when the packet is taken as it is first sent
on. -/
theorem response_addr_iff (p : Tlb.Params) (mem : Memory) (pkt resp : Packet) (as : List Attempt)
    (hnew : pkt.isRemapped = false) (hreg : ¬ isRefillRegister p pkt)
    (hresp : pkt.needsResponse = true) (hinh : pkt.memInhibitAsserted = false)
    (h : roundTrip p mem pkt as = .ok (some resp)) :
    resp.addr = pkt.addr ↔ ∃ a, firstSent p pkt as = some a ∧
      ((a.accept = true ∧ p.target pkt = pkt.addr) ∨
        (a.accept = false ∧ translation p mem a.now a.tlb (p.target pkt) = pkt.addr)) := by
  obtain ⟨a, hfirst, haddr⟩ := roundTrip_addr as hnew hreg hresp hinh h
  rw [haddr, hfirst]
  rcases ha : a.accept with _ | _
  · simp [ha]
  · simp [ha]

def spmRead : Packet := ⟨0x1000, 4, false, true, false, 0, false, .nop, 0, []⟩

def spmIncr : Packet := ⟨0x200, 4, true, true, false, 0x1000, false, .nop, 0, []⟩

theorem response_addr_iff_taken :
    ∃ resp, roundTrip .dtlb (fun _ => 0) spmRead [⟨Params.dtlb.create, 5, true⟩] =
        .ok (some resp) ∧ resp.addr = spmRead.addr := by
  refine ⟨_, rfl, ?_⟩
  rw [response_addr_iff .dtlb (fun _ => 0) spmRead _ [⟨Params.dtlb.create, 5, true⟩] rfl (by decide)
    rfl rfl rfl]
  exact ⟨_, rfl, .inl ⟨rfl, rfl⟩⟩

theorem response_addr_changes :
    (∃ resp, roundTrip .dtlb (fun _ => 0) spmRead
        [⟨Params.dtlb.create, 5, false⟩, ⟨Params.dtlb.create, 6, true⟩] = .ok (some resp) ∧
      resp.addr ≠ spmRead.addr) ∧
    ∃ resp, roundTrip .dtlb (fun _ => 0) spmIncr [⟨Params.dtlb.create, 5, true⟩] =
        .ok (some resp) ∧ resp.addr ≠ spmIncr.addr :=
  ⟨⟨_, rfl, by decide⟩, _, rfl, by decide⟩

end Tlb

end SmcPim
