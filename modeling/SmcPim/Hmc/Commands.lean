import SmcPim.Hmc.Model
import SmcPim.Tlb.Requests

/-! # What a sequence of HMC commands does to memory -/

namespace SmcPim.Hmc

open List Tlb

open Bytes (load store InWord)
open Tlb (Table Ok Front)

variable {p : Tlb.Params} {ranges : List AddrRange} {m m₀ : ℕ → UInt8}
  {T : Table p (words p m₀)} {t : Tlb} {refills : List ℕ} {c : Command} {o : ℕ} {s : System}

/-! ## The commands that are performed -/

/-- The registers are distinct, and rule 0 maps that of the operand. -/
structure Wired (p : Tlb.Params) : Prop where
  arch : p.pimArch = .arm
  size : 2 ≤ p.tlbSize
  registers : p.registers.Nodup
  nonzero : 0 ∉ p.registers.tail
  static : p.originalRange.contains p.hmcOperand = true
  operand : staticAddr p p.hmcOperand ≠ noAddr

structure Plain (ranges : List AddrRange) (T : Table p (words p m₀)) (x : ℕ) : Prop where
  register : ¬ (p.pimDtlbIdealRefillReg ≠ 0 ∧ x = p.pimDtlbIdealRefillReg)
  memory : ∃ r, ranges.find? (·.contains x) = some r ∧ x + 3 ≤ r.last
  table : ∀ b, InWord 4 x b → ¬ (T.ptr ≤ b ∧ b < T.ptr + T.pages * p.length)

def Command.InRegion (T : Table p (words p m₀)) : Command → Prop
  | .operand _ => True
  | .incr target => T.region target.toNat ∧ target ≠ 0
  | .imin target => T.region target.toNat ∧ target ≠ 0

structure Command.Fine (ranges : List AddrRange) (T : Table p (words p m₀)) (c : Command) :
    Prop where
  target : c.InRegion T
  word : Plain ranges T (c.word T)

/-! ## What memory does with a command -/

def Command.next (o : ℕ) : Command → ℕ
  | .operand value => value.toNat
  | _ => o

lemma perform_operand (x : Spec) : (c.perform T x).operand = c.next x.operand := by
  rcases c with _ | _ | _ <;> rfl

variable {x : Spec} {b : ℕ} {pkt : Packet} {target : UInt32}

lemma perform_other (h : ¬ InWord 4 (c.word T) b) : (c.perform T x).mem b = x.mem b := by
  rcases c with _ | _ | _ <;> exact Bytes.store_other h

lemma performAll_snoc (x : Spec) (cs : List Command) :
    performAll T x (cs ++ [c]) = c.perform T (performAll T x cs) := by
  rw [performAll, foldl_append]
  rfl

/-- The packet of a command as the TLB sends it on: with the command it stands for. -/
def Command.sent (p : Tlb.Params) (o : ℕ) (c : Command) : Packet :=
  match c with
  | .operand _ => c.packet p
  | .incr _ => (c.packet p).withCommand .inc 0
  | .imin _ => (c.packet p).withCommand .min o

def Command.offered (T : Table p (words p m₀)) (o : ℕ) (states : List SenderState) (c : Command) :
    Packet :=
  { (c.sent p o).remappedTo (c.word T) with senderState := states }

lemma offered_fields (c : Command) (states : List SenderState) :
    (c.offered T o states).addr = c.word T ∧ (c.offered T o states).size = 4 ∧
      (c.offered T o states).isWrite = true ∧
      (c.offered T o states).memInhibitAsserted = false := by
  rcases c with _ | _ | _ <;> exact ⟨rfl, rfl, rfl, rfl⟩

lemma atomicAccess_offered (x : Spec) (states : List SenderState) :
    atomicAccess x.mem (c.offered T x.operand states) = .ok (c.perform T x).mem := by
  rcases c with value | target | target
  · rfl
  · rfl
  · set a := T.phys target.toNat
    change (if x.operand % 2 ^ 32 < load 4 x.mem a then
        Except.ok (store 4 x.mem a (x.operand % 2 ^ 32)) else .ok x.mem) =
      .ok (store 4 x.mem a (min (load 4 x.mem a) (x.operand % 2 ^ 32)))
    split
    · rename_i hlt
      rw [Nat.min_eq_right hlt.le]
    · rename_i hge
      rw [Nat.min_eq_left (not_lt.mp hge), Bytes.store_load]

lemma deliver_offered (hword : Plain ranges T (c.word T)) (x : Spec) (states : List SenderState) :
    deliver ranges x.mem (c.offered T x.operand states) = .ok (c.perform T x).mem := by
  obtain ⟨haddr, hsize, hwrite, hinh⟩ := offered_fields (T := T) (o := x.operand) c states
  obtain ⟨r, hfind, hlast⟩ := hword.memory
  have hcont := find?_some hfind
  rw [AddrRange.contains, decide_eq_true_iff] at hcont
  have hin : r.start ≤ c.word T ∧ addr64 (c.word T + 4 - 1) ≤ r.last :=
    ⟨hcont.1, (Nat.mod_le _ _).trans hlast⟩
  unfold deliver access
  rw [haddr, hsize, hwrite, hinh, hfind]
  dsimp only
  rw [assert_ok hin, ok_bind, if_neg (by simp), if_pos rfl]
  exact atomicAccess_offered x states

/-! ## What the TLB does with a command -/

def Command.asked (p : Tlb.Params) : Command → ℕ
  | .operand _ => p.hmcOperand
  | .incr target => target.toNat
  | .imin target => target.toNat

lemma ulong_arm (x : UInt32) : Arch.arm.ulong x.toNat = x.toNat := Nat.mod_eq_of_lt x.toNat_lt

lemma atomicCommand_target (hw : Wired p) (hsize : pkt.size = 4)
    (hdata : pkt.data = target.toNat) (hne : target ≠ 0) (cmd : HmcCommand) (operand : Option ℕ) :
    atomicCommand p cmd operand pkt =
      .ok (some (target.toNat, pkt.withCommand cmd (operand.getD pkt.atomicHmcOperand))) := by
  have hlt := target.toNat_lt
  have hnz : target.toNat ≠ 0 := fun h => hne (UInt32.toNat_inj.mp h)
  unfold atomicCommand
  rw [hw.arch, show Arch.arm.ulong pkt.data = target.toNat from hdata ▸ ulong_arm target, assert_ok (show pkt.size = Arch.arm.bits / 8 from hsize), ok_bind,
    assert_ok (by unfold noAddr; omega), ok_bind, if_neg hnz]
  rfl

lemma Wired.apart (hw : Wired p) :
    (p.hmcAtomicIncr ≠ 0 ∧ p.hmcAtomicImin ≠ 0 ∧ p.hmcOperand ≠ 0) ∧
      (p.hmcAtomicIncr ≠ p.pimDtlbIdealRefillReg ∧ p.hmcAtomicImin ≠ p.pimDtlbIdealRefillReg ∧
        p.hmcOperand ≠ p.pimDtlbIdealRefillReg) ∧
      p.hmcAtomicIncr ≠ p.hmcOperand ∧ p.hmcAtomicImin ≠ p.hmcOperand ∧
      p.hmcAtomicImin ≠ p.hmcAtomicIncr ∧ p.hmcAtomicImin ≠ p.hmcAtomicFadd ∧
      p.hmcOperand ≠ p.hmcAtomicFadd := by
  have hdist := hw.registers
  have hnz := hw.nonzero
  simp only [Tlb.Params.registers, nodup_cons, mem_cons, not_mem_nil, not_or,
    or_false, tail_cons] at hdist hnz
  omega

lemma checkHmcCommand_operand (hw : Wired p) (haddr : pkt.addr = p.hmcOperand)
    (hwrite : pkt.isWrite = true) :
    t.checkHmcCommand p pkt = .ok (0, pkt, { t with hmcOperand := pkt.data % 2 ^ 32 }) := by
  obtain ⟨⟨-, -, hnz⟩, -, hincr, himin, -, -, hfadd⟩ := hw.apart
  unfold checkHmcCommand hmcTarget
  rw [haddr, if_neg hnz, if_neg fun h => hincr h.1.symm, if_neg fun h => hfadd h.1,
    if_neg fun h => himin h.1.symm, ok_bind]
  dsimp only
  rw [if_pos ⟨rfl, hwrite⟩]

lemma checkHmcCommand_incr (hw : Wired p) (haddr : pkt.addr = p.hmcAtomicIncr)
    (hwrite : pkt.isWrite = true) (hsize : pkt.size = 4) (hdata : pkt.data = target.toNat)
    (hne : target ≠ 0) :
    t.checkHmcCommand p pkt = .ok (target.toNat, pkt.withCommand .inc pkt.atomicHmcOperand, t) := by
  obtain ⟨⟨hnz, -⟩, -, hop, -⟩ := hw.apart
  unfold checkHmcCommand hmcTarget
  rw [haddr, if_neg hnz, if_pos ⟨rfl, hwrite⟩, atomicCommand_target hw hsize hdata hne, ok_bind]
  dsimp only
  rw [if_neg fun h => hop h.1]
  rfl

lemma checkHmcCommand_imin (hw : Wired p) (haddr : pkt.addr = p.hmcAtomicImin)
    (hwrite : pkt.isWrite = true) (hsize : pkt.size = 4)
    (hdata : pkt.data = target.toNat) (hne : target ≠ 0) :
    t.checkHmcCommand p pkt = .ok (target.toNat, pkt.withCommand .min t.hmcOperand, t) := by
  obtain ⟨⟨-, hnz, -⟩, -, -, hop, hincr, hfadd, -⟩ := hw.apart
  unfold checkHmcCommand hmcTarget
  rw [haddr, if_neg hnz, if_neg fun h => hincr h.1, if_neg fun h => hfadd h.1,
    if_pos ⟨rfl, hwrite⟩, atomicCommand_target hw hsize hdata hne, ok_bind]
  dsimp only
  rw [if_neg fun h => hop h.1]
  rfl

lemma Command.InRegion.asks (hc : c.InRegion T) (hw : Wired p) (hop : t.hmcOperand = o)
    (hpkt : pkt = c.packet p ∨ pkt = c.sent p o) :
    Tlb.Asks p t pkt (c.asked p) (c.sent p o) (c.next o) := by
  obtain ⟨-, ⟨hincr, himin, hoperand⟩, -⟩ := hw.apart
  subst hop
  rcases c with value | target | target
  · obtain rfl : pkt = Command.packet p (.operand value) := hpkt.elim id id
    refine ⟨fun hreg => hoperand hreg.2, rfl, 0, ?_, rfl⟩
    rw [checkHmcCommand_operand hw rfl rfl]
    have hval : value.toNat % 2 ^ 32 = value.toNat := Nat.mod_eq_of_lt value.toNat_lt
    change Except.ok (0, _, { t with hmcOperand := value.toNat % 2 ^ 32 }) = _
    rw [hval]
    rfl
  · have hnz : target.toNat ≠ 0 := fun h => hc.2 (UInt32.toNat_inj.mp h)
    rcases hpkt with rfl | rfl <;>
      exact ⟨fun hreg => hincr hreg.2, rfl, target.toNat,
        checkHmcCommand_incr hw rfl rfl rfl rfl hc.2, if_pos hnz⟩
  · have hnz : target.toNat ≠ 0 := fun h => hc.2 (UInt32.toNat_inj.mp h)
    rcases hpkt with rfl | rfl <;>
      exact ⟨fun hreg => himin hreg.2, rfl, target.toNat,
        checkHmcCommand_imin hw rfl rfl rfl rfl hc.2, if_pos hnz⟩

lemma remapCheck_static (h : Ok T t) {v : ℕ} (hv : p.originalRange.contains v = true) :
    t.remapCheck v = staticAddr p v := by
  obtain ⟨dyn, hrules, -⟩ := h.rules
  obtain ⟨r, rs, hr⟩ := exists_cons_of_ne_nil
    (show t.originalRanges ≠ [] by rintro he; simp [rules, he] at hrules)
  obtain ⟨q, qs, hq⟩ := exists_cons_of_ne_nil
    (show t.remappedRanges ≠ [] by rintro he; simp [rules, he] at hrules)
  rw [rules, hr, hq, zip_cons_cons, cons.injEq, Prod.mk.injEq] at hrules
  obtain ⟨⟨rfl, rfl⟩, -⟩ := hrules
  unfold remapCheck findRule offsetIn
  rw [hr, hq, findIdx?_cons, if_pos hv]
  rfl

def Command.Hits (t : Tlb) : Command → Prop
  | .operand _ => True
  | .incr target => t.Resident target.toNat
  | .imin target => t.Resident target.toNat

lemma hits_of_resident (h : t.Resident (c.asked p)) : c.Hits t := by
  rcases c with value | target | target
  · trivial
  · exact h
  · exact h

lemma Command.InRegion.remapCheck_asked (hc : c.InRegion T) (hw : Wired p) (h : Ok T t)
    (hhit : c.Hits t) : t.remapCheck (c.asked p) = c.word T := by
  rcases c with value | target | target
  · exact remapCheck_static h hw.static
  · exact h.remapCheck_of_resident hc.1 hhit
  · exact h.remapCheck_of_resident hc.1 hhit

lemma Command.InRegion.word_ne (hc : c.InRegion T) (hw : Wired p) : c.word T ≠ noAddr := by
  rcases c with value | target | target
  · exact hw.operand
  · exact phys_ne_noAddr hc.1
  · exact phys_ne_noAddr hc.1

lemma Command.InRegion.misses (hc : c.InRegion T) (hmiss : ¬ c.Hits t) :
    T.region (c.asked p) ∧ ¬ t.Resident (c.asked p) ∧ c.word T = T.phys (c.asked p) ∧
      c.next o = o := by
  rcases c with value | target | target
  · exact absurd trivial hmiss
  · exact ⟨hc.1, hmiss, rfl, rfl⟩
  · exact ⟨hc.1, hmiss, rfl, rfl⟩

section Requests

variable (hw : Wired p) (h : Front.Inv T ⟨t, refills, []⟩) (hf : c.Fine ranges T)
  (hop : t.hmcOperand = o) {pkt : Packet} (hpkt : pkt = c.packet p ∨ pkt = c.sent p o)

include hw h hf hop hpkt

lemma recvTimingReq_sends (hsame : Tlb.SameEntries p T.ptr T.pages (words p m₀) (words p m))
    (hcase : c.Hits t ∨ p.idealRefill = true) (now : ℕ) (accept : Bool) :
    ∃ t', t.recvTimingReq p (words p m) now pkt accept =
        .ok (t'.sendTimingReq ((c.sent p o).remappedTo (c.word T)) (c.asked p) accept) ∧
      Front.Inv T ⟨t', refills, []⟩ ∧ t'.hmcOperand = c.next o := by
  have hasks := hf.target.asks hw hop hpkt
  by_cases hhit : c.Hits t
  · have hword := hf.target.remapCheck_asked hw h.tlb hhit
    obtain ⟨t', heq, hok, hpend, -, hop'⟩ :=
      h.tlb.asks_hits (n := now) hasks (hword ▸ hf.target.word_ne hw) accept
    rw [hword] at heq
    exact ⟨t', heq, { h with tlb := hok, pending := hpend.trans h.pending }, hop'⟩
  · have hideal := hcase.resolve_left hhit
    obtain ⟨hv, hres, hword, -⟩ := hf.target.misses (o := o) hhit
    have hnone : t.pendingRefills = [] := h.pending.trans (h.ideal hideal)
    obtain ⟨t', heq, hok, hpend, -, hop'⟩ := h.tlb.asks_refills (n := now) hw.size hsame hasks hv
      hres hideal (by simp [hnone]) accept
    rw [← hword] at heq
    exact ⟨t', heq, { h with tlb := hok, pending := hpend.trans h.pending }, hop'⟩

lemma recvTimingReq_waits (hmiss : ¬ c.Hits t) (hideal : p.idealRefill = false) (now : ℕ)
    (accept : Bool) :
    ∃ t' refill, t.recvTimingReq p (words p m) now pkt accept =
        .ok { tlb := t', pkt := c.sent p o, successful := false, offered := none, refill := refill } ∧
      Front.Inv T ⟨t', refills ++ refill.toList, []⟩ ∧ t'.hmcOperand = o ∧
      (accept = true →
        T.ptr + T.page (c.asked p) * p.length ∈ refills ++ refill.toList) := by
  obtain ⟨hv, hres, -, hnext⟩ := hf.target.misses (o := o) hmiss
  have hasks := hf.target.asks hw hop hpkt
  obtain ⟨t', refill, heq, hok, -, hop', hpend, hnew, hacc⟩ :=
    h.tlb.asks_waits (n := now) hasks hv hres hideal accept
  refine ⟨t', refill, heq, h.requested hv hideal hok hpend hnew, hop'.trans hnext, ?_⟩
  intro ha
  have hmem := hacc ha
  rw [hpend, h.pending, h.tlb.entryAddr_eq hv] at hmem
  exact hmem

end Requests

end SmcPim.Hmc
