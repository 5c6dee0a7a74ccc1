import SmcPim.Lib.Runs
import SmcPim.Tlb.Translate

/-! # Accesses to the region of a slice table -/

namespace SmcPim.Tlb

open List Except Table

variable {p : Tlb.Params} {mem : Memory} {T : Table p mem} {t : Tlb} {pkt : Packet} {n : Nat}

/-! ## One access -/

lemma checkHmcCommand_plain (h : pkt.addr ∉ p.registers) :
    t.checkHmcCommand p pkt = .ok (0, pkt, t) := by
  simp only [Params.registers, mem_cons, not_mem_nil, or_false, not_or] at h
  obtain ⟨-, hincr, hfadd, himin, hop⟩ := h
  unfold checkHmcCommand hmcTarget
  simp [hincr, hfadd, himin, hop, Bind.bind, Except.bind]

lemma not_isRefillRegister (h : pkt.addr ∉ p.registers) : ¬ isRefillRegister p pkt := by
  rintro ⟨-, heq⟩
  exact h (by simp [Params.registers, heq])

def After (T : Table p mem) (now : Nat) (t : Tlb) (v : Nat) (t' : Tlb) : Prop :=
  t.Resident v ∧ t'.rules = t.rules ∨
    ¬ t.Resident v ∧ t'.rules = (t.updateTLB p now (T.slice v)).rules

lemma After.rules {v : Nat} {t' : Tlb} (h : After T n t v t') (hv : T.region v) {P : Prop}
    (hP : ¬ t.Resident v → P) :
    t'.rules = t.rules ∨ P ∧ ∃ k < T.pages, t'.rules = (t.updateTLB p n (T.entry k)).rules := by
  rcases h with ⟨-, hrules⟩ | ⟨hmiss, hrules⟩
  · exact .inl hrules
  · exact .inr ⟨hP hmiss, _, page_lt hv, hrules⟩

lemma phys_ne_noAddr {v : Nat} (hv : T.region v) : T.phys v ≠ noAddr :=
  Nat.ne_of_lt (T.phys_lt v hv.1 hv.2)

section Asks

/-- A new packet asks for the translation of `v`: its own address, or the target of its command. -/
def Asks (p : Tlb.Params) (t : Tlb) (pkt : Packet) (v : Nat) (pkt' : Packet) (o : Nat) : Prop :=
  ¬ isRefillRegister p pkt ∧ pkt.isRemapped = false ∧
    ∃ x, t.checkHmcCommand p pkt = .ok (x, pkt', { t with hmcOperand := o }) ∧
      (if x ≠ 0 then x else pkt.addr) = v

lemma asks_plain (hv : T.region pkt.addr) (hnew : pkt.isRemapped = false) :
    Asks p t pkt pkt.addr pkt t.hmcOperand := by
  have hreg := T.registers pkt.addr hv.1 hv.2
  exact ⟨not_isRefillRegister hreg, hnew, 0, checkHmcCommand_plain hreg, rfl⟩

variable {mem' : Memory} {v o : Nat} {pkt' : Packet}

lemma Ok.asks_remap (h : Ok T t) (o now v : Nat) :
    ∃ t', { t with hmcOperand := o }.remap now v = .ok (t.remapCheck v, t') ∧ Ok T t' ∧
      t'.pendingRefills = t.pendingRefills ∧ t'.rules = t.rules ∧ t'.hmcOperand = o ∧
      (¬ t.Resident v → t' = { t with hmcOperand := o }) := by
  obtain ⟨stamps, heq, hlen, hmiss⟩ :=
    remap_spec (t := { t with hmcOperand := o }) now v (h.ptr ▸ T.ptr_ne)
  refine ⟨_, heq, (h.withOperand o).withStamps hlen, rfl, rfl, rfl, ?_⟩
  intro hres
  rw [hmiss ((findRule_none h.remapped).mpr hres)]

lemma Ok.refill_remap (h : Ok T t) (o now : Nat) (hv : T.region v) (hsize : 2 ≤ p.tlbSize) :
    ∃ t', { t.updateTLB p now (T.slice v) with hmcOperand := o }.remap now v = .ok (T.phys v, t') ∧
      Ok T t' ∧ t'.pendingRefills = t.pendingRefills ∧
      t'.rules = (t.updateTLB p now (T.slice v)).rules ∧ t'.hmcOperand = o := by
  have hk := page_lt hv
  have hok : Ok T (t.updateTLB p now (T.slice v)) := h.updateTLB hsize hk
  have hres : (t.updateTLB p now (T.slice v)).Resident v :=
    h.updateTLB_resident hsize hk (slice_covers hv)
  obtain ⟨t', heq, hok', hpend, hrules, hop, -⟩ := hok.asks_remap o now v
  rw [hok.remapCheck_of_resident hv hres] at heq
  exact ⟨t', heq, hok', hpend.trans updateTLB_pending, hrules, hop⟩

lemma Ok.asks_hits (h : Ok T t) (hasks : Asks p t pkt v pkt' o) (hhit : t.remapCheck v ≠ noAddr)
    (accept : Bool) :
    ∃ t', t.recvTimingReq p mem' n pkt accept =
        .ok (t'.sendTimingReq (pkt'.remappedTo (t.remapCheck v)) v accept) ∧ Ok T t' ∧
      t'.pendingRefills = t.pendingRefills ∧ t'.rules = t.rules ∧ t'.hmcOperand = o := by
  obtain ⟨hreg, hnew, x, hcheck, hx⟩ := hasks
  obtain ⟨t1, heq, hok, hpend, hrules, hop, -⟩ := h.asks_remap o n v
  refine ⟨t1, ?_, hok, hpend, hrules, hop⟩
  unfold Tlb.recvTimingReq
  rw [if_neg hreg, hcheck]
  simp only [hnew, Bool.false_eq_true, if_false, ok_bind]
  rw [hx, heq, ok_bind]
  dsimp only
  rw [if_neg hhit]

lemma Ok.asks_refills (h : Ok T t) (hsize : 2 ≤ p.tlbSize)
    (hsame : SameEntries p T.ptr T.pages mem mem') (hasks : Asks p t pkt v pkt' o)
    (hv : T.region v) (hres : ¬ t.Resident v) (hideal : p.idealRefill = true)
    (hno : t.entryAddr p v ∉ t.pendingRefills) (accept : Bool) :
    ∃ t', t.recvTimingReq p mem' n pkt accept =
        .ok (t'.sendTimingReq (pkt'.remappedTo (T.phys v)) v accept) ∧ Ok T t' ∧
      t'.pendingRefills = t.pendingRefills ∧
      t'.rules = (t.updateTLB p n (T.slice v)).rules ∧ t'.hmcOperand = o := by
  obtain ⟨hreg, hnew, x, hcheck, hx⟩ := hasks
  obtain ⟨t1, heq, -, -, -, -, hmiss⟩ := h.asks_remap o n v
  have hok := h.withOperand o
  obtain ⟨t2, heq2, hok2⟩ := h.refill_remap o n hv hsize
  refine ⟨t2, ?_, hok2⟩
  unfold Tlb.recvTimingReq
  rw [if_neg hreg, hcheck]
  simp only [hnew, Bool.false_eq_true, if_false, ok_bind]
  rw [hx, heq, ok_bind, remapCheck_of_not_resident h.remapped hres, hmiss hres]
  simp only [if_true, hideal]
  rw [refillTLBFunctional, hok.refillNow_same hsame hv, hok.refillNow_eq hv hno, ok_bind,
    updateTLB_operand]
  dsimp only
  rw [heq2, ok_bind]
  dsimp only
  rw [assert_ok (phys_ne_noAddr hv), ok_bind]

lemma Ok.asks_waits (h : Ok T t) (hasks : Asks p t pkt v pkt' o) (hv : T.region v)
    (hres : ¬ t.Resident v) (hideal : p.idealRefill = false) (accept : Bool) :
    ∃ t' refill, t.recvTimingReq p mem' n pkt accept =
        .ok { tlb := t', pkt := pkt', successful := false, offered := none, refill := refill } ∧
      Ok T t' ∧ t'.rules = t.rules ∧ t'.hmcOperand = o ∧
      t'.pendingRefills = t.pendingRefills ++ refill.toList ∧
      (∀ a ∈ refill, a = t.entryAddr p v ∧ a ∉ t.pendingRefills) ∧
      (accept = true → t.entryAddr p v ∈ t'.pendingRefills) := by
  obtain ⟨hreg, hnew, x, hcheck, hx⟩ := hasks
  obtain ⟨t1, heq, hok, hpend, hrules, hop, -⟩ := h.asks_remap o n v
  have hentry : t1.entryAddr p v = t.entryAddr p v := by
    rw [hok.entryAddr_eq hv, h.entryAddr_eq hv]
  unfold Tlb.recvTimingReq
  rw [if_neg hreg, hcheck]
  simp only [hnew, Bool.false_eq_true, if_false, ok_bind]
  rw [hx, heq, ok_bind, remapCheck_of_not_resident h.remapped hres]
  simp only [if_true, hideal, Bool.false_eq_true, if_false]
  unfold Tlb.refillTLBTiming
  rw [assert_ok (by rw [hok.vstart]; exact hv.1), hentry, hpend, ok_bind]
  by_cases hin : t.entryAddr p v ∈ t.pendingRefills
  · rw [if_pos hin]
    exact ⟨t1, none, rfl, hok, hrules, hop, by simp [hpend], by simp, fun _ => hpend ▸ hin⟩
  · rw [if_neg hin]
    rcases accept with _ | _
    · refine ⟨t1, none, ?_, hok, hrules, hop, by simp [hpend], by simp, by simp⟩
      simp [← hpend, ok_bind]
    · exact ⟨_, some (t.entryAddr p v), rfl,
        { hok with }, hrules, hop, by simp,
        by simp [hin], by simp⟩

end Asks

lemma Ok.recvTimingReq_forwards (h : Ok T t) (hsize : 2 ≤ p.tlbSize) (hv : T.region pkt.addr)
    (hnew : pkt.isRemapped = false)
    (hcase : t.Resident pkt.addr ∨ p.idealRefill = true ∧ t.entryAddr p pkt.addr ∉ t.pendingRefills)
    (accept : Bool) :
    ∃ t', t.recvTimingReq p mem n pkt accept =
        .ok (t'.sendTimingReq (pkt.remappedTo (T.phys pkt.addr)) pkt.addr accept) ∧ Ok T t' ∧
      t'.pendingRefills = t.pendingRefills ∧ After T n t pkt.addr t' := by
  have hasks := asks_plain (t := t) hv hnew
  by_cases hres : t.Resident pkt.addr
  · have hphys := h.remapCheck_of_resident hv hres
    obtain ⟨t', heq, hok, hpend, hrules, -⟩ :=
      h.asks_hits (n := n) hasks (hphys ▸ phys_ne_noAddr hv) accept
    rw [hphys] at heq
    exact ⟨t', heq, hok, hpend, .inl ⟨hres, hrules⟩⟩
  · obtain ⟨hideal, hno⟩ := hcase.resolve_left hres
    obtain ⟨t', heq, hok, hpend, hrules, -⟩ :=
      h.asks_refills (n := n) hsize (fun _ _ => rfl) hasks hv hres hideal hno accept
    exact ⟨t', heq, hok, hpend, .inr ⟨hres, hrules⟩⟩

lemma Ok.recvAtomic_forwards (h : Ok T t) (hsize : 2 ≤ p.tlbSize) (hv : T.region pkt.addr)
    (hcase : t.Resident pkt.addr ∨ t.entryAddr p pkt.addr ∉ t.pendingRefills) :
    ∃ t', t.recvAtomic p mem n pkt = .ok (t', some { pkt with addr := T.phys pkt.addr }) ∧
      Ok T t' ∧ t'.pendingRefills = t.pendingRefills ∧ After T n t pkt.addr t' := by
  have hreg := T.registers pkt.addr hv.1 hv.2
  obtain ⟨t1, heq, hok, hpend, hrules, hmiss⟩ := h.remap_eq n pkt.addr
  unfold Tlb.recvAtomic
  rw [if_neg (not_isRefillRegister hreg), checkHmcCommand_plain hreg]
  simp only [if_true, Bind.bind, Except.bind]
  rw [heq]
  by_cases hres : t.Resident pkt.addr
  · rw [h.remapCheck_of_resident hv hres]
    simp only
    rw [if_neg (phys_ne_noAddr hv)]
    exact ⟨t1, rfl, hok, hpend, .inl ⟨hres, hrules⟩⟩
  · obtain ⟨t2, heq2, hok2, hpend2, hrules2, -⟩ := h.refill_remap _ n hv hsize
    rw [remapCheck_of_not_resident h.remapped hres, hmiss hres]
    simp only [if_true]
    rw [refillTLBAtomic, h.refillNow_eq hv (hcase.resolve_left hres)]
    simp only
    rw [heq2]
    simp only
    rw [if_neg (phys_ne_noAddr hv)]
    exact ⟨t2, rfl, hok2, hpend2, .inr ⟨hres, hrules2⟩⟩

lemma Ok.recvAtomic_panics (h : Ok T t) (hv : T.region pkt.addr)
    (hres : ¬ t.Resident pkt.addr) (hin : t.entryAddr p pkt.addr ∈ t.pendingRefills) :
    ∃ f, t.recvAtomic p mem n pkt = .error f := by
  have hreg := T.registers pkt.addr hv.1 hv.2
  obtain ⟨t1, heq, hok, hpend, -⟩ := h.remap_eq n pkt.addr
  have hin1 : t1.entryAddr p pkt.addr ∈ t1.pendingRefills := by
    rw [hok.entryAddr_eq hv, hpend, ← h.entryAddr_eq hv]
    exact hin
  unfold Tlb.recvAtomic
  rw [if_neg (not_isRefillRegister hreg), checkHmcCommand_plain hreg]
  simp only [if_true, Bind.bind, Except.bind]
  rw [heq, remapCheck_of_not_resident h.remapped hres]
  simp only [if_true]
  rw [refillTLBAtomic, refillNow, assert_ok (by rw [hok.vstart]; exact hv.1), if_pos hin1]
  exact ⟨_, rfl⟩

section Same

variable {mem' : Memory}

lemma Ok.recvTimingReq_same (h : Ok T t) (hsame : SameEntries p T.ptr T.pages mem mem')
    {pkt : Packet} (hv : T.region pkt.addr) (accept : Bool) :
    t.recvTimingReq p mem' n pkt accept = t.recvTimingReq p mem n pkt accept := by
  have hreg := T.registers pkt.addr hv.1 hv.2
  obtain ⟨t1, heq, hok, -⟩ := h.remap_eq n pkt.addr
  unfold Tlb.recvTimingReq
  rw [if_neg (not_isRefillRegister hreg), if_neg (not_isRefillRegister hreg),
    checkHmcCommand_plain hreg]
  simp only [ok_bind, ne_eq, not_true_eq_false, if_false]
  rw [heq, ok_bind, ok_bind]
  dsimp only
  rw [refillTLBFunctional, hok.refillNow_same hsame hv]

lemma Ok.recvAtomic_same (h : Ok T t) (hsame : SameEntries p T.ptr T.pages mem mem') {pkt : Packet}
    (hv : T.region pkt.addr) : t.recvAtomic p mem' n pkt = t.recvAtomic p mem n pkt := by
  have hreg := T.registers pkt.addr hv.1 hv.2
  obtain ⟨t1, heq, hok, -⟩ := h.remap_eq n pkt.addr
  unfold Tlb.recvAtomic
  rw [if_neg (not_isRefillRegister hreg), if_neg (not_isRefillRegister hreg),
    checkHmcCommand_plain hreg]
  simp only [ok_bind, if_true]
  rw [heq, ok_bind, ok_bind]
  dsimp only
  rw [refillTLBAtomic, hok.refillNow_same hsame hv]

end Same

/-! ## Runs -/

inductive Access
  | request (pkt : Packet) (accept : Bool)
  | atomic (pkt : Packet)
  | functional (v : Nat)
  | refillResp (i : Nat)

/-- The TLB, the refill requests in flight, and the packets so far with the addresses they were
offered with. -/
structure Front where
  tlb : Tlb
  refills : List Nat
  forwarded : List (Nat × Nat)

def Front.step (p : Tlb.Params) (mem : Memory) (f : Front) : Nat × Access → Except Fault Front
  | (now, .request pkt accept) => do
    let r ← f.tlb.recvTimingReq p mem now pkt accept
    .ok { tlb := r.tlb
          refills := f.refills ++ r.refill.toList
          forwarded := (r.offered.toList.map fun q => (pkt.addr, q.addr)) ++ f.forwarded }
  | (now, .atomic pkt) => do
    let (t, sent) ← f.tlb.recvAtomic p mem now pkt
    .ok { f with
      tlb := t
      forwarded := (sent.toList.map fun q => (pkt.addr, q.addr)) ++ f.forwarded }
  | (now, .functional v) => do
    if f.tlb.remapCheck v = noAddr then
      let t ← f.tlb.refillTLBFunctional p mem now v
      .ok { f with tlb := t }
    else .ok f
  | (now, .refillResp i) =>
    match f.refills[i]? with
    | none => .ok f
    | some a => do
      let t ← f.tlb.recvRefillResp p mem now a
      .ok { f with tlb := t, refills := f.refills.eraseIdx i }

def Access.InRegion (T : Table p mem) : Access → Prop
  | .request pkt _ => T.region pkt.addr ∧ pkt.isRemapped = false
  | .atomic pkt => T.region pkt.addr
  | .functional v => T.region v
  | .refillResp _ => True

instance (T : Table p mem) : (a : Access) → Decidable (a.InRegion T)
  | .request pkt _ => inferInstanceAs (Decidable (T.region pkt.addr ∧ pkt.isRemapped = false))
  | .atomic pkt => inferInstanceAs (Decidable (T.region pkt.addr))
  | .functional v => inferInstanceAs (Decidable (T.region v))
  | .refillResp _ => .isTrue trivial

structure Front.Inv (T : Table p mem) (f : Front) : Prop where
  tlb : Ok T f.tlb
  pending : f.tlb.pendingRefills = f.refills
  nodup : f.refills.Nodup
  entries : ∀ a ∈ f.refills, ∃ k < T.pages, a = T.ptr + k * p.length
  ideal : p.idealRefill = true → f.refills = []
  forwarded : ∀ x ∈ f.forwarded, x.2 = T.phys x.1

variable {f f' : Front}

section
variable (h : Front.Inv T f)
include h

variable {v : Nat}

lemma Front.Inv.forward {t' : Tlb} (hok : Ok T t')
    (hpend : t'.pendingRefills = f.tlb.pendingRefills) (v : Nat) :
    Front.Inv T { f with tlb := t', forwarded := (v, T.phys v) :: f.forwarded } :=
  ⟨hok, hpend.trans h.pending, h.nodup, h.entries, h.ideal, forall_mem_cons.mpr ⟨rfl, h.forwarded⟩⟩

lemma Front.Inv.request_forwards (hsize : 2 ≤ p.tlbSize)
    (hv : T.region pkt.addr) (hnew : pkt.isRemapped = false)
    (hcase : f.tlb.Resident pkt.addr ∨ p.idealRefill = true) (accept : Bool) :
    ∃ f', f.step p mem (n, .request pkt accept) = .ok f' ∧ Front.Inv T f' ∧
      f'.forwarded = (pkt.addr, T.phys pkt.addr) :: f.forwarded ∧ f'.refills = f.refills ∧
      After T n f.tlb pkt.addr f'.tlb := by
  have hcase' : f.tlb.Resident pkt.addr ∨
      p.idealRefill = true ∧ f.tlb.entryAddr p pkt.addr ∉ f.tlb.pendingRefills :=
    hcase.imp_right fun hi => ⟨hi, by rw [h.pending, h.ideal hi]; simp⟩
  obtain ⟨t', heq, hok, hpend, hafter⟩ := h.tlb.recvTimingReq_forwards hsize hv hnew hcase' accept
  refine ⟨_, ?_, h.forward hok hpend pkt.addr, rfl, rfl, hafter⟩
  unfold Front.step
  simp only
  rw [heq]
  unfold Tlb.sendTimingReq
  simp only [Bind.bind, Except.bind, Option.toList_none, append_nil, Option.toList_some,
    map_cons, map_nil, singleton_append, ok.injEq, Front.mk.injEq, true_and]
  split <;> rfl

lemma Front.Inv.requested (hv : T.region v)
    (hideal : p.idealRefill = false) {t' : Tlb} (hok : Ok T t') {refill : Option Nat}
    (hpend : t'.pendingRefills = f.tlb.pendingRefills ++ refill.toList)
    (hnewr : ∀ a ∈ refill, a = f.tlb.entryAddr p v ∧ a ∉ f.tlb.pendingRefills) :
    Front.Inv T { f with tlb := t', refills := f.refills ++ refill.toList } := by
  refine ⟨hok, by rw [hpend, h.pending], ?_, ?_, by simp [hideal], h.forwarded⟩
  · rcases refill with _ | a
    · simpa using h.nodup
    · have := (hnewr a rfl).2
      rw [h.pending] at this
      simp [nodup_append, h.nodup]
      exact fun b hb hba => this (hba ▸ hb)
  · intro a ha
    rcases mem_append.mp ha with ha | ha
    · exact h.entries a ha
    · obtain ⟨rfl, -⟩ := hnewr a (by simpa using ha)
      exact ⟨T.page v, page_lt hv, h.tlb.entryAddr_eq hv⟩

lemma Front.Inv.request_misses (hv : T.region pkt.addr) (hnew : pkt.isRemapped = false)
    (hres : ¬ f.tlb.Resident pkt.addr) (hideal : p.idealRefill = false) (accept : Bool) :
    ∃ f', f.step p mem (n, .request pkt accept) = .ok f' ∧ Front.Inv T f' ∧
      f'.tlb.rules = f.tlb.rules ∧
      (∀ a ∈ f'.refills, a ∈ f.refills ∨ a = f.tlb.entryAddr p pkt.addr) ∧
      (accept = true → f'.tlb.entryAddr p pkt.addr ∈ f'.refills) := by
  obtain ⟨t', refill, heq, hok, hrules, -, hpend, hnewr, hacc⟩ :=
    h.tlb.asks_waits (n := n) (asks_plain hv hnew) hv hres hideal accept
  refine ⟨{ tlb := t', refills := f.refills ++ refill.toList, forwarded := f.forwarded }, ?_,
    h.requested hv hideal hok hpend hnewr, hrules, ?_, ?_⟩
  · unfold Front.step
    simp only
    rw [heq]
    rfl
  · intro a ha
    rcases mem_append.mp ha with ha | ha
    · exact .inl ha
    · exact .inr (hnewr a (by simpa using ha)).1
  · intro ha
    have := hacc ha
    rw [hpend, h.pending] at this
    rw [hok.entryAddr_eq hv, ← h.tlb.entryAddr_eq hv]
    exact this

section
variable (hsize : 2 ≤ p.tlbSize)
include hsize

lemma Front.Inv.atomic (hv : T.region pkt.addr)
    (hcase : f.tlb.Resident pkt.addr ∨ f.tlb.entryAddr p pkt.addr ∉ f.refills) :
    ∃ f', f.step p mem (n, .atomic pkt) = .ok f' ∧ Front.Inv T f' ∧
      f'.forwarded = (pkt.addr, T.phys pkt.addr) :: f.forwarded ∧ f'.refills = f.refills ∧
      After T n f.tlb pkt.addr f'.tlb := by
  obtain ⟨t', heq, hok, hpend, hafter⟩ := h.tlb.recvAtomic_forwards (n := n) hsize hv
    (by rw [h.pending]; exact hcase)
  refine ⟨_, ?_, h.forward hok hpend pkt.addr, rfl, rfl, hafter⟩
  unfold Front.step
  simp only
  rw [heq]
  rfl

lemma Front.Inv.refillResp {i k : Nat}
    (hk : k < T.pages) (hi : f.refills[i]? = some (T.ptr + k * p.length)) :
    ∃ f', f.step p mem (n, .refillResp i) = .ok f' ∧ Front.Inv T f' ∧
      f'.forwarded = f.forwarded ∧ f'.refills = f.refills.eraseIdx i ∧
      f'.tlb.rules = (f.tlb.updateTLB p n (T.entry k)).rules ∧
      ∀ v, (T.entry k).covers v → f'.tlb.Resident v := by
  obtain ⟨hlt, hget⟩ := List.getElem?_eq_some_iff.mp hi
  have hmem : T.ptr + k * p.length ∈ f.tlb.pendingRefills := by
    rw [h.pending]
    exact mem_of_getElem? hi
  have herase : f.tlb.pendingRefills.erase (T.ptr + k * p.length) = f.refills.eraseIdx i := by
    rw [h.pending, ← hget, h.nodup.erase_getElem i hlt]
  have hok : Ok T { f.tlb with pendingRefills := f.refills.eraseIdx i } :=
    ⟨h.tlb.remapped, h.tlb.stamps, h.tlb.ptr, h.tlb.vstart, h.tlb.rules⟩
  refine ⟨{ tlb := ({ f.tlb with pendingRefills := f.refills.eraseIdx i }.updateTLB p n
      (T.entry k)), refills := f.refills.eraseIdx i, forwarded := f.forwarded }, ?_, ?_, rfl, rfl,
    rules_updateTLB_pending, ?_⟩
  · unfold Front.step
    simp only
    rw [hi]
    simp only
    rw [recvRefillResp, if_pos hmem, herase]
    rfl
  · refine ⟨hok.updateTLB hsize hk, updateTLB_pending, h.nodup.eraseIdx i, ?_, ?_, h.forwarded⟩
    · exact fun a ha => h.entries a (mem_of_mem_eraseIdx ha)
    · intro hideal
      rw [h.ideal hideal] at hlt
      cases hlt
  · exact fun v hv => hok.updateTLB_resident hsize hk hv

lemma Front.Inv.refillNow (hv : T.region v) :
    Front.Inv T { f with tlb := f.tlb.updateTLB p n (T.slice v) } :=
  ⟨h.tlb.updateTLB hsize (page_lt hv), updateTLB_pending.trans h.pending, h.nodup, h.entries,
    h.ideal, h.forwarded⟩

lemma Front.Inv.functional (hv : T.region v) (hs : f.step p mem (n, .functional v) = .ok f') :
    Front.Inv T f' ∧ f'.refills = f.refills ∧ After T n f.tlb v f'.tlb := by
  unfold Front.step at hs
  simp only at hs
  split at hs
  · rename_i hmiss
    rw [h.tlb.remapCheck_eq_noAddr hv] at hmiss
    rw [refillTLBFunctional] at hs
    by_cases hin : f.tlb.entryAddr p v ∈ f.tlb.pendingRefills
    · rw [Tlb.refillNow, assert_ok (by rw [h.tlb.vstart]; exact hv.1)] at hs
      simp [hin, Bind.bind, Except.bind] at hs
    · rw [h.tlb.refillNow_eq hv hin] at hs
      simp only [Bind.bind, Except.bind, ok.injEq] at hs
      subst hs
      exact ⟨h.refillNow hsize hv, rfl, .inr ⟨hmiss, rfl⟩⟩
  · rename_i hhit
    rw [h.tlb.remapCheck_eq_noAddr hv, not_not] at hhit
    rw [ok.injEq] at hs
    subst hs
    exact ⟨h, rfl, .inl ⟨hhit, rfl⟩⟩

end

lemma Front.Inv.step_same {mem' : Memory} (hsame : SameEntries p T.ptr T.pages mem mem')
    {a : Access} (ha : a.InRegion T) : f.step p mem' (n, a) = f.step p mem (n, a) := by
  unfold Front.step
  rcases a with ⟨pkt, accept⟩ | pkt | v | i
  · dsimp only
    rw [h.tlb.recvTimingReq_same hsame ha.1]
  · dsimp only
    rw [h.tlb.recvAtomic_same hsame ha]
  · dsimp only
    rw [refillTLBFunctional, h.tlb.refillNow_same hsame ha]
  · dsimp only
    rcases hi : f.refills[i]? with _ | a
    · rfl
    · obtain ⟨k, hk, rfl⟩ := h.entries a (mem_of_getElem? hi)
      dsimp only
      unfold recvRefillResp
      rw [hsame k hk]

end

def Front.Installs (p : Tlb.Params) (f : Front) : Access → Prop
  | .request pkt _ => ¬ f.tlb.Resident pkt.addr ∧ p.idealRefill = true
  | .atomic pkt => ¬ f.tlb.Resident pkt.addr
  | .functional v => ¬ f.tlb.Resident v
  | .refillResp i => i < f.refills.length

structure Front.Effect (T : Table p mem) (n : Nat) (f : Front) (a : Access) (f' : Front) : Prop where
  inv : Front.Inv T f'
  refills : ∀ e ∈ f'.refills, e ∈ f.refills ∨ ∃ pkt accept, a = .request pkt accept ∧
    ¬ f.tlb.Resident pkt.addr ∧ p.idealRefill = false ∧ e = T.ptr + T.page pkt.addr * p.length
  rules : f'.tlb.rules = f.tlb.rules ∨ f.Installs p a ∧ ∃ k < T.pages,
    f'.tlb.rules = (f.tlb.updateTLB p n (T.entry k)).rules

lemma Front.step_effect {a : Access} (hsize : 2 ≤ p.tlbSize) (h : Front.Inv T f)
    (ha : a.InRegion T) (hs : f.step p mem (n, a) = .ok f') : Front.Effect T n f a f' := by
  have hold : ∀ {g : Front}, g.refills = f.refills → ∀ e ∈ g.refills, e ∈ f.refills ∨
      ∃ pkt accept, a = .request pkt accept ∧ ¬ f.tlb.Resident pkt.addr ∧ p.idealRefill = false ∧
        e = T.ptr + T.page pkt.addr * p.length := fun hg e he => .inl (hg ▸ he)
  rcases a with ⟨pkt, accept⟩ | pkt | v | i
  · obtain ⟨hv, hnew⟩ := ha
    by_cases hcase : f.tlb.Resident pkt.addr ∨ p.idealRefill = true
    · obtain ⟨f1, heq, hinv, -, href, hafter⟩ := h.request_forwards (n := n) hsize hv hnew hcase accept
      rw [heq, ok.injEq] at hs
      subst hs
      exact ⟨hinv, hold href, hafter.rules hv fun hmiss => ⟨hmiss, hcase.resolve_left hmiss⟩⟩
    · rw [not_or, Bool.not_eq_true] at hcase
      obtain ⟨f1, heq, hinv, hrules, href, -⟩ :=
        h.request_misses (n := n) hv hnew hcase.1 hcase.2 accept
      rw [heq, ok.injEq] at hs
      subst hs
      refine ⟨hinv, ?_, .inl hrules⟩
      intro e he
      rcases href e he with he | he
      · exact .inl he
      · exact .inr ⟨pkt, accept, rfl, hcase.1, hcase.2, he.trans (h.tlb.entryAddr_eq hv)⟩
  · by_cases hcase : f.tlb.Resident pkt.addr ∨ f.tlb.entryAddr p pkt.addr ∉ f.refills
    · obtain ⟨f1, heq, hinv, -, href, hafter⟩ := h.atomic (n := n) hsize ha hcase
      rw [heq, ok.injEq] at hs
      subst hs
      exact ⟨hinv, hold href, hafter.rules ha id⟩
    · rw [not_or, not_not] at hcase
      obtain ⟨e, heq⟩ := h.tlb.recvAtomic_panics (n := n) ha hcase.1 (h.pending ▸ hcase.2)
      unfold Front.step at hs
      simp [heq, Bind.bind, Except.bind] at hs
  · obtain ⟨hinv, href, hafter⟩ := h.functional hsize ha hs
    exact ⟨hinv, hold href, hafter.rules ha id⟩
  · rcases hi : f.refills[i]? with _ | a
    · unfold Front.step at hs
      simp only [hi, ok.injEq] at hs
      subst hs
      exact ⟨h, hold rfl, .inl rfl⟩
    · obtain ⟨k, hk, rfl⟩ := h.entries a (mem_of_getElem? hi)
      obtain ⟨f1, heq, hinv, -, href, hrules, -⟩ := h.refillResp (n := n) hsize hk hi
      rw [heq, ok.injEq] at hs
      subst hs
      refine ⟨hinv, ?_, .inr ⟨(List.getElem?_eq_some_iff.mp hi).1, k, hk, hrules⟩⟩
      intro e he
      rw [href] at he
      exact .inl (mem_of_mem_eraseIdx he)

/-- Accesses inside the region, none of which stops the simulator. -/
def Front.InRegion (T : Table p mem) : Front → Nat × Access → Front → Prop :=
  Runs.Restrict (Runs.Next (Runs.succeed (Front.step p mem))) fun _ l => l.2.InRegion T

lemma Front.run_inv {ls : List (Nat × Access)} (hsize : 2 ≤ p.tlbSize) (h : Front.Inv T f)
    (hs : Runs.Steps (Front.InRegion T) f ls f') : Front.Inv T f' :=
  hs.inv (Front.Inv T)
    (fun _ _ _ hinv hstep =>
      (Front.step_effect hsize hinv hstep.1 (Runs.next_succeed.mp hstep.2)).inv) h

lemma Front.Inv.completes (h : Front.Inv T f) (hsize : 2 ≤ p.tlbSize) (hv : T.region pkt.addr)
    (hnew : pkt.isRemapped = false) :
    ∃ ls f', Runs.Steps (Front.InRegion T) f ls f' ∧
      (∀ l ∈ ls, l = (n, Access.request pkt true) ∨ ∃ i, l = (n, Access.refillResp i)) ∧
      (pkt.addr, T.phys pkt.addr) ∈ f'.forwarded := by
  have hreq : Access.InRegion T (.request pkt true) := ⟨hv, hnew⟩
  by_cases hcase : f.tlb.Resident pkt.addr ∨ p.idealRefill = true
  · obtain ⟨f1, heq, -, hfwd, -⟩ := h.request_forwards (n := n) hsize hv hnew hcase true
    exact ⟨[(n, .request pkt true)], f1, .single ⟨hreq, Runs.next_succeed.mpr heq⟩, by simp,
      by simp [hfwd]⟩
  · rw [not_or, Bool.not_eq_true] at hcase
    obtain ⟨f1, heq1, h1, -, -, hin⟩ := h.request_misses (n := n) hv hnew hcase.1 hcase.2 true
    obtain ⟨i, hi⟩ := mem_iff_getElem?.mp (hin rfl)
    rw [h1.tlb.entryAddr_eq hv] at hi
    obtain ⟨f2, heq2, h2, -, -, -, hres⟩ := h1.refillResp (n := n) hsize (page_lt hv) hi
    obtain ⟨f3, heq3, -, hfwd, -⟩ := h2.request_forwards (n := n) hsize hv hnew
      (.inl (hres pkt.addr (slice_covers hv))) true
    refine ⟨[(n, .request pkt true), (n, .refillResp i), (n, .request pkt true)], f3, ?_, by simp,
      by simp [hfwd]⟩
    exact .cons ⟨hreq, Runs.next_succeed.mpr heq1⟩
      (.cons ⟨trivial, Runs.next_succeed.mpr heq2⟩
        (.single ⟨hreq, Runs.next_succeed.mpr heq3⟩))

end SmcPim.Tlb
