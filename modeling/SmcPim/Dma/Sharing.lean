import SmcPim.Dma.Selection

/-! # The engine and the processor at one TLB -/

namespace SmcPim

open List Option DMARequest NoPanic

namespace DmaSys

variable {p : DmaParams} {mem : Memory} {T : Tlb.Table p.tlb mem} {now : Nat} {s s' : DmaSys}

def entryOf (T : Tlb.Table p.tlb mem) (v : Nat) : Nat := T.ptr + T.page v * p.tlb.length

variable {v w i n : Nat} {r : DMARequest}

lemma page_eq_of_entryOf (h : entryOf T v = entryOf T w) : T.page v = T.page w := by
  have hlen : 0 < p.tlb.length := by
    rw [Tlb.Table.length_eq]
    cases p.tlb.pimArch <;> decide
  unfold entryOf at h
  exact Nat.eq_of_mul_eq_mul_right hlen (Nat.add_left_cancel h)

def Waiting (s : DmaSys) (r : DMARequest) : Prop :=
  r ∈ s.dma.requests ∧ r.issued = false ∨ s.dma.currentState ≠ .idle ∧ s.working = some r

/-! ## The invariant -/

structure Sharing (T : Tlb.Table p.tlb mem) (s : DmaSys) : Prop where
  front : Tlb.Front.Inv T s.front
  serves : s.dma.currentState ≠ .idle → ∃ r, s.working = some r
  inRegion : ∀ r, s.Waiting r → T.region r.memVstart ∧ T.region r.memVend
  apart : ∀ r, s.Waiting r → ∀ w, r.memVstart ≤ w → w ≤ r.memVend →
    entryOf T w ∉ s.front.refills
  looked : s.dma.currentState = .transfer → ∀ r ∈ s.working, s.front.tlb.Resident r.memVstart

lemma sharing_init {f : Tlb.Front} (hf : Tlb.Front.Inv T f) : Sharing T (init f) where
  front := hf
  serves := by simp [init]
  inRegion := by simp [init, Waiting]
  apart := by simp [init, Waiting]
  looked := by simp [init]

def Shrinks (s s' : DmaSys) : Prop :=
  ∀ q, s'.Waiting q → ∃ r, s.Waiting r ∧ q.memVend = r.memVend ∧
    (q.memVstart = r.memVstart ∨ r.memVstart ≤ q.memVstart ∧ q.memVstart < r.memVend)

lemma Sharing.inRegion_of_shrinks (h : Sharing T s) (hw : Shrinks s s') (q : DMARequest)
    (hq : s'.Waiting q) : T.region q.memVstart ∧ T.region q.memVend := by
  obtain ⟨r, hr, hend, hstart⟩ := hw q hq
  obtain ⟨hv, hve⟩ := h.inRegion r hr
  rw [hend]
  refine ⟨?_, hve⟩
  rcases hstart with heq | ⟨hle, hlt⟩
  · rw [heq]
    exact hv
  · exact ⟨Nat.le_trans hv.1 hle, Nat.lt_trans hlt hve.2⟩

lemma Sharing.apart_of_shrinks (h : Sharing T s) (hw : Shrinks s s') (q : DMARequest)
    (hq : s'.Waiting q) (hlo : q.memVstart ≤ w) (hhi : w ≤ q.memVend) :
    entryOf T w ∉ s.front.refills := by
  obtain ⟨r, hr, hend, hstart⟩ := hw q hq
  refine h.apart r hr w ?_ (hend ▸ hhi)
  rcases hstart with heq | ⟨hle, -⟩
  · exact heq ▸ hlo
  · exact Nat.le_trans hle hlo

/-! ## The states -/

lemma stateIdle_shrinks (hst : s.dma.currentState = .idle) : Shrinks s s.stateIdle := by
  intro q hq
  refine ⟨q, ?_, rfl, .inl rfl⟩
  unfold DmaSys.stateIdle at hq
  split at hq
  · rcases hq with hq | ⟨hne, -⟩
    · exact .inl hq
    · exact absurd hst hne
  · rename_i i hi
    rcases hq with hq | ⟨-, hq⟩
    · exact .inl hq
    · rw [findIdx?_eq_some_iff_getElem] at hi
      obtain ⟨hlt, hnew, -⟩ := hi
      change s.dma.requests[i]? = some q at hq
      rw [getElem?_eq_getElem hlt, some.injEq] at hq
      rw [hq] at hnew
      exact .inl ⟨hq ▸ getElem_mem hlt, by simpa using hnew⟩

lemma Sharing.stateIdle (h : Sharing T s) (hst : s.dma.currentState = .idle) :
    Sharing T s.stateIdle := by
  have hw := stateIdle_shrinks hst
  have hfront : s.stateIdle.front = s.front := by
    unfold DmaSys.stateIdle
    split <;> rfl
  refine ⟨by rw [hfront]; exact h.front, ?_, h.inRegion_of_shrinks hw, ?_, ?_⟩
  · unfold DmaSys.stateIdle
    split
    · exact fun hne => absurd hst hne
    · rename_i i hi
      intro _
      exact ⟨_, working_eq rfl (getElem?_eq_getElem (Lists.findIdx?_lt hi))⟩
  · intro q hq w hlo hhi
    rw [hfront]
    exact h.apart_of_shrinks hw q hq hlo hhi
  · unfold DmaSys.stateIdle
    split
    · simp [hst]
    · simp

lemma shrinks_setCurrent (s' : DmaSys) (r' : DMARequest)
    (hi : s.dma.currentIndex = some i) (hr : s.dma.requests[i]? = some r)
    (hst : s.dma.currentState ≠ .idle)
    (hreq : s'.dma.requests = s.dma.requests.set i r') (hindex : s'.dma.currentIndex = some i)
    (hend : r'.memVend = r.memVend)
    (hstart : r'.memVstart = r.memVstart ∨
      r.memVstart ≤ r'.memVstart ∧ r'.memVstart < r.memVend) : Shrinks s s' := by
  intro q hq
  have hwaits : s.Waiting r := .inr ⟨hst, working_eq hi hr⟩
  rcases hq with ⟨hq, hissued⟩ | ⟨-, hq⟩
  · rw [hreq] at hq
    rcases mem_or_eq_of_mem_set hq with hq | rfl
    · exact ⟨q, .inl ⟨hq, hissued⟩, rfl, .inl rfl⟩
    · exact ⟨r, hwaits, hend, hstart⟩
  · have hself : s'.dma.requests[i]? = some r' := by
      rw [hreq]
      exact List.getElem?_set_self (List.getElem?_eq_some_iff.mp hr).1
    rw [working_eq hindex hself, some.injEq] at hq
    subst hq
    exact ⟨r, hwaits, hend, hstart⟩

lemma working_set {r' : DMARequest} (hr : s.dma.requests[i]? = some r)
    (hreq : s'.dma.requests = s.dma.requests.set i r') (hindex : s'.dma.currentIndex = some i) :
    s'.working = some r' := by
  apply working_eq hindex
  rw [hreq]
  exact List.getElem?_set_self (List.getElem?_eq_some_iff.mp hr).1

section
variable (h : Sharing T s)
include h

lemma Sharing.not_pending (hst : s.dma.currentState ≠ .idle)
    (hr : s.working = some r) (hlt : r.memVstart < r.memVend) :
    s.front.tlb.entryAddr p.tlb r.memVstart ∉ s.front.tlb.pendingRefills := by
  have hwaits : s.Waiting r := .inr ⟨hst, hr⟩
  rw [h.front.tlb.entryAddr_eq (h.inRegion r hwaits).1, h.front.pending]
  exact h.apart r hwaits r.memVstart (Nat.le_refl _) (Nat.le_of_lt hlt)

lemma Sharing.stateTlbRefill (hsize : 2 ≤ p.tlb.tlbSize) (hst : s.dma.currentState = .tlbRefill)
    (hs : s.stateTlbRefill p mem now = .ok s') : Sharing T s' := by
  have hne : s.dma.currentState ≠ .idle := by simp [hst]
  obtain ⟨i, r, hi, hr, ⟨-, rfl⟩ | ⟨hlt, t, rfl, hcase⟩⟩ := stateTlbRefill_ok hs
  · have hw := shrinks_setCurrent
      ((s.setRequest i { r with issued := true }).setState .idle) { r with issued := true } hi hr hne
      rfl hi rfl (.inl rfl)
    exact ⟨h.front, by simp [setState], h.inRegion_of_shrinks hw,
      fun q hq w hlo hhi => h.apart_of_shrinks hw q hq hlo hhi, by simp [setState]⟩
  · have hwork := working_eq hi hr
    have hv := (h.inRegion r (.inr ⟨hne, hwork⟩)).1
    have hw := shrinks_setCurrent
      ({ s.setRequest i { r with issued := true } with
        front := { s.front with tlb := t } }.setState .transfer) { r with issued := true } hi hr hne
      rfl hi rfl (.inl rfl)
    obtain ⟨hinv, hres⟩ : Tlb.Front.Inv T { s.front with tlb := t } ∧ t.Resident r.memVstart := by
      rcases hcase with ⟨hhit, rfl⟩ | ⟨-, ht⟩
      · rw [ne_eq, h.front.tlb.remapCheck_eq_noAddr hv, not_not] at hhit
        exact ⟨h.front, hhit⟩
      · rw [Tlb.refillTLBFunctional, h.front.tlb.refillNow_eq hv (h.not_pending hne hwork hlt),
          Except.ok.injEq] at ht
        subst ht
        exact ⟨h.front.refillNow hsize hv,
          h.front.tlb.updateTLB_resident hsize (Tlb.Table.page_lt hv) (Tlb.Table.slice_covers hv)⟩
    have hserved : ({ s.setRequest i { r with issued := true } with
        front := { s.front with tlb := t } }.setState .transfer).working =
          some { r with issued := true } := working_set hr rfl hi
    refine ⟨hinv, fun _ => ⟨_, hserved⟩, h.inRegion_of_shrinks hw,
      fun q hq w hlo hhi => h.apart_of_shrinks hw q hq hlo hhi, ?_⟩
    intro _ q hq
    rw [hserved, mem_some_iff] at hq
    subst hq
    exact hres

lemma Sharing.stateTransfer (hst : s.dma.currentState = .transfer)
    (hs : s.stateTransfer p = .ok s') : Sharing T s' := by
  have hne : s.dma.currentState ≠ .idle := by simp [hst]
  obtain ⟨i, r, e, r', more, hi, hr, -, -, -, hnext, rfl⟩ := stateTransfer_ok hs
  obtain ⟨hle, hcase⟩ := nextSubRequest_ok hnext
  have hstart : r'.memVend = r.memVend ∧ (r'.memVstart = r.memVstart ∨
      r.memVstart ≤ r'.memVstart ∧ r'.memVstart < r.memVend) := by
    rcases hcase with ⟨-, -, rfl⟩ | ⟨hlt, -, rfl⟩
    · exact ⟨rfl, .inl rfl⟩
    · exact ⟨rfl, .inr ⟨hle, hlt⟩⟩
  have hw := shrinks_setCurrent
    (((s.issue p r (min e r.memVend) (s.front.tlb.remapCheck r.memVstart)
      (addr64 (sub64 (s.front.tlb.remapCheck (min e r.memVend))
        (s.front.tlb.remapCheck r.memVstart) + 1))).setRequest i r').setState
          (if more then .tlbRefill else .idle)) r' hi hr hne rfl hi hstart.1 hstart.2
  refine ⟨h.front, ?_, h.inRegion_of_shrinks hw,
    fun q hq w hlo hhi => h.apart_of_shrinks hw q hq hlo hhi, ?_⟩
  · exact fun _ => ⟨r', working_set hr rfl hi⟩
  · intro htr
    rcases more with _ | _
    · exact absurd htr (by simp [setState])
    · exact absurd htr (by simp [setState])

lemma Sharing.nextState (hsize : 2 ≤ p.tlb.tlbSize)
    (hs : s.nextState p mem now = .ok s') : Sharing T s' := by
  obtain ⟨hnil, rfl⟩ | ⟨-, ⟨hst, rfl⟩ | ⟨hst, hs⟩ | ⟨hst, hs⟩⟩ := nextState_ok hs
  · exact ⟨h.front, by simp, by simp [Waiting, hnil], by simp [Waiting, hnil], by simp⟩
  · exact h.stateIdle hst
  · exact h.stateTlbRefill hsize hst hs
  · exact h.stateTransfer hst hs

lemma Sharing.stateTlbRefill_total (hst : s.dma.currentState = .tlbRefill)
    (now : Nat) : ∃ s', s.stateTlbRefill p mem now = .ok s' := by
  have hne : s.dma.currentState ≠ .idle := by simp [hst]
  obtain ⟨r, hwork⟩ := h.serves hne
  obtain ⟨i, hi, hr⟩ := bind_eq_some_iff.mp hwork
  have hv := (h.inRegion r (.inr ⟨hne, hwork⟩)).1
  unfold DmaSys.stateTlbRefill
  rw [curr_eq hi hr]
  change ∃ s', (if r.memVstart < r.memVend then _ else _) = Except.ok s'
  split
  · rename_i hlt
    split
    · change ∃ s', (s.front.tlb.refillTLBFunctional p.tlb mem now r.memVstart >>= _) = Except.ok s'
      rw [Tlb.refillTLBFunctional, h.front.tlb.refillNow_eq hv (h.not_pending hne hwork hlt)]
      exact ⟨_, rfl⟩
    · exact ⟨_, rfl⟩
  · exact ⟨_, rfl⟩

end

/-! ## The other events -/

def InRegion (T : Tlb.Table p.tlb mem) : Event → Prop
  | .initiateRead _ v n _ | .initiateWrite _ v n _ =>
    1 ≤ n ∧ T.region v ∧ T.region (v + n - 1)
  | .cpu a => a.InRegion T
  | .nextState | .response _ | .done => True

instance (T : Tlb.Table p.tlb mem) : (e : Event) → Decidable (InRegion T e)
  | .initiateRead _ v n _ | .initiateWrite _ v n _ =>
    inferInstanceAs (Decidable (1 ≤ n ∧ T.region v ∧ T.region (v + n - 1)))
  | .cpu a => inferInstanceAs (Decidable (a.InRegion T))
  | .nextState | .response _ | .done => .isTrue trivial

/-- The processor evicts no rule in use, and waits for no refill of a page still to be transferred.
-/
def Spares (T : Tlb.Table p.tlb mem) (s : DmaSys) : Event → Prop
  | .initiateRead _ v n _ | .initiateWrite _ v n _ =>
    ∀ w, v ≤ w → w < v + n → entryOf T w ∉ s.front.refills
  | .cpu a =>
    (s.dma.currentState = .transfer → s.front.Installs p.tlb a →
      p.tlb.tlbSize ≤ s.front.tlb.originalRanges.length →
        ∀ r ∈ s.working, s.front.tlb.evict.Resident r.memVstart) ∧
    ∀ pkt accept, a = .request pkt accept → p.tlb.idealRefill = false →
      ¬ s.front.tlb.Resident pkt.addr → ∀ r, s.Waiting r → ∀ w, r.memVstart ≤ w → w ≤ r.memVend →
        T.page w ≠ T.page pkt.addr
  | .nextState | .response _ | .done => True

lemma memVend_new (hn : 1 ≤ n) (hv : T.region v) (hve : T.region (v + n - 1)) (id vreg : Nat)
    (dir : Bool) (res : BitVec 8) :
    (new id vreg v n dir res).memVstart = v ∧ (new id vreg v n dir res).memVend = v + n - 1 := by
  have h1 := hv.2
  have h2 := hve.2
  have h3 := T.vend_le
  unfold new sub64 addr64
  refine ⟨?_, ?_⟩
  · show v % 2 ^ 64 = v
    omega
  · show ((v % 2 ^ 64 + n % 2 ^ 64) % 2 ^ 64 + 2 ^ 64 - 1) % 2 ^ 64 = v + n - 1
    omega

lemma Sharing.withRequest (h : Sharing T s) (hst : s.dma.currentState = .idle)
    (hn : 1 ≤ n) (hv : T.region v) (hve : T.region (v + n - 1))
    (hfree : ∀ w, v ≤ w → w < v + n → entryOf T w ∉ s.front.refills) (vreg : Nat) (dir : Bool)
    (res : BitVec 8) : Sharing T (s.withRequest (.new s.nextId vreg v n dir res)) := by
  obtain ⟨hstart, hend⟩ := memVend_new hn hv hve s.nextId vreg dir res
  have hcases : ∀ q, (s.withRequest (.new s.nextId vreg v n dir res)).Waiting q →
      q = .new s.nextId vreg v n dir res ∨ s.Waiting q := by
    rintro q (⟨hq, hissued⟩ | ⟨hne, -⟩)
    · rcases mem_cons.mp hq with hq | hq
      · exact .inl hq
      · exact .inr (.inl ⟨hq, hissued⟩)
    · exact absurd hst hne
  refine ⟨h.front, fun hne => absurd hst hne, ?_, ?_, ?_⟩
  · intro q hq
    rcases hcases q hq with rfl | hq
    · rw [hstart, hend]
      exact ⟨hv, hve⟩
    · exact h.inRegion q hq
  · intro q hq w hlo hhi
    rcases hcases q hq with rfl | hq
    · rw [hstart] at hlo
      rw [hend] at hhi
      exact hfree w hlo (by omega)
    · exact h.apart q hq w hlo hhi
  · intro htr
    change s.dma.currentState = .transfer at htr
    rw [hst] at htr
    cases htr

lemma Sharing.initiate (h : Sharing T s) (hsize : 2 ≤ p.tlb.tlbSize) {dir : Bool} {busy : String}
    {vreg : Nat} {res : BitVec 8} (hst : s.dma.currentState = .idle)
    (hin : 1 ≤ n ∧ T.region v ∧ T.region (v + n - 1))
    (hfree : ∀ w, v ≤ w → w < v + n → entryOf T w ∉ s.front.refills)
    (hs : s.initiate dir busy p mem now vreg v n res = .ok s') : Sharing T s' := by
  have hnew := h.withRequest hst hin.1 hin.2.1 hin.2.2 hfree vreg dir res
  obtain ⟨-, -, ⟨-, rfl⟩ | ⟨-, hs⟩⟩ := initiate_ok hs
  · exact hnew
  · exact hnew.nextState hsize hs

lemma Sharing.response (h : Sharing T s) {k : Nat} (hl : ListSteady s (now, .response k))
    (hs : s.step p mem (now, .response k) = .ok s') : Sharing T s' := by
  have hre := response_recredits hl hs
  have hw : Shrinks s s' := by
    rintro q (⟨hq, hissued⟩ | ⟨hne, hq⟩)
    · obtain ⟨b, q', hq', rfl⟩ := hre.requests q hq
      exact ⟨q', .inl ⟨hq', hissued⟩, rfl, .inl rfl⟩
    · rw [hre.state] at hne
      obtain ⟨r, hr⟩ := h.serves hne
      obtain ⟨b, hr'⟩ := hre.working hne r hr
      rw [hr', some.injEq] at hq
      subst hq
      exact ⟨r, .inr ⟨hne, hr⟩, rfl, .inl rfl⟩
  refine ⟨by rw [hre.front]; exact h.front, ?_, h.inRegion_of_shrinks hw, ?_, ?_⟩
  · intro hne
    rw [hre.state] at hne
    obtain ⟨r, hr⟩ := h.serves hne
    obtain ⟨b, hr'⟩ := hre.working hne r hr
    exact ⟨_, hr'⟩
  · intro q hq w hlo hhi
    rw [hre.front]
    exact h.apart_of_shrinks hw q hq hlo hhi
  · intro htr q hq
    rw [hre.state] at htr
    have hne : s.dma.currentState ≠ .idle := by simp [htr]
    obtain ⟨r, hr⟩ := h.serves hne
    obtain ⟨b, hr'⟩ := hre.working hne r hr
    rw [hr', mem_some_iff] at hq
    subst hq
    rw [hre.front]
    exact h.looked htr r hr

lemma Sharing.cpu (h : Sharing T s) (hsize : 2 ≤ p.tlb.tlbSize) {a : Tlb.Access}
    (hin : a.InRegion T) (hsp : Spares T s (.cpu a)) (hs : s.step p mem (now, .cpu a) = .ok s') :
    Sharing T s' := by
  obtain ⟨f, hf, rfl⟩ := cpu_ok hs
  have heff := Tlb.Front.step_effect hsize h.front hin hf
  obtain ⟨hevict, hmiss⟩ := hsp
  refine ⟨heff.inv, h.serves, h.inRegion, ?_, ?_⟩
  · intro r hr w hlo hhi hmem
    rcases heff.refills _ hmem with hmem | ⟨pkt, accept, ha, hres, hideal, heq⟩
    · exact h.apart r hr w hlo hhi hmem
    · exact hmiss pkt accept ha hideal hres r hr w hlo hhi (page_eq_of_entryOf heq)
  · intro htr r hr
    have hres := h.looked htr r hr
    change f.tlb.Resident r.memVstart
    rcases heff.rules with hrules | ⟨hinst, k, -, hrules⟩
    · unfold Tlb.Resident
      rw [hrules]
      exact hres
    · have hkeep : (s.front.tlb.updateTLB p.tlb now (T.entry k)).Resident r.memVstart :=
        h.front.tlb.updateTLB_keeps hsize hres (fun hfull => hevict htr hinst hfull r hr)
      unfold Tlb.Resident
      rw [hrules]
      exact hkeep

/-! ## Runs -/

def RegionStep (T : Tlb.Table p.tlb mem) (s : DmaSys) (l : Nat × Event) (s' : DmaSys) : Prop :=
  InRegion T l.2 ∧ s.step p mem l = .ok s'

def Considerate (T : Tlb.Table p.tlb mem) (s : DmaSys) (l : Nat × Event) : Prop :=
  ListSteady s l ∧ Spares T s l.2

lemma Sharing.step (h : Sharing T s) (hsize : 2 ≤ p.tlb.tlbSize) {l : Nat × Event}
    (hl : Considerate T s l) (hs : RegionStep T s l s') : Sharing T s' := by
  obtain ⟨hin, hs⟩ := hs
  obtain ⟨hst, hsp⟩ := hl
  obtain ⟨now, e⟩ := l
  rcases e with ⟨vreg, vaddr, n, res⟩ | ⟨vreg, vaddr, n, res⟩ | _ | k | _ | a
  · exact h.initiate hsize hst hin hsp hs
  · exact h.initiate hsize hst hin hsp hs
  · obtain ⟨-, rfl⟩ | ⟨-, hs⟩ := nextState_step_ok hs
    · exact h
    · exact h.nextState hsize hs
  · exact h.response hst hs
  · obtain ⟨-, rfl⟩ | ⟨-, rfl⟩ := done_ok hs
    · exact h
    · exact { h with }
  · exact h.cpu hsize hin hsp hs

def dmaTable : Tlb.Table dmaParams.tlb defaultOffload.published.mem := defaultOffload.table

def readAt (v : Nat) : Tlb.Access :=
  .request ⟨v, 4, false, true, false, 0, false, .nop, 0, []⟩ true

end DmaSys

end SmcPim
