import SmcPim.Dma.Model

/-! # What a step of the engine can do -/

namespace SmcPim

open Except

namespace DMARequest

variable {r r' : DMARequest} {v : Nat} {more : Bool}

lemma nextSubRequest_ok (h : r.nextSubRequest v = .ok (r', more)) :
    r.memVstart ≤ v ∧
      ((r.memVend ≤ v ∧ more = false ∧ r' = { r with ended := true }) ∨
        (v < r.memVend ∧ more = true ∧
          r' = { r with memVstart := v, vregPtr := r.vregPtr + (v - r.memVstart) })) := by
  unfold nextSubRequest at h
  rw [bind_eq_ok] at h
  obtain ⟨_, ha, h⟩ := h
  rw [assert_eq_ok] at ha
  refine ⟨ha, ?_⟩
  split at h
  · rename_i hle
    obtain ⟨rfl, rfl⟩ := Prod.mk.inj (ok.inj h)
    exact .inl ⟨hle, rfl, rfl⟩
  · rename_i hlt
    obtain ⟨rfl, rfl⟩ := Prod.mk.inj (ok.inj h)
    refine .inr ⟨Nat.not_le.mp hlt, rfl, ?_⟩
    rw [Nat.add_sub_cancel' ha]

end DMARequest

namespace DmaSys

variable {p : DmaParams} {mem : Memory} {now : Nat} {s s' : DmaSys}

variable {e : Fault} {i addr : Nat} {r : DMARequest}

lemma curr_ok (h : s.curr e = .ok (i, r)) :
    s.dma.currentIndex = some i ∧ s.dma.requests[i]? = some r := by
  unfold curr at h
  split at h
  · cases h
  · rename_i j hj
    split at h
    · cases h
    · rename_i q hq
      obtain ⟨rfl, rfl⟩ := Prod.mk.inj (ok.inj h)
      exact ⟨hj, hq⟩

lemma curr_eq (hi : s.dma.currentIndex = some i)
    (hr : s.dma.requests[i]? = some r) : s.curr e = .ok (i, r) := by
  unfold curr
  rw [hi]
  simp only
  rw [hr]

def working (s : DmaSys) : Option DMARequest :=
  s.dma.currentIndex.bind fun i => s.dma.requests[i]?

lemma working_eq (hi : s.dma.currentIndex = some i)
    (hr : s.dma.requests[i]? = some r) : s.working = some r := by
  unfold working
  rw [hi]
  exact hr

/-! ## The states -/

lemma stateTlbRefill_ok (h : s.stateTlbRefill p mem now = .ok s') :
    ∃ i r, s.dma.currentIndex = some i ∧ s.dma.requests[i]? = some r ∧
      ((r.memVend ≤ r.memVstart ∧ s' = (s.setRequest i { r with issued := true }).setState .idle) ∨
        (r.memVstart < r.memVend ∧ ∃ t : Tlb,
          s' = { s.setRequest i { r with issued := true } with
            front := { s.front with tlb := t } }.setState .transfer ∧
          (s.front.tlb.remapCheck r.memVstart ≠ noAddr ∧ t = s.front.tlb ∨
            s.front.tlb.remapCheck r.memVstart = noAddr ∧
              s.front.tlb.refillTLBFunctional p.tlb mem now r.memVstart = .ok t))) := by
  unfold stateTlbRefill at h
  rw [bind_eq_ok] at h
  obtain ⟨⟨i, r⟩, hc, h⟩ := h
  obtain ⟨hi, hr⟩ := curr_ok hc
  refine ⟨i, r, hi, hr, ?_⟩
  simp only at h
  split at h
  · rename_i hlt
    refine .inr ⟨hlt, ?_⟩
    split at h
    · rename_i hmiss
      rw [bind_eq_ok] at h
      obtain ⟨t, ht, h⟩ := h
      exact ⟨t, (ok.inj h).symm, .inr ⟨hmiss, ht⟩⟩
    · rename_i hhit
      exact ⟨s.front.tlb, (ok.inj h).symm, .inl ⟨hhit, rfl⟩⟩
  · rename_i hge
    exact .inl ⟨Nat.not_lt.mp hge, (ok.inj h).symm⟩

lemma stateTransfer_ok (h : s.stateTransfer p = .ok s') :
    ∃ i r e r' more, s.dma.currentIndex = some i ∧ s.dma.requests[i]? = some r ∧
      s.front.tlb.sliceVend r.memVstart = .ok e ∧ s.dma.dmaDoneEventFree ≠ 0 ∧
      sub64 (s.front.tlb.remapCheck (min e r.memVend)) (s.front.tlb.remapCheck r.memVstart) =
        sub64 (min e r.memVend) r.memVstart ∧
      { r with memP := r.memP ++ [(s.front.tlb.remapCheck r.memVstart,
          s.front.tlb.remapCheck (min e r.memVend))] }.nextSubRequest
        (addr64 (min e r.memVend + 1)) = .ok (r', more) ∧
      s' = (((s.issue p r (min e r.memVend) (s.front.tlb.remapCheck r.memVstart)
          (addr64 (sub64 (s.front.tlb.remapCheck (min e r.memVend))
            (s.front.tlb.remapCheck r.memVstart) + 1))).setRequest i r').setState
        (if more then .tlbRefill else .idle)) := by
  unfold stateTransfer at h
  rw [bind_eq_ok] at h
  obtain ⟨⟨i, r⟩, hc, h⟩ := h
  obtain ⟨hi, hr⟩ := curr_ok hc
  simp only at h
  rw [bind_eq_ok] at h
  obtain ⟨e, he, h⟩ := h
  rw [bind_eq_ok] at h
  obtain ⟨_, hsub, h⟩ := h
  rw [assert_eq_ok] at hsub
  rw [bind_eq_ok] at h
  obtain ⟨_, hfree, h⟩ := h
  rw [assert_eq_ok] at hfree
  rw [bind_eq_ok] at h
  obtain ⟨⟨r', more⟩, hnext, h⟩ := h
  exact ⟨i, r, e, r', more, hi, hr, he, hfree, hsub, hnext, (ok.inj h).symm⟩

lemma stateTransfer_total {e : Nat} (hi : s.dma.currentIndex = some i)
    (hr : s.dma.requests[i]? = some r) (he : s.front.tlb.sliceVend r.memVstart = .ok e)
    (hsub : sub64 (s.front.tlb.remapCheck (min e r.memVend)) (s.front.tlb.remapCheck r.memVstart) =
      sub64 (min e r.memVend) r.memVstart)
    (hfree : s.dma.dmaDoneEventFree ≠ 0)
    (hge : r.memVstart ≤ addr64 (min e r.memVend + 1)) : ∃ s', s.stateTransfer p = .ok s' := by
  unfold stateTransfer
  rw [curr_eq hi hr, ok_bind]
  dsimp only
  rw [he, ok_bind, assert_ok hsub, ok_bind, assert_ok hfree, ok_bind]
  unfold DMARequest.nextSubRequest
  dsimp only
  rw [assert_ok hge, ok_bind]
  split
  · exact ⟨_, rfl⟩
  · exact ⟨_, rfl⟩

lemma nextState_ok (h : s.nextState p mem now = .ok s') :
    (s.dma.requests = [] ∧ s' = { s with dma := { s.dma with
        currentState := .idle, currentIndex := none, nextStateScheduled := false } }) ∨
      s.dma.requests ≠ [] ∧
        ((s.dma.currentState = .idle ∧ s' = s.stateIdle) ∨
          (s.dma.currentState = .tlbRefill ∧ s.stateTlbRefill p mem now = .ok s') ∨
          (s.dma.currentState = .transfer ∧ s.stateTransfer p = .ok s')) := by
  unfold nextState at h
  split at h
  · rename_i hnil
    exact .inl ⟨hnil, (ok.inj h).symm⟩
  · rename_i hne
    refine .inr ⟨hne, ?_⟩
    split at h
    · rename_i hst
      exact .inl ⟨hst, (ok.inj h).symm⟩
    · rename_i hst
      exact .inr (.inl ⟨hst, h⟩)
    · rename_i hst
      exact .inr (.inr ⟨hst, h⟩)

def withRequest (s : DmaSys) (r : DMARequest) : DmaSys :=
  { s with
    dma := { s.dma with
      dmaResources := s.dma.dmaResources ||| r.dmaResource
      requests := r :: s.dma.requests }
    dmaStatus := s.dma.dmaResources ||| r.dmaResource
    nextId := s.nextId + 1 }

lemma initiate_ok {dir : Bool} {busy : String} {vreg vaddr n : Nat} {res : BitVec 8}
    (h : s.initiate dir busy p mem now vreg vaddr n res = .ok s') :
    res ≠ 0 ∧ s.dma.dmaResources &&& res = 0 ∧
      ((s.dma.nextStateScheduled = true ∧
          s' = s.withRequest (.new s.nextId vreg vaddr n dir res)) ∨
        (s.dma.nextStateScheduled = false ∧
          (s.withRequest (.new s.nextId vreg vaddr n dir res)).nextState p mem now = .ok s')) := by
  unfold initiate at h
  rw [bind_eq_ok] at h
  obtain ⟨_, hres, h⟩ := h
  rw [assert_eq_ok] at hres
  refine ⟨hres, ?_⟩
  split at h
  · cases h
  · rename_i hfree
    refine ⟨not_not.mp hfree, ?_⟩
    simp only at h
    split at h
    · rename_i hsch
      exact .inl ⟨hsch, (ok.inj h).symm⟩
    · rename_i hsch
      exact .inr ⟨(Bool.not_eq_true _).mp hsch, h⟩

/-! ## Responses -/

lemma handlePacket_ok {size : Nat} (h : s.handlePacket addr size = .ok s') :
    ∃ i r, s.findRequest addr = .ok i ∧ s.dma.requests[i]? = some r ∧
      addr64 (r.bytesCompleted + size) ≤ r.bytesExpected ∧
      ((addr64 (r.bytesCompleted + size) = r.bytesExpected ∧
          s' = { s with
            dma := { s.dma with
              dmaResources := s.dma.dmaResources &&& ~~~ r.dmaResource
              requests := s.dma.requests.eraseIdx i }
            dmaStatus := s.dma.dmaResources &&& ~~~ r.dmaResource }) ∨
        (addr64 (r.bytesCompleted + size) ≠ r.bytesExpected ∧
          s' = s.setRequest i { r with bytesCompleted := addr64 (r.bytesCompleted + size) })) := by
  unfold handlePacket at h
  rw [bind_eq_ok] at h
  obtain ⟨i, hi, h⟩ := h
  split at h
  · cases h
  · rename_i r hr
    refine ⟨i, r, hi, hr, ?_⟩
    rw [bind_eq_ok] at h
    obtain ⟨_, hle, h⟩ := h
    rw [assert_eq_ok] at hle
    refine ⟨hle, ?_⟩
    split at h
    · rename_i heq
      rw [bind_eq_ok] at h
      obtain ⟨_, -, h⟩ := h
      rw [bind_eq_ok] at h
      obtain ⟨_, -, h⟩ := h
      exact .inl ⟨heq, (ok.inj h).symm⟩
    · rename_i hne
      exact .inr ⟨hne, (ok.inj h).symm⟩

def withResponse (s : DmaSys) (k : Nat) (pkt : DmaPacket) (a : DmaReqState) : DmaSys :=
  { s with
    inFlight := s.inFlight.eraseIdx k
    actions := s.actions.set pkt.action { a with numBytes := a.numBytes + pkt.size }
    doneEvents := if a.numBytes + pkt.size = a.totBytes then s.doneEvents + 1 else s.doneEvents }

lemma response_ok {k : Nat} (h : s.step p mem (now, .response k) = .ok s') :
    (s.inFlight[k]? = none ∧ s' = s) ∨
      ∃ pkt a, s.inFlight[k]? = some pkt ∧ s.actions[pkt.action]? = some a ∧
        a.numBytes + pkt.size ≤ a.totBytes ∧
        (s.withResponse k pkt a).handlePacket pkt.addr pkt.size = .ok s' := by
  unfold step at h
  simp only at h
  split at h
  · rename_i hk
    exact .inl ⟨hk, (ok.inj h).symm⟩
  · rename_i pkt hk
    unfold handleResp at h
    split at h
    · cases h
    · rename_i a ha
      rw [bind_eq_ok] at h
      obtain ⟨_, hle, h⟩ := h
      rw [assert_eq_ok] at hle
      exact .inr ⟨pkt, a, hk, ha, hle, h⟩

lemma findRequest_mem (h : s.findRequest addr = .ok i) : i ∈ matchings addr 0 s.dma.requests := by
  unfold findRequest at h
  split at h
  · cases h
  · rename_i j hj
    rw [hj, ok.inj h]
    exact List.mem_singleton_self i
  · cases h

lemma nextState_step_ok (h : s.step p mem (now, .nextState) = .ok s') :
    (s.dma.nextStateScheduled = false ∧ s' = s) ∨
      (s.dma.nextStateScheduled = true ∧ s.nextState p mem now = .ok s') := by
  unfold step at h
  simp only at h
  split at h
  · rename_i hsch
    exact .inr ⟨hsch, h⟩
  · rename_i hsch
    exact .inl ⟨(Bool.not_eq_true _).mp hsch, (ok.inj h).symm⟩

lemma done_ok (h : s.step p mem (now, .done) = .ok s') :
    (s.doneEvents = 0 ∧ s' = s) ∨
      (s.doneEvents ≠ 0 ∧ s' = { s with
        doneEvents := s.doneEvents - 1
        dma := { s.dma with dmaDoneEventFree := s.dma.dmaDoneEventFree + 1 } }) := by
  unfold step at h
  simp only at h
  split at h
  · rename_i hz
    exact .inl ⟨hz, (ok.inj h).symm⟩
  · rename_i hz
    exact .inr ⟨hz, (ok.inj h).symm⟩

lemma cpu_ok {a : Tlb.Access} (h : s.step p mem (now, .cpu a) = .ok s') :
    ∃ f, s.front.step p.tlb mem (now, a) = .ok f ∧ s' = { s with front := f } := by
  unfold step at h
  simp only at h
  rw [bind_eq_ok] at h
  obtain ⟨f, hf, h⟩ := h
  exact ⟨f, hf, (ok.inj h).symm⟩

end DmaSys

end SmcPim
