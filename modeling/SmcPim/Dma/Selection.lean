import SmcPim.Dma.Accounting

/-! # The request that is being served -/

namespace SmcPim

open List Option

namespace DmaSys

variable {p : DmaParams} {mem : Memory} {now : Nat} {s s' : DmaSys}

/-! ## The invariant -/

def Driving (s : DmaSys) (id : Nat) : Prop :=
  s.dma.currentState ≠ .idle ∧ s.selected = some id

def Sent (s : DmaSys) (r : DMARequest) : Prop :=
  ∃ x ∈ s.transfers, x.owner = r.id ∧ x.vend = r.memVend

/-- In TLBREFILL and TRANSFER the index designates the request that was selected in IDLE. -/
structure Stable (s : DmaSys) : Prop where
  current : s.dma.currentState ≠ .idle → ∃ r, s.working = some r ∧ s.selected = some r.id
  scheduled : s.dma.currentState ≠ .idle → s.dma.nextStateScheduled = true
  driven : ∀ r ∈ s.dma.requests, r.issued = true → s.Driving r.id ∨ s.Sent r

structure Selection (s : DmaSys) : Prop extends Stable s where
  ids : Ids s.dma.requests s.nextId
  vend_lt : ∀ r ∈ s.dma.requests, r.memVend < 2 ^ 64
  issuing : s.dma.currentState = .transfer → ∀ r ∈ s.working, r.issued = true
  ended : ∀ r ∈ s.dma.requests, r.ended = true → r.issued = true ∧ ¬ s.Driving r.id

lemma not_driving_of_idle (hst : s.dma.currentState = .idle) (id : Nat) : ¬ s.Driving id :=
  fun h => h.1 hst

variable {r : DMARequest} {i k : Nat} {l : Nat × Event}

lemma Selection.sent_of_idle (h : Selection s) (hst : s.dma.currentState = .idle)
    (hr : r ∈ s.dma.requests) (hissued : r.issued = true) : s.Sent r :=
  (h.driven r hr hissued).resolve_left (not_driving_of_idle hst r.id)

/-! ## The states -/

lemma Selection.stateIdle (h : Selection s) (hst : s.dma.currentState = .idle) :
    Selection s.stateIdle := by
  unfold DmaSys.stateIdle
  split
  · exact ⟨⟨fun hne => absurd hst hne, fun _ => rfl,
        fun r hr hissued => .inr (h.sent_of_idle hst hr hissued)⟩, h.ids, h.vend_lt, by simp [hst],
      fun r hr hend => ⟨(h.ended r hr hend).1, fun hd => hd.1 hst⟩⟩
  · rename_i i hi
    rw [findIdx?_eq_some_iff_getElem] at hi
    obtain ⟨hlt, hnew, -⟩ := hi
    have hget := getElem?_eq_getElem hlt
    generalize s.dma.requests[i] = r at hget hnew
    have hsel : s.dma.requests[i]?.map DMARequest.id = some r.id := by rw [hget]; rfl
    refine ⟨⟨?_, fun _ => rfl, fun q hq hissued => .inr (h.sent_of_idle hst hq hissued)⟩, h.ids,
      h.vend_lt, by simp, ?_⟩
    · intro _
      exact ⟨r, working_eq rfl hget, hsel⟩
    · rintro q hq hend
      refine ⟨(h.ended q hq hend).1, ?_⟩
      rintro ⟨-, hid⟩
      change s.dma.requests[i]?.map DMARequest.id = some q.id at hid
      rw [hsel, some.injEq] at hid
      have := h.ids.eq_of_id (mem_of_getElem? hget) hq hid
      subst this
      rw [(h.ended r hq hend).1] at hnew
      cases hnew

lemma Selection.setCurrent (h : Selection s) {r' : DMARequest}
    (hi : s.dma.currentIndex = some i) (hr : s.dma.requests[i]? = some r)
    (hst : s.dma.currentState ≠ .idle) (hid : r'.id = r.id) (hvend : r'.memVend = r.memVend)
    (hreq : s'.dma.requests = s.dma.requests.set i r') (hindex : s'.dma.currentIndex = some i)
    (hnext : s'.nextId = s.nextId) (hsched : s'.dma.nextStateScheduled = true) (hsel : s'.selected = s.selected)
    (hsent : ∀ x ∈ s.transfers, x ∈ s'.transfers) (hissued : r'.issued = true)
    (hend : r'.ended = true → s'.dma.currentState = .idle)
    (hlast : s'.dma.currentState = .idle → s'.Sent r') : Selection s' := by
  have hwork : s'.working = some r' := by
    apply working_eq hindex
    rw [hreq]
    exact List.getElem?_set_self (List.getElem?_eq_some_iff.mp hr).1
  have hselr : s.selected = some r.id := by
    obtain ⟨q, hq, hs⟩ := h.current hst
    rw [working_eq hi hr, some.injEq] at hq
    rw [hs, hq]
  refine ⟨⟨?_, fun _ => hsched, ?_⟩, ?_, ?_, ?_, ?_⟩
  · intro _
    exact ⟨r', hwork, by rw [hsel, hselr, hid]⟩
  · intro q hq hqi
    rw [hreq] at hq
    rcases h.ids.mem_set hr hid hq with rfl | ⟨hq, hne⟩
    · by_cases hidle : s'.dma.currentState = .idle
      · exact .inr (hlast hidle)
      · exact .inl ⟨hidle, by rw [hsel, hselr, hid]⟩
    · rcases h.driven q hq hqi with hd | ⟨x, hx, hown⟩
      · have hd := hd.2
        rw [hselr, some.injEq] at hd
        exact absurd hd.symm hne
      · exact .inr ⟨x, hsent x hx, hown⟩
  · rw [hreq, hnext]
    exact h.ids.set hr hid
  · intro q hq
    rw [hreq] at hq
    rcases h.ids.mem_set hr hid hq with rfl | ⟨hq, -⟩
    · rw [hvend]
      exact h.vend_lt r (mem_of_getElem? hr)
    · exact h.vend_lt q hq
  · intro _ q hq
    rw [hwork, mem_some_iff] at hq
    exact hq ▸ hissued
  · intro q hq hqe
    rw [hreq] at hq
    rcases h.ids.mem_set hr hid hq with rfl | ⟨hq, hne⟩
    · exact ⟨hissued, not_driving_of_idle (hend hqe) _⟩
    · refine ⟨(h.ended q hq hqe).1, ?_⟩
      rintro ⟨-, hd⟩
      rw [hsel, hselr, some.injEq] at hd
      exact hne hd.symm

lemma Selection.stateTlbRefill (h : Selection s) (hst : s.dma.currentState = .tlbRefill)
    (hlong : ∀ r ∈ s.working, r.memVstart < r.memVend)
    (hs : s.stateTlbRefill p mem now = .ok s') : Selection s' := by
  have hne : s.dma.currentState ≠ .idle := by simp [hst]
  obtain ⟨i, r, hi, hr, ⟨hle, -⟩ | ⟨-, t, rfl, -⟩⟩ := stateTlbRefill_ok hs
  · exact absurd (hlong r (working_eq hi hr)) (Nat.not_lt.mpr hle)
  · have hend : r.ended = true → False := by
      intro hend
      obtain ⟨q, hq, hsel⟩ := h.current hne
      rw [working_eq hi hr, some.injEq] at hq
      subst hq
      exact (h.ended r (mem_of_getElem? hr) hend).2 ⟨hne, hsel⟩
    refine h.setCurrent hi hr hne ?_ ?_ rfl hi rfl rfl rfl (fun _ hx => hx) ?_ ?_ ?_
    · rfl
    · rfl
    · rfl
    · exact fun he => (hend he).elim
    · intro hidle
      exact absurd hidle (by simp [setState])

lemma Selection.stateTransfer (h : Selection s) (hst : s.dma.currentState = .transfer)
    (hlast : ∀ r ∈ s.working, ∀ e ∈ (s.front.tlb.sliceVend r.memVstart).toOption, e + 1 ≠ r.memVend)
    (hs : s.stateTransfer p = .ok s') : Selection s' := by
  have hne : s.dma.currentState ≠ .idle := by simp [hst]
  obtain ⟨i, r, e, r', more, hi, hr, he, -, -, hnext, rfl⟩ := stateTransfer_ok hs
  have hwork := working_eq hi hr
  have hvend := h.vend_lt r (mem_of_getElem? hr)
  have hne_last := hlast r hwork e (by rw [he]; rfl)
  obtain ⟨hid, -, -, hve, -, -, hissued⟩ := nextSubRequest_frame hnext
  obtain ⟨-, ⟨hover, rfl, rfl⟩ | ⟨-, rfl, rfl⟩⟩ := DMARequest.nextSubRequest_ok hnext
  · refine h.setCurrent hi hr hne hid hve rfl hi rfl rfl rfl ?_ ?_ (fun _ => rfl) ?_
    · exact fun x hx => mem_append_left _ hx
    · exact h.issuing hst r hwork
    · intro _
      -- Only a sub-transfer that reaches the end of the request ends it.
      have hmin : min e r.memVend = r.memVend := by
        change r.memVend ≤ addr64 (min e r.memVend + 1) at hover
        unfold addr64 at hover
        omega
      exact ⟨_, mem_append_right _ (mem_singleton_self _), rfl, hmin⟩
  · refine h.setCurrent hi hr hne hid hve rfl hi rfl rfl rfl ?_ ?_ ?_ ?_
    · exact fun x hx => mem_append_left _ hx
    · exact h.issuing hst r hwork
    · intro hend
      obtain ⟨q, hq, hsel⟩ := h.current hne
      rw [hwork, some.injEq] at hq
      subst hq
      exact absurd ⟨hne, hsel⟩ (h.ended r (mem_of_getElem? hr) hend).2
    · intro hidle
      exact absurd hidle (by simp [setState])

/-! ## Conditions on a step -/

/-- While a request is served no other comes in, and only requests behind it complete. -/
def ListSteady (s : DmaSys) : Nat × Event → Prop
  | (_, .initiateRead ..) | (_, .initiateWrite ..) => s.dma.currentState = .idle
  | (_, .response k) =>
    s.dma.currentState ≠ .idle → ∀ pkt ∈ s.inFlight[k]?,
      ∀ i ∈ matchings pkt.addr 0 s.dma.requests, ∀ r ∈ s.dma.requests[i]?,
        addr64 (r.bytesCompleted + pkt.size) = r.bytesExpected → ∀ c ∈ s.dma.currentIndex, c < i
  | (_, .nextState) | (_, .done) | (_, .cpu _) => True

def LastByteInside (s : DmaSys) : Nat × Event → Prop
  | (_, .nextState) =>
    (s.dma.currentState = .tlbRefill → ∀ r ∈ s.working, r.memVstart < r.memVend) ∧
      (s.dma.currentState = .transfer → ∀ r ∈ s.working,
        ∀ e ∈ (s.front.tlb.sliceVend r.memVstart).toOption, e + 1 ≠ r.memVend)
  | _ => True

def Undisturbed (s : DmaSys) (l : Nat × Event) : Prop := ListSteady s l ∧ LastByteInside s l

instance (s : DmaSys) : (l : Nat × Event) → Decidable (ListSteady s l)
  | (_, .initiateRead ..) | (_, .initiateWrite ..) =>
    inferInstanceAs (Decidable (s.dma.currentState = .idle))
  | (_, .response k) => inferInstanceAs (Decidable (s.dma.currentState ≠ .idle →
      ∀ pkt ∈ s.inFlight[k]?, ∀ i ∈ matchings pkt.addr 0 s.dma.requests, ∀ r ∈ s.dma.requests[i]?,
        addr64 (r.bytesCompleted + pkt.size) = r.bytesExpected → ∀ c ∈ s.dma.currentIndex, c < i))
  | (_, .nextState) | (_, .done) | (_, .cpu _) => .isTrue trivial

instance (s : DmaSys) : (l : Nat × Event) → Decidable (LastByteInside s l)
  | (_, .nextState) => inferInstanceAs (Decidable (_ ∧ _))
  | (_, .initiateRead ..) | (_, .initiateWrite ..) | (_, .response _) | (_, .done)
  | (_, .cpu _) => .isTrue trivial

instance (s : DmaSys) (l : Nat × Event) : Decidable (Undisturbed s l) :=
  inferInstanceAs (Decidable (_ ∧ _))

lemma Selection.nextState (h : Selection s) (hl : LastByteInside s (now, .nextState))
    (hs : s.nextState p mem now = .ok s') : Selection s' := by
  obtain ⟨hnil, rfl⟩ | ⟨-, ⟨hst, rfl⟩ | ⟨hst, hs⟩ | ⟨hst, hs⟩⟩ := nextState_ok hs
  · refine ⟨⟨by simp, by simp, ?_⟩, h.ids, h.vend_lt, by simp, ?_⟩
    · simp [hnil]
    · simp [hnil]
  · exact h.stateIdle hst
  · exact h.stateTlbRefill hst (hl.1 hst) hs
  · exact h.stateTransfer hst (hl.2 hst) hs

lemma Selection.withRequest (h : Selection s) (hst : s.dma.currentState = .idle)
    (vreg vaddr n : Nat) (dir : Bool) (res : BitVec 8) :
    Selection (s.withRequest (.new s.nextId vreg vaddr n dir res)) := by
  refine ⟨⟨fun hne => absurd hst hne, h.scheduled, ?_⟩, h.ids.cons rfl, ?_, ?_, ?_⟩
  · intro q hq hissued
    rcases mem_cons.mp hq with rfl | hq
    · exact absurd hissued (by simp [DMARequest.new])
    · exact .inr (h.sent_of_idle hst hq hissued)
  · intro q hq
    rcases mem_cons.mp hq with rfl | hq
    · exact Nat.mod_lt _ (by decide)
    · exact h.vend_lt q hq
  · intro htr
    change s.dma.currentState = .transfer at htr
    rw [hst] at htr
    cases htr
  · intro q hq hend
    rcases mem_cons.mp hq with rfl | hq
    · exact absurd hend (by simp [DMARequest.new])
    · exact ⟨(h.ended q hq hend).1, not_driving_of_idle hst _⟩

lemma Selection.initiate (h : Selection s) {dir : Bool} {busy : String} {vreg vaddr n : Nat}
    {res : BitVec 8} (hst : s.dma.currentState = .idle)
    (hs : s.initiate dir busy p mem now vreg vaddr n res = .ok s') : Selection s' := by
  have hnew := h.withRequest hst vreg vaddr n dir res
  have hst' : (s.withRequest (.new s.nextId vreg vaddr n dir res)).dma.currentState = .idle := hst
  obtain ⟨-, -, ⟨-, rfl⟩ | ⟨-, hs⟩⟩ := initiate_ok hs
  · exact hnew
  · have hl : LastByteInside (s.withRequest (.new s.nextId vreg vaddr n dir res)) (now, .nextState) :=
      ⟨by simp [hst'], by simp [hst']⟩
    exact hnew.nextState hl hs

/-! ## Responses -/

structure Recredited (s s' : DmaSys) : Prop where
  front : s'.front = s.front
  state : s'.dma.currentState = s.dma.currentState
  ids : ∀ n, Ids s.dma.requests n → Ids s'.dma.requests n
  requests : ∀ q ∈ s'.dma.requests, ∃ b, ∃ q' ∈ s.dma.requests, q = { q' with bytesCompleted := b }
  working : s.dma.currentState ≠ .idle → ∀ q, s.working = some q →
    ∃ b, s'.working = some { q with bytesCompleted := b }

lemma recredited_credit {b : Nat} (hr : s.dma.requests[i]? = some r) :
    Recredited s (s.setRequest i { r with bytesCompleted := b }) where
  front := rfl
  state := rfl
  ids := fun _ h => h.set hr rfl
  requests := by
    intro q hq
    rcases mem_or_eq_of_mem_set hq with hq | rfl
    · exact ⟨q.bytesCompleted, q, hq, rfl⟩
    · exact ⟨b, r, mem_of_getElem? hr, rfl⟩
  working := by
    intro _ q hq
    obtain ⟨c, hc, hq⟩ := bind_eq_some_iff.mp hq
    by_cases hci : i = c
    · subst hci
      rw [hr, some.injEq] at hq
      subst hq
      exact ⟨b, working_eq hc (List.getElem?_set_self (List.getElem?_eq_some_iff.mp hr).1)⟩
    · exact ⟨q.bytesCompleted, working_eq hc ((List.getElem?_set_ne hci).trans hq)⟩

lemma recredited_complete (m : BitVec 8)
    (hbehind : s.dma.currentState ≠ .idle → ∀ c ∈ s.dma.currentIndex, c < i) :
    Recredited s { s with
      dma := { s.dma with dmaResources := m, requests := s.dma.requests.eraseIdx i }
      dmaStatus := m } where
  front := rfl
  state := rfl
  ids := fun _ h => h.erase i
  requests := fun q hq => ⟨q.bytesCompleted, q, mem_of_mem_eraseIdx hq, rfl⟩
  working := by
    intro hst q hq
    obtain ⟨c, hc, hq⟩ := bind_eq_some_iff.mp hq
    exact ⟨q.bytesCompleted,
      working_eq hc ((getElem?_eraseIdx_of_lt (hbehind hst c hc)).trans hq)⟩

lemma response_recredits (hl : ListSteady s (now, .response k))
    (hs : s.step p mem (now, .response k) = .ok s') : Recredited s s' := by
  obtain ⟨-, rfl⟩ | ⟨pkt, a, hk, -, -, hs⟩ := response_ok hs
  · exact ⟨rfl, rfl, fun _ h => h, fun q hq => ⟨_, q, hq, rfl⟩, fun _ q hq => ⟨_, hq⟩⟩
  · obtain ⟨i, r, hfind, hr, -, ⟨heq, rfl⟩ | ⟨-, rfl⟩⟩ := handlePacket_ok hs
    · have h := recredited_complete (s := s.withResponse k pkt a)
        (s.dma.dmaResources &&& ~~~ r.dmaResource)
        (fun hst => hl hst pkt hk i (findRequest_mem hfind) r hr heq)
      exact { h with }
    · have h := recredited_credit (s := s.withResponse k pkt a) (b := addr64 (r.bytesCompleted + pkt.size)) hr
      exact { h with }

lemma response_frame (hs : s.step p mem (now, .response k) = .ok s') :
    s'.nextId = s.nextId ∧ s'.selected = s.selected ∧ s'.transfers = s.transfers ∧
      s'.dma.nextStateScheduled = s.dma.nextStateScheduled ∧
      s'.dma.currentIndex = s.dma.currentIndex ∧
      s'.dma.dmaDoneEventFree = s.dma.dmaDoneEventFree ∧ s'.inFlight = s.inFlight.eraseIdx k := by
  obtain ⟨hk, rfl⟩ | ⟨pkt, a, hk, -, -, hs⟩ := response_ok hs
  · rw [eraseIdx_of_length_le (getElem?_eq_none_iff.mp hk)]
    exact ⟨rfl, rfl, rfl, rfl, rfl, rfl, rfl⟩
  · obtain ⟨i, r, -, -, -, ⟨-, rfl⟩ | ⟨-, rfl⟩⟩ := handlePacket_ok hs
    · exact ⟨rfl, rfl, rfl, rfl, rfl, rfl, rfl⟩
    · exact ⟨rfl, rfl, rfl, rfl, rfl, rfl, rfl⟩

lemma Selection.response (h : Selection s) (hl : ListSteady s (now, .response k))
    (hs : s.step p mem (now, .response k) = .ok s') : Selection s' := by
  have hre := response_recredits hl hs
  obtain ⟨hnext, hsel, htr, hsched, -⟩ := response_frame hs
  have hdriving : ∀ id, s'.Driving id ↔ s.Driving id := by
    intro id
    unfold Driving
    rw [hre.state, hsel]
  refine ⟨⟨?_, ?_, ?_⟩, ?_, ?_, ?_, ?_⟩
  · intro hst
    rw [hre.state] at hst
    obtain ⟨q, hq, hid⟩ := h.current hst
    obtain ⟨b, hq'⟩ := hre.working hst q hq
    exact ⟨_, hq', by rw [hsel, hid]⟩
  · rw [hre.state, hsched]
    exact h.scheduled
  · intro q hq hqi
    obtain ⟨b, q', hq', rfl⟩ := hre.requests q hq
    rw [hdriving]
    unfold Sent
    rw [htr]
    exact h.driven q' hq' hqi
  · rw [hnext]
    exact hre.ids _ h.ids
  · intro q hq
    obtain ⟨b, q', hq', rfl⟩ := hre.requests q hq
    exact h.vend_lt q' hq'
  · intro hst q hq
    rw [hre.state] at hst
    have hne : s.dma.currentState ≠ .idle := by simp [hst]
    obtain ⟨q0, hq0, -⟩ := h.current hne
    obtain ⟨b, hq'⟩ := hre.working hne q0 hq0
    rw [hq', mem_some_iff] at hq
    subst hq
    exact h.issuing hst q0 hq0
  · intro q hq hqe
    obtain ⟨b, q', hq', rfl⟩ := hre.requests q hq
    rw [hdriving]
    exact h.ended q' hq' hqe

/-! ## Runs -/

lemma Selection.step (h : Selection s) (hl : Undisturbed s l)
    (hs : s.step p mem l = .ok s') : Selection s' := by
  obtain ⟨now, e⟩ := l
  rcases e with ⟨vreg, vaddr, n, res⟩ | ⟨vreg, vaddr, n, res⟩ | _ | k | _ | a
  · exact h.initiate hl.1 hs
  · exact h.initiate hl.1 hs
  · obtain ⟨-, rfl⟩ | ⟨-, hs⟩ := nextState_step_ok hs
    · exact h
    · exact h.nextState hl.2 hs
  · exact h.response hl.1 hs
  · obtain ⟨-, rfl⟩ | ⟨-, rfl⟩ := done_ok hs
    · exact h
    · exact ⟨{ h with }, h.ids, h.vend_lt, h.issuing, h.ended⟩
  · obtain ⟨f, -, rfl⟩ := cpu_ok hs
    exact ⟨{ h with }, h.ids, h.vend_lt, h.issuing, h.ended⟩

lemma Selection.noReissue (h : Selection s) (l : Nat × Event) : NoReissue s l := by
  obtain ⟨now, e⟩ := l
  rcases e with _ | _ | _ | _ | _ | _
  case nextState =>
    intro hst r hr
    have hne : s.dma.currentState ≠ .idle := by simp [hst]
    obtain ⟨q, hq, hsel⟩ := h.current hne
    rw [hq, mem_some_iff] at hr
    subst hr
    obtain ⟨i, -, hi⟩ := bind_eq_some_iff.mp hq
    rw [← Bool.not_eq_true]
    intro hend
    exact (h.ended q (mem_of_getElem? hi) hend).2 ⟨hne, hsel⟩
  all_goals trivial

end DmaSys

end SmcPim
