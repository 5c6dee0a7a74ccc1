import SmcPim.Dma.Ledger
import SmcPim.Tlb.EndToEnd

/-! # Resources and responses -/

namespace SmcPim

open List DMARequest DmaPacket

def DMARequest.account (r : DMARequest) : Nat × BitVec 8 × Nat × Nat :=
  (r.id, r.dmaResource, r.bytesCompleted, r.bytesExpected)

namespace DmaSys

variable {p : DmaParams} {mem : Memory} {now : Nat} {s s' : DmaSys}

variable {addr k i vreg vaddr n : Nat} {rs : List DMARequest} {r : DMARequest} {res : BitVec 8}
  {dir : Bool} {busy : String}

lemma mem_matchings (i : Nat) (hr : rs[k]? = some r) (hx : ∃ x ∈ r.memP, x.1 ≤ addr ∧ addr ≤ x.2) :
    i + k ∈ matchings addr i rs := by
  induction rs generalizing i k with
  | nil => cases hr
  | cons a rs ih =>
    unfold matchings
    rw [mem_append]
    rcases k with _ | k
    · rw [getElem?_cons_zero, Option.some.injEq] at hr
      subst hr
      refine .inl (mem_replicate.mpr ⟨?_, rfl⟩)
      unfold hits
      rw [← Nat.pos_iff_ne_zero, countP_pos_iff]
      simpa using hx
    · rw [getElem?_cons_succ] at hr
      have := ih (i + 1) hr
      rw [show i + (k + 1) = i + 1 + k by omega]
      exact .inr this

lemma findRequest_ok (h : s.findRequest addr = .ok i)
    (hr : s.dma.requests[k]? = some r) (hx : ∃ x ∈ r.memP, x.1 ≤ addr ∧ addr ≤ x.2) : k = i := by
  have hmem := mem_matchings 0 hr hx
  rw [Nat.zero_add] at hmem
  unfold findRequest at h
  split at h
  · cases h
  · rename_i j hj
    rw [hj, mem_singleton] at hmem
    exact hmem.trans (Except.ok.inj h)
  · cases h

/-! ## The invariant -/

structure Accounted (s : DmaSys) : Prop where
  books : Books s.dma.requests s.inFlight s.nextId
  resources : s.dma.dmaResources = Masks.orAll (s.dma.requests.map DMARequest.dmaResource)
  status : s.dmaStatus = s.dma.dmaResources
  parked : s.dma.nextStateScheduled = false → s.dma.currentState = .idle
  port : Port s.actions s.inFlight

def ranges (s : DmaSys) : List (Nat × Nat) := s.dma.requests.flatMap DMARequest.memP

def ProperRanges (s : DmaSys) : Prop := ∀ x ∈ s.ranges, x.1 ≤ x.2

structure RangesDisjoint (s : DmaSys) : Prop where
  proper : s.ProperRanges
  apart : s.ranges.Pairwise fun x y => x.2 < y.1 ∨ y.2 < x.1

instance (s : DmaSys) : Decidable (RangesDisjoint s) :=
  decidable_of_iff ((∀ x ∈ s.ranges, x.1 ≤ x.2) ∧
      s.ranges.Pairwise fun x y => x.2 < y.1 ∨ y.2 < x.1)
    ⟨fun h => ⟨h.1, h.2⟩, fun h => ⟨h.proper, h.apart⟩⟩

lemma accounted_init (f : Tlb.Front) : Accounted (init f) where
  books := ⟨⟨nodup_nil, by simp [init]⟩, List.Pairwise.nil, by simp [init], by simp [init],
    by simp [init], by simp [init]⟩
  resources := rfl
  status := rfl
  parked := fun _ => rfl
  port := ⟨by simp [init], by simp [init]⟩

lemma Accounted.stateIdle (h : Accounted s) : Accounted s.stateIdle := by
  unfold DmaSys.stateIdle
  split
  · exact { h with parked := by simp }
  · exact { h with parked := by simp }

lemma masks_set {r' : DMARequest} (hr : rs[i]? = some r) (hres : r'.dmaResource = r.dmaResource) :
    Masks.orAll ((rs.set i r').map dmaResource) = Masks.orAll (rs.map dmaResource) := by
  rw [Lists.map_set_of_eq hr hres]

lemma Accounted.markIssued (h : Accounted s)
    (hr : s.dma.requests[i]? = some r) : Accounted (s.setRequest i { r with issued := true }) := by
  have hled := h.books.ledger r (mem_of_getElem? hr)
  refine ⟨?_, ?_, h.status, h.parked, h.port⟩
  · exact h.books.set hr rfl rfl { hled with } (fun _ hx => hx) (fun _ _ => rfl)
      (fun _ hq => .inl hq)
  · exact h.resources.trans (masks_set hr (by rfl)).symm

lemma Accounted.stateTlbRefill (h : Accounted s) (hs : s.stateTlbRefill p mem now = .ok s') :
    Accounted s' := by
  obtain ⟨i, r, -, hr, ⟨-, rfl⟩ | ⟨-, t, rfl, -⟩⟩ := stateTlbRefill_ok hs
  · have hissued := h.markIssued hr
    exact { hissued with parked := (by simp [setState]), port := h.port }
  · have hissued := h.markIssued hr
    exact { hissued with parked := (by simp [setState]), port := h.port }

lemma sent_inside {pstart pend : Nat} (hd : ProperRanges s) (hr : r ∈ s.dma.requests)
    (hx : (pstart, pend) ∈ r.memP) (hlt : pend < 2 ^ 64) :
    pstart + uint32 (addr64 (sub64 pend pstart + 1)) ≤ pend + 1 :=
  size_le (hd (pstart, pend) (mem_flatMap.mpr ⟨r, hr, hx⟩)) hlt

lemma Accounted.stateTransfer (h : Accounted s) (hend : ∀ r ∈ s.working, r.ended = false)
    (hs : s.stateTransfer p = .ok s') (hd : ProperRanges s') : Accounted s' := by
  obtain ⟨i, r, e, r', more, hi, hr, -, -, hsub, hnext, rfl⟩ := stateTransfer_ok hs
  have hend := hend r (working_eq hi hr)
  generalize hpstart : s.front.tlb.remapCheck r.memVstart = pstart at *
  generalize hpend : s.front.tlb.remapCheck (min e r.memVend) = pend at *
  have hled := h.books.ledger r (mem_of_getElem? hr)
  obtain ⟨hid, hres, hmemP, -⟩ := nextSubRequest_frame hnext
  have hnew : (pstart, pend) ∈ r'.memP := by
    rw [hmemP]
    simp
  have hlt : pend < 2 ^ 64 := by
    rw [← hpend]
    exact Tlb.remapCheck_lt
  have hsize := sent_inside hd (mem_set_self hr) hnew hlt
  have hsize32 := uint32_lt (addr64 (sub64 pend pstart + 1))
  have hbound : pstart + uint32 (addr64 (sub64 pend pstart + 1)) ≤ 2 ^ 64 := by omega
  refine ⟨?_, ?_, h.status, by simp [setState], h.port.issue hbound⟩
  · apply h.books.set hr hid hres
    · apply hled.transfer hend (Nat.min_le_right _ _) hsub hnext
      show bytesOf owner (s.inFlight ++ _) r.id = _
      rw [bytesOf_append, ownBytes_actionPackets hbound, if_pos rfl]
    · intro x hx
      rw [hmemP]
      exact mem_append_left _ hx
    · intro id hne
      show bytesOf owner (s.inFlight ++ _) id = _
      rw [bytesOf_append, ownBytes_actionPackets hbound, if_neg hne.symm, Nat.add_zero]
    · intro q hq
      rcases mem_append.mp hq with hq | hq
      · exact .inl hq
      · obtain ⟨hlo, hhi, hpos⟩ := actionPackets_mem hbound hq
        exact .inr ⟨(actionPackets_keys hq).1, hpos, by omega, _, hnew, hlo, by dsimp only; omega⟩
  · exact h.resources.trans (masks_set hr hres).symm

lemma Accounted.nextState (h : Accounted s)
    (hend : s.dma.currentState = .transfer → ∀ r ∈ s.working, r.ended = false)
    (hs : s.nextState p mem now = .ok s') (hd : ProperRanges s') : Accounted s' := by
  obtain ⟨-, rfl⟩ | ⟨-, ⟨-, rfl⟩ | ⟨-, hs⟩ | ⟨hst, hs⟩⟩ := nextState_ok hs
  · exact { h with parked := fun _ => rfl }
  · exact h.stateIdle
  · exact h.stateTlbRefill hs
  · exact h.stateTransfer (hend hst) hs hd

lemma Accounted.withRequest (h : Accounted s) (vreg vaddr n : Nat) (dir : Bool)
    (hres : s.dma.dmaResources &&& res = 0) :
    Accounted (s.withRequest (.new s.nextId vreg vaddr n dir res)) := by
  refine ⟨?_, ?_, rfl, h.parked, h.port⟩
  · apply h.books.cons
    rw [← h.resources]
    exact hres
  · show s.dma.dmaResources ||| res = Masks.orAll (res :: s.dma.requests.map dmaResource)
    rw [Masks.orAll_cons, BitVec.or_comm, h.resources]

lemma Accounted.initiate (h : Accounted s)
    (hs : s.initiate dir busy p mem now vreg vaddr n res = .ok s')
    (hd : ProperRanges s') : Accounted s' := by
  obtain ⟨-, hres, ⟨-, rfl⟩ | ⟨hpark, hs⟩⟩ := initiate_ok hs
  · exact h.withRequest vreg vaddr n dir hres
  · apply (h.withRequest vreg vaddr n dir hres).nextState ?_ hs hd
    intro hst
    have hidle : (s.withRequest (.new s.nextId vreg vaddr n dir res)).dma.currentState = .idle :=
      h.parked hpark
    rw [hidle] at hst
    cases hst

/-- The response is credited to its own request, whose bits are cleared if all its bytes are there.
-/
def Credits (s : DmaSys) (pkt : DmaPacket) (s' : DmaSys) : Prop :=
  ∃ i r, s.dma.requests[i]? = some r ∧ r.id = pkt.owner ∧
    (r.bytesCompleted + pkt.size = r.bytesExpected ∧
        s'.dma.requests = s.dma.requests.eraseIdx i ∧
        s'.dma.dmaResources = s.dma.dmaResources &&& ~~~ r.dmaResource ∨
      r.bytesCompleted + pkt.size < r.bytesExpected ∧
        s'.dma.requests =
          s.dma.requests.set i { r with bytesCompleted := r.bytesCompleted + pkt.size } ∧
        s'.dma.dmaResources = s.dma.dmaResources)

lemma Accounted.response (h : Accounted s) {pkt : DmaPacket} (hk : s.inFlight[k]? = some pkt)
    (hs : s.step p mem (now, .response k) = .ok s') : Credits s pkt s' ∧ Accounted s' := by
  obtain ⟨hnone, -⟩ | ⟨q, a, hq, ha, -, hs⟩ := response_ok hs
  · rw [hk] at hnone
    cases hnone
  · rw [hk, Option.some.injEq] at hq
    subst hq
    obtain ⟨i, r, hfind, hr, hle, hcase⟩ := handlePacket_ok hs
    have hmem : pkt ∈ s.inFlight := mem_of_getElem? hk
    have hport := h.port.respond hk ha
    obtain ⟨b, hb, hid, hx⟩ := h.books.owner pkt hmem
    obtain ⟨j, hj⟩ := mem_iff_getElem?.mp hb
    have hij : j = i := findRequest_ok hfind hj hx
    subst hij
    change s.dma.requests[j]? = some r at hr
    rw [hr, Option.some.injEq] at hj
    subst hj
    have hled := h.books.ledger r hb
    have hpos := h.books.size_pos pkt hmem
    have hlt := h.books.size_lt pkt hmem
    have hall := bytesOf_eraseIdx hk owner r.id
    rw [if_pos hid.symm] at hall
    have hrest : ∀ id, id ≠ r.id → bytesOf owner (s.inFlight.eraseIdx k) id = bytesOf owner s.inFlight id := by
      intro id hne
      rw [bytesOf_eraseIdx hk owner id, if_neg (by rw [← hid]; exact hne.symm), Nat.zero_add]
    have hsub : ∀ q ∈ s.inFlight.eraseIdx k, q ∈ s.inFlight :=
      fun q hq => mem_of_mem_eraseIdx hq
    have hexp : r.bytesExpected ≠ 0 := by
      intro hzero
      have hcomp := hled.completed_le
      rw [show r.bytesCompleted + pkt.size = pkt.size by omega, addr64_of_lt hlt] at hle
      omega
    have hbal := hled.balance
    have hbudget := hled.budget hexp
    rw [hled.fits hexp (by omega)] at hle hcase
    obtain ⟨heq, rfl⟩ | ⟨hne, rfl⟩ := hcase
    · refine ⟨⟨j, r, hr, hid, .inl ⟨heq, rfl, rfl⟩⟩, ?_, ?_, rfl, h.parked, hport⟩
      · have hzero : bytesOf owner (s.inFlight.eraseIdx k) r.id = 0 := by omega
        exact h.books.erase hr hrest hsub hzero
      · show s.dma.dmaResources &&& _ = _
        rw [h.resources]
        exact (Masks.orAll_leave ((Lists.perm_eraseIdx hr).map dmaResource)
          h.books.masks).symm
    · refine ⟨⟨j, r, hr, hid, .inr ⟨by omega, rfl, rfl⟩⟩, ?_, ?_, h.status, h.parked, hport⟩
      · refine h.books.set hr ?_ ?_ ?_ (fun _ hx => hx) hrest (fun q hq => .inl (hsub q hq))
        · rfl
        · rfl
        refine { hled with completed_le := hle, balance := ?_ }
        show r.bytesCompleted + pkt.size + bytesOf owner (s.inFlight.eraseIdx k) r.id = issuedBytes r
        omega
      · exact h.resources.trans (masks_set hr (by rfl)).symm

/-! ## Steps that are no response -/

def Keeps (s s' : DmaSys) : Prop :=
  (∀ r ∈ s.dma.requests, ∃ r' ∈ s'.dma.requests, r'.account = r.account) ∧
    s.dma.dmaResources &&& ~~~ s'.dma.dmaResources = 0

lemma keeps_of_eq (hreq : s'.dma.requests.map account = s.dma.requests.map account)
    (hres : s'.dma.dmaResources = s.dma.dmaResources) : Keeps s s' := by
  refine ⟨?_, by rw [hres, BitVec.and_not_self]⟩
  intro r hr
  have hmem := mem_map_of_mem (f := account) hr
  rw [← hreq] at hmem
  exact mem_map.mp hmem

lemma nextState_keeps (hs : s.nextState p mem now = .ok s') : Keeps s s' := by
  obtain ⟨-, rfl⟩ | ⟨-, ⟨-, rfl⟩ | ⟨-, hs⟩ | ⟨-, hs⟩⟩ := nextState_ok hs
  · exact keeps_of_eq rfl rfl
  · unfold stateIdle
    split
    · exact keeps_of_eq rfl rfl
    · exact keeps_of_eq rfl rfl
  · obtain ⟨i, r, -, hr, ⟨-, rfl⟩ | ⟨-, t, rfl, -⟩⟩ := stateTlbRefill_ok hs
    · exact keeps_of_eq (Lists.map_set_of_eq hr (by rfl)) rfl
    · exact keeps_of_eq (Lists.map_set_of_eq hr (by rfl)) rfl
  · obtain ⟨i, r, e, r', more, -, hr, -, -, -, hnext, rfl⟩ := stateTransfer_ok hs
    obtain ⟨hid, hres, -, -, hexp, hcomp, -⟩ := nextSubRequest_frame hnext
    refine keeps_of_eq (Lists.map_set_of_eq hr ?_) rfl
    unfold account
    rw [hid, hres, hexp, hcomp]

lemma withRequest_keeps (r : DMARequest) : Keeps s (s.withRequest r) := by
  refine ⟨fun q hq => ⟨q, mem_cons_of_mem _ hq, rfl⟩, ?_⟩
  show s.dma.dmaResources &&& ~~~ (s.dma.dmaResources ||| r.dmaResource) = 0
  rw [BitVec.not_or, ← BitVec.and_assoc, BitVec.and_not_self]
  exact BitVec.zero_and

lemma Keeps.trans {s1 s2 s3 : DmaSys} (h : Keeps s1 s2) (h' : Keeps s2 s3) : Keeps s1 s3 := by
  refine ⟨?_, Masks.le_trans h.2 h'.2⟩
  intro r hr
  obtain ⟨r2, hr2, heq2⟩ := h.1 r hr
  obtain ⟨r3, hr3, heq3⟩ := h'.1 r2 hr2
  exact ⟨r3, hr3, heq3.trans heq2⟩

lemma initiate_keeps
    (hs : s.initiate dir busy p mem now vreg vaddr n res = .ok s') : Keeps s s' := by
  obtain ⟨-, -, ⟨-, rfl⟩ | ⟨-, hs⟩⟩ := initiate_ok hs
  · exact withRequest_keeps _
  · exact (withRequest_keeps _).trans (nextState_keeps hs)

/-! ## Runs -/

/-- A step that does not fault and leaves the recorded ranges disjoint. -/
def Legal (p : DmaParams) (mem : Memory) (s : DmaSys) (l : Nat × Event) (s' : DmaSys) : Prop :=
  s.step p mem l = .ok s' ∧ RangesDisjoint s'

/-- No sub-transfer is issued for a request whose last one is already out. -/
def NoReissue (s : DmaSys) : Nat × Event → Prop
  | (_, .nextState) => s.dma.currentState = .transfer → ∀ r ∈ s.working, r.ended = false
  | _ => True

instance (s : DmaSys) : (l : Nat × Event) → Decidable (NoReissue s l)
  | (_, .nextState) =>
    inferInstanceAs (Decidable (s.dma.currentState = .transfer → ∀ r ∈ s.working, r.ended = false))
  | (_, .initiateRead ..) | (_, .initiateWrite ..) | (_, .response _) | (_, .done)
  | (_, .cpu _) => .isTrue trivial

def Settles (s : DmaSys) : Nat × Event → DmaSys → Prop
  | (_, .response k), s' => ∀ pkt, s.inFlight[k]? = some pkt → Credits s pkt s'
  | _, s' => Keeps s s'

lemma Accounted.step (h : Accounted s) {l : Nat × Event} (hl : NoReissue s l)
    (hs : s.step p mem l = .ok s') (hd : ProperRanges s') : Settles s l s' ∧ Accounted s' := by
  obtain ⟨now, e⟩ := l
  rcases e with ⟨vreg, vaddr, n, res⟩ | ⟨vreg, vaddr, n, res⟩ | _ | k | _ | a
  · exact ⟨initiate_keeps hs, h.initiate hs hd⟩
  · exact ⟨initiate_keeps hs, h.initiate hs hd⟩
  · obtain ⟨-, rfl⟩ | ⟨-, hs⟩ := nextState_step_ok hs
    · exact ⟨keeps_of_eq rfl rfl, h⟩
    · exact ⟨nextState_keeps hs, h.nextState hl hs hd⟩
  · obtain ⟨hnone, rfl⟩ | ⟨pkt, -, hk, -⟩ := response_ok hs
    · refine ⟨?_, h⟩
      intro pkt hk
      rw [hk] at hnone
      cases hnone
    · obtain ⟨hcred, hacc⟩ := h.response hk hs
      refine ⟨?_, hacc⟩
      intro q hq
      rw [hk, Option.some.injEq] at hq
      exact hq ▸ hcred
  · obtain ⟨-, rfl⟩ | ⟨-, rfl⟩ := done_ok hs
    · exact ⟨keeps_of_eq rfl rfl, h⟩
    · exact ⟨keeps_of_eq rfl rfl, { h with }⟩
  · obtain ⟨f, -, rfl⟩ := cpu_ok hs
    exact ⟨keeps_of_eq rfl rfl, { h with }⟩

/-- The busy bits are those of the pending requests, and each response is credited to its own
request. -/
theorem resources_accounted (f : Tlb.Front) (ls : List (Nat × Event)) (s : DmaSys)
    (hrun : Runs.Steps (Runs.Restrict (Legal p mem) NoReissue) (init f) ls s) :
    s.dma.dmaResources = Masks.orAll (s.dma.requests.map DMARequest.dmaResource) ∧
      Masks.Apart (s.dma.requests.map DMARequest.dmaResource) ∧
      s.dmaStatus = s.dma.dmaResources ∧
      (s.dma.requests.map DMARequest.id).Nodup ∧
      ∀ l s', Runs.Restrict (Legal p mem) NoReissue s l s' → Settles s l s' := by
  have h : Accounted s := hrun.inv Accounted (fun _ _ _ hi hstep =>
      (hi.step hstep.1 hstep.2.1 hstep.2.2.proper).2)
    (accounted_init f)
  exact ⟨h.resources, h.books.masks, h.status, h.books.ids.nodup,
    fun l s' hstep => (h.step hstep.1 hstep.2.1 hstep.2.2.proper).1⟩

def dmaParams : DmaParams := ⟨.dtlb, 64⟩

def halfRun : List (Nat × Event) :=
  [(1, .initiateRead 0 0x10000FF0 32 1), (2, .nextState), (3, .nextState), (4, .nextState),
    (5, .nextState), (6, .response 0)]

theorem resources_accounted_half :
    ∃ s, Runs.Steps (Runs.Restrict (Legal dmaParams defaultOffload.published.mem) NoReissue)
        (init defaultOffload.front) halfRun s ∧ s.dma.dmaResources = 1 ∧
      s.dma.dmaResources = Masks.orAll (s.dma.requests.map DMARequest.dmaResource) := by
  have hrun : ((Runs.exec (Runs.guarded (step dmaParams defaultOffload.published.mem)
      fun s l t => RangesDisjoint t ∧ NoReissue s l) (init defaultOffload.front) halfRun).map
        fun s => s.dma.dmaResources) = some 1 := by decide +kernel
  obtain ⟨s, hs, hres⟩ := Option.map_eq_some_iff.mp hrun
  have hsteps : Runs.Steps (Runs.Restrict (Legal dmaParams _) NoReissue) _ halfRun s :=
    Runs.steps_of_guarded (fun _ _ _ h1 h2 => ⟨h2.2, h1, h2.1⟩) hs
  exact ⟨s, hsteps, hres, (resources_accounted _ _ _ hsteps).1⟩

/-! ## A request that is issued twice -/

/-- A table of one page, followed by two entries that nobody wrote. -/
def strayOffload : Offload ⟨.arm, 12, true⟩ { Tlb.Params.dtlb with tlbSize := 2 } :=
  { threePages 2 (le_refl _) true with
    physicalAddr := [0x80005000]
    mem := Driver.storeSlice .arm
      (Driver.storeSlice .arm (fun _ => 0) 0x9000000C ⟨0x10001000, 0x90001000, 0x1000⟩)
      0x90000018 ⟨0x10001000, 0xA0001000, 0x2000⟩
    nonempty := by decide
    distinct := by decide
    aligned := by decide
    inMemory := by decide
    stops := ⟨0, [], rfl, by decide⟩
    vend := by decide
    static := by
      intro v hlo hhi
      exact (threePages 2 (le_refl _) true).static v hlo (Nat.lt_of_lt_of_le hhi (by decide))
    tableEnd := by decide }

def strayParams : DmaParams := ⟨{ Tlb.Params.dtlb with tlbSize := 2 }, 64⟩

def reissueRun : List (Nat × Event) :=
  [(1, .initiateRead 0 0x10001800 8 1), (2, .nextState), (3, .initiateRead 0 0x10001000 8 2),
    (4, .nextState), (5, .initiateRead 0 0x10002000 8 4), (6, .nextState), (7, .nextState),
    (8, .nextState), (9, .nextState), (10, .nextState), (11, .nextState), (12, .response 0),
    (13, .initiateRead 0 0x10001000 8 2), (14, .nextState), (15, .nextState), (16, .nextState)]

/-- The response to request 1, which has left, clears the bits of request 3, which still waits. -/
theorem response_credits_another_request :
    ∃ s s', Runs.Steps (Legal strayParams strayOffload.published.mem) (init strayOffload.front)
        reissueRun s ∧
      Legal strayParams strayOffload.published.mem s (17, .response 1) s' ∧
      (s.inFlight.map DmaPacket.owner, s.dma.requests.map DMARequest.id) = ([2, 1, 3], [3, 2, 0]) ∧
      (s'.inFlight.map DmaPacket.owner, s'.dma.requests.map DMARequest.id) = ([2, 3], [2, 0]) ∧
      ¬ Settles s (17, .response 1) s' := by
  have hrun : ((Runs.exec (Runs.guarded (step strayParams strayOffload.published.mem)
      fun _ _ t => RangesDisjoint t) (init strayOffload.front) reissueRun).bind fun s =>
        (Runs.guarded (step strayParams strayOffload.published.mem)
          (fun _ _ t => RangesDisjoint t) s (17, .response 1)).map fun s' =>
            ((s.inFlight.map DmaPacket.owner, s.dma.requests.map DMARequest.id),
              (s'.inFlight.map DmaPacket.owner, s'.dma.requests.map DMARequest.id))) =
      some (([2, 1, 3], [3, 2, 0]), ([2, 3], [2, 0])) := by decide +kernel
  obtain ⟨s, hs, hrest⟩ := Option.bind_eq_some_iff.mp hrun
  obtain ⟨s', hs', heq⟩ := Option.map_eq_some_iff.mp hrest
  obtain ⟨hbefore, hafter⟩ := Prod.mk.inj heq
  refine ⟨s, s', Runs.steps_of_guarded (fun _ _ _ h1 h2 => ⟨h1, h2⟩) hs,
    Runs.guarded_eq_some.mp hs', hbefore, hafter, ?_⟩
  intro hsettles
  obtain ⟨hpkts, hids⟩ := Prod.mk.inj hbefore
  have hone := congrArg (·[1]?) hpkts
  simp only [List.getElem?_map] at hone
  obtain ⟨pkt, hpkt, howner⟩ := Option.map_eq_some_iff.mp hone
  obtain ⟨i, r, hr, hid, -⟩ := hsettles pkt hpkt
  have hmem := List.mem_map_of_mem (f := DMARequest.id) (List.mem_of_getElem? hr)
  rw [hids, hid, howner] at hmem
  exact absurd hmem (by decide)

end DmaSys

end SmcPim
