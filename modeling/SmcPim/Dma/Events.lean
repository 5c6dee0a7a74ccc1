import SmcPim.Dma.Registers

/-! # Completion events -/

namespace SmcPim

open List Nat Except

def Tlb.WholePages (t : Tlb) : Prop := ∀ r ∈ t.originalRanges, 4096 ∣ r.last + 1

instance (t : Tlb) : Decidable t.WholePages := inferInstanceAs (Decidable (∀ r ∈ _, _))

instance (s : DmaSys) : Decidable s.ProperRanges := inferInstanceAs (Decidable (∀ x ∈ s.ranges, _))

def DmaReqState.inFlight (a : DmaReqState) : Bool := a.numBytes ≠ a.totBytes

namespace DmaSys

variable {p : DmaParams} {mem : Memory} {now lo hi : Nat} {s s' : DmaSys} {r r' : DMARequest}

def subTransfers (s : DmaSys) (id : Nat) : Nat :=
  (s.transfers.zip s.actions).countP fun x => x.1.owner = id ∧ x.2.inFlight

def issuedFor (xs : List SubTransfer) (id : Nat) : Nat := xs.countP fun x => x.owner = id

structure TwoParts (xs : List SubTransfer) (r : DMARequest) : Prop where
  le_two : issuedFor xs r.id ≤ 2
  second : r.ended = false → issuedFor xs r.id = 0 ∨
    issuedFor xs r.id = 1 ∧ 4096 ∣ r.memVstart ∧ r.memVstart ≤ r.memVend
  resource : ∃ i : Fin 7, r.dmaResource.getLsbD i = true

structure Pooled (s : DmaSys) : Prop where
  length : s.transfers.length = s.actions.length
  owner : ∀ q ∈ s.inFlight, ∃ x, s.transfers[q.action]? = some x ∧ x.owner = q.owner
  exact : Balance (· = ·) s.actions s.inFlight
  pool : s.dma.dmaDoneEventFree + s.doneEvents + s.actions.countP DmaReqState.inFlight =
    Dma.maxOutstandingDma
  known : ∀ x ∈ s.transfers, x.owner < s.nextId
  parts : ∀ r ∈ s.dma.requests, TwoParts s.transfers r

lemma pooled_init (f : Tlb.Front) : Pooled (init f) where
  length := rfl
  owner := by simp [init]
  exact := by simp [init, Balance]
  pool := rfl
  known := by simp [init]
  parts := by simp [init]

/-! ## The pool -/

lemma Pooled.pending (h : Pooled s) (hacc : Accounted s) {x : SubTransfer × DmaReqState}
    (hx : x ∈ s.transfers.zip s.actions) (hopen : x.2.inFlight = true) :
    ∃ r ∈ s.dma.requests, x.1.owner = r.id := by
  obtain ⟨i, hi⟩ := mem_iff_getElem?.mp hx
  obtain ⟨htr, hact⟩ := getElem?_zip_eq_some.mp hi
  have hexact := h.exact i x.2 hact
  by_contra hnone
  have hzero : bytesOf DmaPacket.action s.inFlight i = 0 := by
    refine bytesOf_eq_zero fun q hq heq => hnone ?_
    obtain ⟨y, hy, hown⟩ := h.owner q hq
    rw [heq, htr, Option.some.injEq] at hy
    obtain ⟨r, hr, hid, -⟩ := hacc.books.owner q hq
    exact ⟨r, hr, by rw [hy, hown, hid]⟩
  rw [hzero, add_zero] at hexact
  simp [DmaReqState.inFlight, hexact] at hopen

lemma Pooled.requests_le (h : Pooled s) (hacc : Accounted s) : s.dma.requests.length ≤ 7 := by
  have hbits : ∀ m ∈ s.dma.requests.map DMARequest.dmaResource, ∃ i : Fin 7, m.getLsbD i = true := by
    intro m hm
    obtain ⟨r, hr, rfl⟩ := mem_map.mp hm
    exact (h.parts r hr).resource
  have hle := hacc.books.masks.length_le hbits
  rwa [length_map] at hle

lemma Pooled.subTransfers_le (h : Pooled s) (id : Nat) :
    s.subTransfers id ≤ issuedFor s.transfers id := by
  have hmono : s.subTransfers id ≤ (s.transfers.zip s.actions).countP fun x => x.1.owner = id :=
    countP_mono_left fun x _ hx => by simpa using (of_decide_eq_true hx).1
  have hfst : issuedFor ((s.transfers.zip s.actions).map Prod.fst) id =
      (s.transfers.zip s.actions).countP fun x => x.1.owner = id := countP_map
  rwa [← hfst, map_fst_zip (Nat.le_of_eq h.length)] at hmono

lemma Pooled.actions_le (h : Pooled s) (hacc : Accounted s) :
    s.actions.countP DmaReqState.inFlight ≤ 14 := by
  have hzip : s.actions.countP DmaReqState.inFlight =
      (s.transfers.zip s.actions).countP fun x => x.2.inFlight := by
    conv_lhs => rw [← map_snd_zip (Nat.le_of_eq h.length.symm)]
    exact countP_map
  have hsum : (s.transfers.zip s.actions).countP (fun x => x.2.inFlight) ≤
      (s.dma.requests.map fun r => s.subTransfers r.id).sum :=
    Lists.countP_le_sum fun x hx hopen => by
      obtain ⟨r, hr, hown⟩ := h.pending hacc hx hopen
      exact ⟨r, hr, by simp [hown, hopen]⟩
  have htwo : ∀ n ∈ s.dma.requests.map fun r => s.subTransfers r.id, n ≤ 2 := by
    intro n hn
    obtain ⟨r, hr, rfl⟩ := mem_map.mp hn
    exact Nat.le_trans (h.subTransfers_le r.id) (h.parts r hr).le_two
  have hcard := sum_le_card_nsmul _ 2 htwo
  have hseven := h.requests_le hacc
  rw [length_map, smul_eq_mul] at hcard
  omega

/-! ## Steps -/

lemma resource_bit : ∀ cmd : BitVec 8, cmd &&& 0b01111111 ≠ 0 →
    ∃ i : Fin 7, (cmd &&& 0b01111111).getLsbD i = true := by decide +kernel

lemma TwoParts.transfer {e : Nat} {x : Nat × Nat} {more : Bool} {xs : List SubTransfer} {y : SubTransfer}
    (h : TwoParts xs r) (hend : r.ended = false)
    (hb : r.Between lo hi) (hsize : hi ≤ lo + 4096) (hle : r.memVstart ≤ e) (hlt : e < 2 ^ 64)
    (hpage : 4096 ∣ e + 1) (hy : y.owner = r.id)
    (hnext : { r with memP := r.memP ++ [x] }.nextSubRequest (addr64 (min e r.memVend + 1)) =
      .ok (r', more)) : TwoParts (xs ++ [y]) r' := by
  obtain ⟨hstart, hvend, hlow, hhigh⟩ := hb
  have hone : issuedFor (xs ++ [y]) r.id = issuedFor xs r.id + 1 := by
    unfold issuedFor
    rw [countP_append, countP_singleton, if_pos (decide_eq_true hy)]
  have hsecond := h.second hend
  obtain ⟨hge, hcase⟩ := DMARequest.nextSubRequest_ok hnext
  unfold sub64 addr64 at *
  rcases hcase with ⟨-, -, rfl⟩ | ⟨hmore, -, rfl⟩
  · exact ⟨by dsimp only at *; omega, by simp, h.resource⟩
  · refine ⟨by dsimp only at *; omega, fun _ => .inr ?_, h.resource⟩
    dsimp only at *
    rw [hone]
    omega

lemma TwoParts.append_other {xs : List SubTransfer} {y : SubTransfer} (h : TwoParts xs r)
    (hy : y.owner ≠ r.id) : TwoParts (xs ++ [y]) r := by
  have hsame : issuedFor (xs ++ [y]) r.id = issuedFor xs r.id := by
    unfold issuedFor
    rw [countP_append, countP_singleton, if_neg (by simpa using hy), add_zero]
  exact ⟨by rw [hsame]; exact h.le_two, by rw [hsame]; exact h.second, h.resource⟩

section
variable (h : Pooled s)
include h

lemma Pooled.setRequest {i : Nat} (hr : TwoParts s.transfers r) :
    ∀ q ∈ s.dma.requests.set i r, TwoParts s.transfers q := by
  intro q hq
  rcases mem_or_eq_of_mem_set hq with hq | rfl
  · exact h.parts q hq
  · exact hr

lemma Pooled.stateTlbRefill (hs : s.stateTlbRefill p mem now = .ok s') : Pooled s' := by
  obtain ⟨i, r, -, hr, hcase⟩ := stateTlbRefill_ok hs
  obtain ⟨h1, h2, h3⟩ := h.parts r (mem_of_getElem? hr)
  have hset := h.setRequest (r := { r with issued := true }) (i := i) ⟨h1, h2, h3⟩
  rcases hcase with ⟨-, rfl⟩ | ⟨-, t, rfl, -⟩
  · exact { h with parts := hset }
  · exact { h with parts := hset }

lemma Pooled.stateTransfer (hacc : Accounted s) (hconf : Confined lo hi s) (hsize : hi ≤ lo + 4096)
    (hpages : s.front.tlb.WholePages) (hend : ∀ r ∈ s.working, r.ended = false)
    (hs : s.stateTransfer p = .ok s') (hd : ProperRanges s') : Pooled s' := by
  obtain ⟨i, r, e, r', more, hi, hr, he, hfree, hsub, hnext, rfl⟩ := stateTransfer_ok hs
  have hmem := mem_of_getElem? hr
  have hend := hend r (working_eq hi hr)
  have hb := hconf.requests r hmem
  obtain ⟨x, hx, hle, hlt, rfl⟩ := hconf.ranges.sliceVend_last he
  obtain ⟨hid, -, hmemP, -⟩ := nextSubRequest_frame hnext
  generalize hpstart : s.front.tlb.remapCheck r.memVstart = pstart at *
  generalize hpend : s.front.tlb.remapCheck (min x.last r.memVend) = pend at *
  have hnew : (pstart, pend) ∈ r'.memP := by
    rw [hmemP]
    simp
  have hplt : pend < 2 ^ 64 := by
    rw [← hpend]
    exact Tlb.remapCheck_lt
  have hbound := sent_inside hd (mem_set_self hr) hnew hplt
  -- A sub-transfer is not empty, and no longer than the vector register file.
  have hbytes : uint32 (addr64 (sub64 pend pstart + 1)) = intToAddr (addr64 (sub64 pend pstart + 1)) ∧
      intToAddr (addr64 (sub64 pend pstart + 1)) ≠ 0 := by
    have hfits := hb.high
    have h1 := hb.start_lt
    have h2 := hb.end_lt
    have hlow := hb.low
    rw [hsub]
    unfold intToAddr uint32 sub64 addr64 at *
    split <;> omega
  refine ⟨?_, ?_, ?_, ?_, ?_, ?_⟩
  · show (s.transfers ++ [_]).length = (s.actions ++ [_]).length
    rw [length_append, length_append, h.length]
    rfl
  · intro q hq
    rcases mem_append.mp hq with hq | hq
    · obtain ⟨y, hy, hown⟩ := h.owner q hq
      exact ⟨y, (getElem?_append_left (List.getElem?_eq_some_iff.mp hy).1).trans hy, hown⟩
    · obtain ⟨hown, haction⟩ := actionPackets_keys hq
      rw [haction, ← h.length]
      exact ⟨_, getElem?_concat_length, hown.symm⟩
  · exact h.exact.issue hacc.port.sent (by omega) hbytes.1
  · have hpool := h.pool
    show s.dma.dmaDoneEventFree - 1 + s.doneEvents + (s.actions ++ [_]).countP _ = _
    rw [countP_append, countP_singleton, if_pos (by simpa [DmaReqState.inFlight] using hbytes.2.symm)]
    omega
  · intro y hy
    rcases mem_append.mp hy with hy | hy
    · exact h.known y hy
    · rw [mem_singleton.mp hy]
      exact hacc.books.ids.lt r hmem
  · intro q hq
    rcases hacc.books.ids.mem_set hr hid hq with rfl | ⟨hq, hne⟩
    · exact (h.parts r hmem).transfer hend hb hsize hle hlt (hpages x hx) rfl hnext
    · exact (h.parts q hq).append_other hne.symm

lemma Pooled.stateIdle : Pooled s.stateIdle := by
  unfold DmaSys.stateIdle
  split
  · exact { h with }
  · exact { h with }

lemma Pooled.nextState (hacc : Accounted s) (hconf : Confined lo hi s) (hsize : hi ≤ lo + 4096)
    (hpages : s.front.tlb.WholePages)
    (hend : s.dma.currentState = .transfer → ∀ r ∈ s.working, r.ended = false)
    (hs : s.nextState p mem now = .ok s') (hd : ProperRanges s') : Pooled s' := by
  obtain ⟨-, rfl⟩ | ⟨-, ⟨-, rfl⟩ | ⟨-, hs⟩ | ⟨hst, hs⟩⟩ := nextState_ok hs
  · exact { h with }
  · exact h.stateIdle
  · exact h.stateTlbRefill hs
  · exact h.stateTransfer hacc hconf hsize hpages (hend hst) hs hd

lemma Pooled.withRequest {res : BitVec 8} (hres : ∃ i : Fin 7, res.getLsbD i = true)
    (vreg vaddr n : Nat) (dir : Bool) :
    Pooled (s.withRequest (.new s.nextId vreg vaddr n dir res)) := by
  have hnone : issuedFor s.transfers s.nextId = 0 :=
    countP_eq_zero.mpr fun x hx => by simpa using Nat.ne_of_lt (h.known x hx)
  refine { h with known := (fun x hx => lt_succ_of_lt (h.known x hx)), parts := ?_ }
  intro q hq
  rcases mem_cons.mp hq with rfl | hq
  · exact ⟨Nat.le_trans (Nat.le_of_eq hnone) (zero_le 2), fun _ => .inl hnone, hres⟩
  · exact h.parts q hq

lemma Pooled.initiate (hacc : Accounted s) {dir : Bool} {busy : String} {vreg start n : Nat}
    {cmd : BitVec 8}
    (hs : s.initiate dir busy p mem now vreg start n (cmd &&& 0b01111111) = .ok s') : Pooled s' := by
  obtain ⟨hne, -, hcase⟩ := initiate_ok hs
  have hnew := h.withRequest (resource_bit cmd hne) vreg start n dir
  obtain ⟨-, rfl⟩ | ⟨hpark, hs⟩ := hcase
  · exact hnew
  -- An engine that is at rest only selects the request.
  · have hidle := hacc.parked hpark
    obtain ⟨hnil, -⟩ | ⟨-, ⟨-, rfl⟩ | ⟨hst, -⟩ | ⟨hst, -⟩⟩ := nextState_ok hs
    · exact absurd hnil (cons_ne_nil _ _)
    · exact hnew.stateIdle
    · exact absurd (hidle.symm.trans hst) (by simp)
    · exact absurd (hidle.symm.trans hst) (by simp)

lemma Pooled.withResponse (hacc : Accounted s) {k : Nat} {pkt : DmaPacket} {a : DmaReqState}
    (hk : s.inFlight[k]? = some pkt) (ha : s.actions[pkt.action]? = some a)
    (hfit : a.numBytes + pkt.size ≤ a.totBytes) : Pooled (s.withResponse k pkt a) := by
  have hpos := hacc.books.size_pos pkt (mem_of_getElem? hk)
  obtain ⟨hlt, hget⟩ := List.getElem?_eq_some_iff.mp ha
  refine ⟨?_, fun q hq => h.owner q (mem_of_mem_eraseIdx hq), h.exact.respond hk ha, ?_, h.known,
    h.parts⟩
  · show s.transfers.length = (s.actions.set _ _).length
    rw [length_set, h.length]
  · have hopen : a.inFlight = true := by
      simp only [DmaReqState.inFlight, ne_eq, decide_eq_true_eq]
      omega
    have hsome : 0 < s.actions.countP DmaReqState.inFlight :=
      countP_pos_iff.mpr ⟨a, mem_of_getElem? ha, hopen⟩
    have hpool := h.pool
    show s.dma.dmaDoneEventFree + (if _ then _ else _) + (s.actions.set _ _).countP _ = _
    rw [countP_set hlt, hget, if_pos hopen]
    by_cases hlast : a.numBytes + pkt.size = a.totBytes
    · have hclosed : { a with numBytes := a.numBytes + pkt.size }.inFlight = false := by
        simp [DmaReqState.inFlight, hlast]
      rw [if_pos hlast, hclosed, if_neg Bool.false_ne_true]
      omega
    · have hstill : { a with numBytes := a.numBytes + pkt.size }.inFlight = true := by
        simpa [DmaReqState.inFlight] using hlast
      rw [if_neg hlast, hstill, if_pos rfl]
      omega

lemma Pooled.response (hacc : Accounted s) {k : Nat}
    (hs : s.step p mem (now, .response k) = .ok s') : Pooled s' := by
  obtain ⟨-, rfl⟩ | ⟨pkt, a, hk, ha, hfit, hs⟩ := response_ok hs
  · exact h
  · have hwith := h.withResponse hacc hk ha hfit
    obtain ⟨i, r, -, hr, -, ⟨-, rfl⟩ | ⟨-, rfl⟩⟩ := handlePacket_ok hs
    · exact { hwith with parts := fun q hq => hwith.parts q (mem_of_mem_eraseIdx hq) }
    · obtain ⟨h1, h2, h3⟩ := hwith.parts r (mem_of_getElem? hr)
      exact ⟨hwith.length, hwith.owner, hwith.exact, hwith.pool, hwith.known,
        hwith.setRequest ⟨h1, h2, h3⟩⟩

lemma Pooled.done (hs : s.step p mem (now, .done) = .ok s') : Pooled s' := by
  obtain ⟨-, rfl⟩ | ⟨hne, rfl⟩ := done_ok hs
  · exact h
  · have hpool := h.pool
    refine { h with pool := ?_ }
    show s.dma.dmaDoneEventFree + 1 + (s.doneEvents - 1) + s.actions.countP _ = _
    omega

end

end DmaSys

namespace PimMemory

variable {q : Params} {p : DmaParams} {mem : Memory} {m m' : PimMemory}

def NoReissue (m : PimMemory) : Nat × Event → Prop
  | (now, .nextState) => m.sys.NoReissue (now, .nextState)
  | (_, .atomic _) | (_, .response _) | (_, .done) | (_, .cpu _) => True

instance (m : PimMemory) : (l : Nat × Event) → Decidable (NoReissue m l)
  | (now, .nextState) => inferInstanceAs (Decidable (m.sys.NoReissue (now, .nextState)))
  | (_, .atomic _) | (_, .response _) | (_, .done) | (_, .cpu _) => .isTrue trivial

structure Supplied (q : Params) (m : PimMemory) : Prop where
  inside : Inv q m
  accounted : m.sys.Accounted
  pooled : m.sys.Pooled

def EventStep (q : Params) (p : DmaParams) (mem : Memory) :
    PimMemory → Nat × Event → PimMemory → Prop :=
  Runs.Restrict (fun m l m' => m.step q p mem l = .ok m' ∧ m'.sys.ProperRanges)
    fun m l => NoWrap q m l.2 ∧ NoReissue m l ∧ m.sys.front.tlb.WholePages

lemma Supplied.step (h : Supplied q m) (hq : q.pimVregSize = 4096) {l : Nat × Event}
    (hs : EventStep q p mem m l m') : Supplied q m' := by
  obtain ⟨⟨hwrap, honce, hpages⟩, hs, hd⟩ := hs
  have hin := h.inside.step hwrap hs
  obtain ⟨now, e⟩ := l
  rcases e with pkt | _ | k | _ | a
  · obtain ⟨-, heq | ⟨-, dir, busy, vreg, cmd, -, -, hinit⟩⟩ :=
      recvAtomic_ok hwrap h.inside.numBytes hs
    · exact ⟨hin, heq ▸ h.accounted, heq ▸ h.pooled⟩
    · exact ⟨hin, h.accounted.initiate hinit hd, h.pooled.initiate h.accounted hinit⟩
  · obtain ⟨s, hstep, hs⟩ := bind_eq_ok.mp hs
    rw [← ok.inj hs] at hin hd ⊢
    refine ⟨hin, (h.accounted.step (l := (now, .nextState)) honce hstep hd).2, ?_⟩
    obtain ⟨-, rfl⟩ | ⟨-, hnext⟩ := DmaSys.nextState_step_ok hstep
    · exact h.pooled
    · exact h.pooled.nextState h.accounted h.inside.sys (by rw [hq]) hpages honce hnext hd
  · obtain ⟨s, hstep, hs⟩ := bind_eq_ok.mp hs
    rw [← ok.inj hs] at hin hd ⊢
    exact ⟨hin, (h.accounted.step (l := (now, .response k)) trivial hstep hd).2, h.pooled.response h.accounted hstep⟩
  · obtain ⟨s, hstep, hs⟩ := bind_eq_ok.mp hs
    rw [← ok.inj hs] at hin hd ⊢
    exact ⟨hin, (h.accounted.step (l := (now, .done)) trivial hstep hd).2, h.pooled.done hstep⟩
  · obtain ⟨s, hstep, hs⟩ := bind_eq_ok.mp hs
    rw [← ok.inj hs] at hin hd ⊢
    have hacc := (h.accounted.step (l := (now, .cpu a)) trivial hstep hd).2
    obtain ⟨f, -, rfl⟩ := DmaSys.cpu_ok hstep
    have hpool := h.pooled
    exact ⟨hin, hacc, hpool.length, hpool.owner, hpool.exact, hpool.pool, hpool.known, hpool.parts⟩

/-- At most two sub-transfers of a request are in flight, and TRANSFER finds a completion event. -/
theorem done_events_left (q : Params) (hq : q.pimVregSize = 4096) (p : DmaParams) (mem : Memory)
    (spm : Nat) (f : Tlb.Front) (hf : f.tlb.Bounded) (ls : List (Nat × Event)) (m : PimMemory)
    (hrun : Runs.Steps (EventStep q p mem) (init spm f) ls m) :
    (∀ r ∈ m.sys.dma.requests, m.sys.subTransfers r.id ≤ 2) ∧
      (m.sys.doneEvents ≤ 1 → m.sys.dma.dmaDoneEventFree ≠ 0) := by
  have h0 : Supplied q (init spm f) :=
    ⟨inv_init hf, DmaSys.accounted_init f, DmaSys.pooled_init f⟩
  have h := hrun.inv (Supplied q) (fun _ _ _ hi hstep => hi.step hq hstep) h0
  refine ⟨?_, ?_⟩
  · intro r hr
    exact Nat.le_trans (h.pooled.subTransfers_le r.id) (h.pooled.parts r hr).le_two
  · intro hdone hfree
    have hpool := h.pooled.pool
    have hle := h.pooled.actions_le h.accounted
    rw [show Dma.maxOutstandingDma = 16 from rfl] at hpool
    omega

def armMemory : Params := { arm64Memory with pimArch := .arm }

def ask (res : Nat) : List Event := [store 0x70000308 4 0x1000, store 0x70000318 1 res]

def ticked (es : List Event) : List (Nat × Event) :=
  ([store 0x70000300 4 0x10000FF0, store 0x70000310 4 32] ++ es).zipIdx.map Prod.swap

theorem done_events_left_two :
    ∃ m, Runs.Steps (EventStep armMemory DmaSys.dmaParams defaultOffload.published.mem)
        (init 0 defaultOffload.front)
        (ticked (ask 1 ++ replicate 4 .nextState ++ ask 2 ++ replicate 5 .nextState)) m ∧
      m.sys.dma.requests.map (fun r => m.sys.subTransfers r.id) = [2, 2] ∧
      (m.sys.doneEvents ≤ 1 → m.sys.dma.dmaDoneEventFree ≠ 0) := by
  have hrun : (Runs.exec (Runs.guarded (step armMemory DmaSys.dmaParams defaultOffload.published.mem)
      fun m l t => t.sys.ProperRanges ∧ NoWrap armMemory m l.2 ∧ NoReissue m l ∧
        m.sys.front.tlb.WholePages) (init 0 defaultOffload.front)
      (ticked (ask 1 ++ replicate 4 .nextState ++ ask 2 ++ replicate 5 .nextState))).map
        (fun m => m.sys.dma.requests.map fun r => m.sys.subTransfers r.id) = some [2, 2] := by
    decide +kernel
  obtain ⟨m, hm, htwo⟩ := Option.map_eq_some_iff.mp hrun
  have hsteps : Runs.Steps (EventStep armMemory DmaSys.dmaParams defaultOffload.published.mem) _ _ m :=
    Runs.steps_of_guarded (fun _ _ _ h1 h2 => ⟨h2.2, h1, h2.1⟩) hm
  exact ⟨m, hsteps, htwo,
    (done_events_left armMemory rfl _ _ 0 defaultOffload.front (by decide) _ m hsteps).2⟩

/-- Each request from the third on takes the place of a request that was just selected. -/
def exhaustingRun : List (Nat × Event) :=
  ticked (ask 1 ++ ask 2 ++ replicate 5 .nextState ++
    [4, 8, 16, 32].flatMap (fun res => ask res ++ replicate 8 .nextState) ++ ask 64 ++
    replicate 6 .nextState)

theorem done_events_exhausted :
    ∃ m, Runs.Steps (fun m l m' => m.step armMemory DmaSys.dmaParams defaultOffload.published.mem l =
          .ok m' ∧ m'.sys.ProperRanges ∧ NoWrap armMemory m l.2 ∧ m.sys.front.tlb.WholePages)
        (init 0 defaultOffload.front) exhaustingRun m ∧
      m.sys.dma.requests.map (fun r => (r.id, m.sys.subTransfers r.id)) =
        [(6, 1), (5, 2), (4, 2), (3, 2), (2, 2), (1, 7), (0, 0)] ∧
      m.sys.doneEvents = 0 ∧
      m.step armMemory DmaSys.dmaParams defaultOffload.published.mem (59, .nextState) =
        .error (.assertion "!dmaDoneEventFree.empty()") := by
  have hrun : (Runs.exec (Runs.guarded (step armMemory DmaSys.dmaParams defaultOffload.published.mem)
      fun m l t => t.sys.ProperRanges ∧ NoWrap armMemory m l.2 ∧ m.sys.front.tlb.WholePages)
      (init 0 defaultOffload.front) exhaustingRun).map (fun m =>
        (m.sys.dma.requests.map (fun r => (r.id, m.sys.subTransfers r.id)), m.sys.doneEvents,
          faultOf (m.step armMemory DmaSys.dmaParams defaultOffload.published.mem (59, .nextState)))) =
      some ([(6, 1), (5, 2), (4, 2), (3, 2), (2, 2), (1, 7), (0, 0)], 0,
        some (Fault.assertion "!dmaDoneEventFree.empty()")) := by decide +kernel
  obtain ⟨m, hm, hshow⟩ := Option.map_eq_some_iff.mp hrun
  simp only [Prod.mk.injEq] at hshow
  exact ⟨m, Runs.steps_of_guarded (fun _ _ _ h1 h2 => ⟨h1, h2⟩) hm, hshow.1, hshow.2.1,
    faultOf_eq_some.mp hshow.2.2⟩

end PimMemory

end SmcPim
