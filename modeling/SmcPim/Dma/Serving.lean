import SmcPim.Dma.Sharing
import SmcPim.Tlb.Pieces

/-! # One request -/

namespace SmcPim

open List Tlb.Table

/-- The bytes of a sub-transfer: virtual address, physical address and place in the vector
register. -/
def SubTransfer.bytes (x : SubTransfer) : List (Nat × Nat × Nat) :=
  (List.range x.size).map fun k => (x.vstart + k, x.pstart + k, x.vregPtr + k)

namespace DmaSys

variable {p : DmaParams} {mem : Memory}

structure Job where
  vreg : Nat
  v : Nat
  n : Nat
  res : BitVec 8
  deriving DecidableEq, Repr

def Job.last (j : Job) : Nat := j.v + j.n - 1

structure Job.Valid (T : Tlb.Table p.tlb mem) (j : Job) : Prop where
  pos : 1 ≤ j.n
  lt : j.n < 2 ^ 64
  start : T.region j.v
  stop : T.region j.last
  res : j.res ≠ 0

def pieceSize (x : Nat × Nat) : Nat := x.2 + 1 - x.1

def Job.sub (T : Tlb.Table p.tlb mem) (j : Job) (x : Nat × Nat) : SubTransfer :=
  { owner := 0, vstart := x.1, vend := x.2, pstart := T.phys x.1, size := uint32 (pieceSize x)
    vregPtr := j.vreg + (x.1 - j.v) }

variable {T : Tlb.Table p.tlb mem} {j : Job}

lemma Job.Valid.last_succ (hj : j.Valid T) : j.last + 1 = j.v + j.n :=
  Nat.sub_add_cancel (Nat.le_add_left_of_le hj.pos)

lemma Job.Valid.le_last (hj : j.Valid T) : j.v ≤ j.last := by
  have := hj.pos
  unfold Job.last
  omega

lemma Job.Valid.last_lt (hj : j.Valid T) : j.last < 2 ^ 64 :=
  Nat.lt_of_lt_of_le hj.stop.2 T.vend_le

/-! ## Pieces that are out -/

structure Issued (T : Tlb.Table p.tlb mem) (j : Job) (L : List (Nat × Nat)) (w : Nat) : Prop where
  pieces : T.pieces j.v j.last = L ++ T.pieces w j.last
  start : j.v ≤ w
  inside : ∀ x ∈ L, x.1 < j.last ∧ x.2 + 1 < 2 ^ 64

variable {L : List (Nat × Nat)} {w : Nat}

lemma issued_nil (j : Job) : Issued T j [] j.v := ⟨rfl, Nat.le_refl _, by simp⟩

variable {x : Nat × Nat} {st : DmaState} {pkt : DmaPacket} {b : Nat}

lemma Issued.isPiece (h : Issued T j L w) (hx : x ∈ L) : x ∈ T.pieces j.v j.last := by
  rw [h.pieces]
  exact mem_append_left _ hx

lemma Issued.region (h : Issued T j L w) (hj : j.Valid T) (hw : w ≤ j.last) : T.region w :=
  region_between hj.start hj.stop h.start hw

lemma Issued.snoc (h : Issued T j L w) (hj : j.Valid T) (hw : w < j.last)
    (hend : min (T.sliceEnd w) j.last + 1 < 2 ^ 64) :
    Issued T j (L ++ [(w, min (T.sliceEnd w) j.last)]) (min (T.sliceEnd w) j.last + 1) := by
  have hr := h.region hj (Nat.le_of_lt hw)
  have hf := forward hr hj.stop
  have hnext := hf.next (Nat.le_of_lt hw)
  refine ⟨?_, Nat.le_trans h.start (Nat.le_of_lt hnext), ?_⟩
  · rw [h.pieces, append_assoc]
    congr 1
    exact Cuts.cuts_cons hf (Nat.le_of_lt hw)
  · intro x hx
    rcases mem_append.mp hx with hx | hx
    · exact h.inside x hx
    · rw [mem_singleton] at hx
      subst hx
      exact ⟨hw, hend⟩

lemma pieces_sum (hj : j.Valid T) : ((T.pieces j.v j.last).map pieceSize).sum = j.n := by
  have hsum := Cuts.cuts_sum (forward hj.start hj.stop)
  have hpos := hj.pos
  unfold Job.last at *
  change ((T.pieces j.v (j.v + j.n - 1)).map fun x => x.2 + 1 - x.1).sum = _ at hsum
  change ((T.pieces j.v (j.v + j.n - 1)).map fun x => x.2 + 1 - x.1).sum = _
  omega

lemma sent_le (L : List (Nat × Nat)) :
    (L.map fun x => uint32 (pieceSize x)).sum ≤ (L.map pieceSize).sum :=
  sum_le_sum fun _ _ => uint32_le _

lemma Issued.full (h : Issued T j L w) (hj : j.Valid T)
    (hsum : j.n ≤ (L.map fun x => uint32 (pieceSize x)).sum) :
    T.pieces j.v j.last = L ∧ ∀ x ∈ L, pieceSize x < 2 ^ 32 := by
  have htotal := pieces_sum hj
  have hle := sent_le L
  rw [h.pieces, map_append, sum_append] at htotal
  have hrest : T.pieces w j.last = [] := by
    rw [eq_nil_iff_forall_not_mem]
    intro x hx
    have hmem : x ∈ T.pieces j.v j.last := by
      rw [h.pieces]
      exact mem_append_right _ hx
    obtain ⟨-, -, h12, -⟩ := piece_spec hj.start hj.stop hmem
    have hsize : pieceSize x ≤ ((T.pieces w j.last).map pieceSize).sum :=
      le_sum_of_mem (mem_map_of_mem hx)
    have hpos : 0 < pieceSize x := by
      unfold pieceSize
      omega
    omega
  refine ⟨by rw [h.pieces, hrest, append_nil], ?_⟩
  intro x hx
  have heq := Lists.eq_of_sum_le (f := fun x => uint32 (pieceSize x)) (g := pieceSize)
    (fun _ _ => uint32_le _) (by omega) x hx
  have hlt := uint32_lt (pieceSize x)
  omega

structure IsJob (T : Tlb.Table p.tlb mem) (j : Job) (L : List (Nat × Nat)) (r : DMARequest) :
    Prop where
  id : r.id = 0
  vend : r.memVend = j.last
  expected : r.bytesExpected = j.n
  mask : r.dmaResource = j.res
  memP : r.memP = L.map fun x => (T.phys x.1, T.phys x.2)
  waits : r.bytesCompleted < j.n

lemma phys_sub (hj : j.Valid T) (hx : x ∈ T.pieces j.v j.last) :
    T.phys x.1 ≤ T.phys x.2 ∧ addr64 (sub64 (T.phys x.2) (T.phys x.1) + 1) = pieceSize x := by
  obtain ⟨hr, hlo, h12, hhi, hend⟩ := piece_spec hj.start hj.stop hx
  have hphys := phys_add hr h12 hend
  have hr2 := region_of_le hr h12 hend
  have hlt := T.phys_lt x.2 hr2.1 hr2.2
  have hn := hj.lt
  unfold noAddr at hlt
  refine ⟨by omega, ?_⟩
  rw [sub64_of_le (by omega) (by omega), hphys]
  unfold pieceSize Job.last at *
  rw [addr64_of_lt (by omega)]
  omega

lemma IsJob.issuedBytes_eq {r : DMARequest} (h : IsJob T j L r) (hj : j.Valid T)
    (hi : Issued T j L w) : issuedBytes r = (L.map fun x => uint32 (pieceSize x)).sum := by
  unfold issuedBytes
  rw [h.memP, map_map]
  congr 1
  apply map_congr_left
  intro x hx
  rw [Function.comp_apply]
  dsimp only
  rw [(phys_sub hj (hi.isPiece hx)).2]

/-! ## The invariant -/

structure AtWork (T : Tlb.Table p.tlb mem) (j : Job) (s : DmaSys) (L : List (Nat × Nat)) (w : Nat)
    (r : DMARequest) (st : DmaState) : Prop where
  requests : s.dma.requests = [r]
  job : IsJob T j L r
  state : s.dma.currentState = st
  index : s.dma.currentIndex = some 0
  scheduled : s.dma.nextStateScheduled = true
  vstart : r.memVstart = w
  vreg : r.vregPtr = j.vreg + (w - j.v)
  goesOn : r.ended = false
  le_last : w ≤ j.last

inductive Phase (T : Tlb.Table p.tlb mem) (j : Job) (s : DmaSys) (L : List (Nat × Nat)) (w : Nat) :
    Prop
  | lookup (r : DMARequest) (h : AtWork T j s L w r .tlbRefill)
  | transfer (r : DMARequest) (h : AtWork T j s L w r .transfer) (hlt : w < j.last)
      (hissued : r.issued = true)
  | waiting (r : DMARequest) (hreq : s.dma.requests = [r]) (hjob : IsJob T j L r)
      (hst : s.dma.currentState = .idle) (hissued : r.issued = true) (hw : j.last ≤ w)
  | complete (hreq : s.dma.requests = []) (hst : s.dma.currentState = .idle)
      (hall : T.pieces j.v j.last = L)

structure Serving (T : Tlb.Table p.tlb mem) (j : Job) (s : DmaSys) (L : List (Nat × Nat))
    (w : Nat) : Prop where
  sharing : Sharing T s
  accounted : Accounted s
  issued : Issued T j L w
  transfers : s.transfers = L.map (j.sub T)
  free : Dma.maxOutstandingDma ≤ s.dma.dmaDoneEventFree + L.length
  phase : Phase T j s L w

variable {now : Nat} {s s' : DmaSys} {r : DMARequest}

lemma AtWork.get (h : AtWork T j s L w r st) : s.dma.requests[0]? = some r := by
  rw [h.requests]
  rfl

lemma AtWork.working (h : AtWork T j s L w r st) : s.working = some r :=
  working_eq h.index h.get

lemma AtWork.index_eq (h : AtWork T j s L w r st) {i : Nat} {q : DMARequest}
    (hi : s.dma.currentIndex = some i) (hq : s.dma.requests[i]? = some q) : i = 0 ∧ q = r := by
  rw [h.index, Option.some.injEq] at hi
  subst hi
  rw [h.get, Option.some.injEq] at hq
  exact ⟨rfl, hq.symm⟩

lemma properRanges_of_single (hj : j.Valid T) (hi : Issued T j L w)
    (hreq : s.dma.requests = [r]) (hjob : IsJob T j L r) : ProperRanges s := by
  intro x hx
  unfold ranges at hx
  rw [hreq, flatMap_singleton, hjob.memP] at hx
  obtain ⟨y, hy, rfl⟩ := mem_map.mp hx
  exact (phys_sub hj (hi.isPiece hy)).1

lemma properRanges_of_nil (hreq : s.dma.requests = []) : ProperRanges s := by
  intro x hx
  unfold ranges at hx
  rw [hreq] at hx
  exact absurd hx not_mem_nil

lemma Serving.properRanges (h : Serving T j s L w) (hj : j.Valid T) : ProperRanges s := by
  rcases h.phase with ⟨r, hr⟩ | ⟨r, hr, -, -⟩ | ⟨r, hreq, hjob, -, -, -⟩ | ⟨hreq, -, -⟩
  · exact properRanges_of_single hj h.issued hr.requests hr.job
  · exact properRanges_of_single hj h.issued hr.requests hr.job
  · exact properRanges_of_single hj h.issued hreq hjob
  · exact properRanges_of_nil hreq

/-! ## TLBREFILL -/

lemma IsJob.withIssued (h : IsJob T j L r) : IsJob T j L { r with issued := true } :=
  { h with }

lemma AtWork.set_requests (h : AtWork T j s L w r st) (r' : DMARequest) :
    s.dma.requests.set 0 r' = [r'] := by
  rw [h.requests]
  rfl

lemma AtWork.noReissue (h : AtWork T j s L w r st) :
    s.dma.currentState = .transfer → ∀ q ∈ s.working, q.ended = false := by
  intro _ q hq
  rw [h.working, Option.mem_some_iff] at hq
  exact hq ▸ h.goesOn

lemma Serving.lookup_next (h : Serving T j s L w) (hj : j.Valid T) (hsize : 2 ≤ p.tlb.tlbSize)
    (hr : AtWork T j s L w r .tlbRefill) (hs : s.nextState p mem now = .ok s') :
    Serving T j s' L w ∧ s'.inFlight = s.inFlight ∧
      s'.dma.dmaDoneEventFree = s.dma.dmaDoneEventFree ∧ s'.dma.currentState ≠ .tlbRefill := by
  have hsh := h.sharing.nextState hsize hs
  have hacc := h.accounted.nextState hr.noReissue hs
  have hst := hr.state
  obtain ⟨hnil, -⟩ | ⟨-, ⟨hidle, -⟩ | ⟨-, hs⟩ | ⟨htr, -⟩⟩ := nextState_ok hs
  · rw [hr.requests] at hnil
    cases hnil
  · rw [hst] at hidle
    cases hidle
  · obtain ⟨i, q, hi, hq, hcase⟩ := stateTlbRefill_ok hs
    obtain ⟨rfl, rfl⟩ := hr.index_eq hi hq
    have hreq := hr.set_requests { q with issued := true }
    have hjob := hr.job.withIssued
    obtain ⟨hle, rfl⟩ | ⟨hlt, t, rfl, -⟩ := hcase
    · rw [hr.vstart, hr.job.vend] at hle
      exact ⟨⟨hsh, hacc (properRanges_of_single hj h.issued hreq hjob), h.issued, h.transfers, h.free,
        .waiting _ hreq hjob rfl rfl hle⟩, rfl, rfl, by simp [setState]⟩
    · rw [hr.vstart, hr.job.vend] at hlt
      have hwork : AtWork T j ({ s.setRequest 0 { q with issued := true } with
          front := { s.front with tlb := t } }.setState .transfer) L w { q with issued := true }
          .transfer :=
        ⟨hreq, hjob, rfl, hr.index, rfl, hr.vstart, hr.vreg, hr.goesOn, hr.le_last⟩
      exact ⟨⟨hsh, hacc (properRanges_of_single hj h.issued hreq hjob), h.issued, h.transfers, h.free,
        .transfer _ hwork hlt rfl⟩, rfl, rfl, by simp [setState]⟩
  · rw [hst] at htr
    cases htr

/-! ## TRANSFER -/

lemma Serving.translation (h : Serving T j s L w) (hj : j.Valid T)
    (hr : AtWork T j s L w r .transfer) :
    s.front.tlb.sliceVend w = .ok (T.sliceEnd w) ∧ s.front.tlb.remapCheck w = T.phys w ∧
      s.front.tlb.remapCheck (min (T.sliceEnd w) j.last) = T.phys (min (T.sliceEnd w) j.last) := by
  have hok := h.sharing.front.tlb
  have hv := h.issued.region hj hr.le_last
  have hres : s.front.tlb.Resident w := by
    have := h.sharing.looked hr.state r hr.working
    rw [hr.vstart] at this
    exact this
  have hle := le_sliceEnd hv
  have hw := hr.le_last
  have hlo : w ≤ min (T.sliceEnd w) j.last := by omega
  have hhi : min (T.sliceEnd w) j.last ≤ T.sliceEnd w := Nat.min_le_left _ _
  refine ⟨hok.sliceVend_eq hv hres, hok.remapCheck_of_resident hv hres, ?_⟩
  exact hok.remapCheck_of_resident (region_of_le hv hlo hhi)
    (hok.resident_slice hv hres hlo hhi)

lemma AtWork.isPiece (hr : AtWork T j s L w r st) (hi : Issued T j L w)
    (hj : j.Valid T) : (w, min (T.sliceEnd w) j.last) ∈ T.pieces j.v j.last := by
  rw [hi.pieces]
  apply mem_append_right
  have hf := forward (hi.region hj hr.le_last) hj.stop
  unfold pieces
  rw [Cuts.cuts_cons hf hr.le_last]
  exact mem_cons_self

lemma IsJob.push (h : IsJob T j L r) {r' : DMARequest} {more : Bool} {u : Nat}
    (hnext : { r with memP := r.memP ++ [(T.phys x.1, T.phys x.2)] }.nextSubRequest u =
      .ok (r', more)) : IsJob T j (L ++ [x]) r' := by
  obtain ⟨hid, hres, hmemP, hve, hexp, hcomp, -⟩ := nextSubRequest_frame hnext
  refine ⟨hid.trans h.id, hve.trans h.vend, hexp.trans h.expected, hres.trans h.mask, ?_, ?_⟩
  · rw [hmemP]
    dsimp only
    rw [h.memP, map_append, map_singleton]
  · rw [hcomp]
    exact h.waits

lemma Serving.transfer_next (h : Serving T j s L w) (hj : j.Valid T) (hsize : 2 ≤ p.tlb.tlbSize)
    (hr : AtWork T j s L w r .transfer) (hlt : w < j.last) (hissued : r.issued = true)
    (hs : s.nextState p mem now = .ok s') :
    Serving T j s' (L ++ [(w, min (T.sliceEnd w) j.last)]) (min (T.sliceEnd w) j.last + 1) ∧
      s'.dma.dmaDoneEventFree + 1 = s.dma.dmaDoneEventFree ∧
      ∃ a, s'.inFlight = s.inFlight ++ actionPackets p (T.phys w)
        (pieceSize (w, min (T.sliceEnd w) j.last)) r.vregPtr a 0 := by
  have hsh := h.sharing.nextState hsize hs
  have hacc := h.accounted.nextState hr.noReissue hs
  have hst := hr.state
  obtain ⟨hvend, hps, hpe⟩ := h.translation hj hr
  have hsub := (phys_sub hj (hr.isPiece h.issued hj)).2
  obtain ⟨hnil, -⟩ | ⟨-, ⟨hidle, -⟩ | ⟨htl, -⟩ | ⟨-, hs⟩⟩ := nextState_ok hs
  · rw [hr.requests] at hnil
    cases hnil
  · rw [hst] at hidle
    cases hidle
  · rw [hst] at htl
    cases htl
  · obtain ⟨i, q, e, r', more, hi, hq, he, hfree, -, hnext, rfl⟩ := stateTransfer_ok hs
    obtain ⟨rfl, rfl⟩ := hr.index_eq hi hq
    rw [hr.vstart, hvend, Except.ok.injEq] at he
    subst he
    have hps' : s.front.tlb.remapCheck q.memVstart = T.phys w := hr.vstart ▸ hps
    have hmin : min (T.sliceEnd w) q.memVend = min (T.sliceEnd w) j.last := by rw [hr.job.vend]
    rw [hps', hmin, hpe] at hnext
    have hjob := IsJob.push (x := (w, min (T.sliceEnd w) j.last)) hr.job hnext
    obtain ⟨hge, hcase⟩ := DMARequest.nextSubRequest_ok hnext
    -- The end of the piece is not the last address of all: the next start would be 0.
    have hend : min (T.sliceEnd w) j.last + 1 < 2 ^ 64 := by
      change q.memVstart ≤ addr64 (min (T.sliceEnd w) j.last + 1) at hge
      have h1 := hj.last_lt
      have h2 := hj.lt
      have h3 := h.issued.start
      rw [hr.vstart] at hge
      unfold addr64 at hge
      unfold Job.last at *
      omega
    have haddr : addr64 (min (T.sliceEnd w) j.last + 1) = min (T.sliceEnd w) j.last + 1 :=
      addr64_of_lt hend
    rw [haddr] at hge hcase
    have hissued' := h.issued.snoc hj hlt hend
    have hreq := hr.set_requests r'
    have hfree' : s.dma.dmaDoneEventFree - 1 + 1 = s.dma.dmaDoneEventFree := by omega
    have hpool := h.free
    refine ⟨⟨hsh, hacc (properRanges_of_single hj hissued' hreq hjob), hissued', ?_, ?_, ?_⟩, hfree',
      s.actions.length, ?_⟩
    · show s.transfers ++ [_] = _
      rw [h.transfers, map_append, map_singleton]
      congr 2
      unfold Job.sub
      rw [hps', hmin, hpe, hsub, hr.vstart, hr.job.id, hr.vreg]
    · show _ ≤ s.dma.dmaDoneEventFree - 1 + (L ++ [_]).length
      rw [length_append, List.length_singleton]
      omega
    · rcases hcase with ⟨hover, rfl, rfl⟩ | ⟨hmore, rfl, rfl⟩
      · rw [show q.memVend = j.last from hr.job.vend] at hover
        exact .waiting _ hreq hjob rfl hissued hover
      · rw [show q.memVend = j.last from hr.job.vend] at hmore
        refine .lookup _ ⟨hreq, hjob, rfl, hr.index, rfl, rfl, ?_, hr.goesOn, Nat.le_of_lt hmore⟩
        have h3 := h.issued.start
        change q.memVstart ≤ _ at hge
        show q.vregPtr + (min (T.sliceEnd w) j.last + 1 - q.memVstart) = _
        rw [hr.vreg, hr.vstart]
        rw [hr.vstart] at hge
        omega
    · show s.inFlight ++ _ = _
      rw [hps', hmin, hpe, hsub, hr.job.id]

lemma Serving.idle_next (h : Serving T j s L w) (hj : j.Valid T) (hsize : 2 ≤ p.tlb.tlbSize)
    (hst : s.dma.currentState = .idle) (hs : s.nextState p mem now = .ok s') :
    Serving T j s' L w := by
  have hsh := h.sharing.nextState hsize hs
  have hacc := h.accounted.nextState (by rw [hst]; simp) hs
  rcases h.phase with ⟨r, hr⟩ | ⟨r, hr, -, -⟩ | ⟨r, hreq, hjob, -, hissued, hw⟩ | ⟨hreq, -, hall⟩
  · exact absurd (hr.state.symm.trans hst) (by simp)
  · exact absurd (hr.state.symm.trans hst) (by simp)
  · have hnone : s.dma.requests.findIdx? (fun r => !r.issued) = none := by
      rw [hreq, findIdx?_eq_none_iff]
      simp [hissued]
    obtain ⟨hnil, -⟩ | ⟨-, ⟨-, rfl⟩ | ⟨htl, -⟩ | ⟨htr, -⟩⟩ := nextState_ok hs
    · rw [hreq] at hnil
      cases hnil
    · unfold stateIdle at *
      rw [hnone] at *
      exact ⟨hsh, hacc (properRanges_of_single hj h.issued hreq hjob), h.issued, h.transfers, h.free,
        .waiting r hreq hjob hst hissued hw⟩
    · exact absurd (hst.symm.trans htl) (by simp)
    · exact absurd (hst.symm.trans htr) (by simp)
  · obtain ⟨-, rfl⟩ | ⟨hne, -⟩ := nextState_ok hs
    · exact ⟨hsh, hacc (properRanges_of_nil hreq), h.issued, h.transfers, h.free,
        .complete hreq rfl hall⟩
    · exact absurd hreq hne

/-! ## Responses -/

lemma AtWork.issuedBytes_lt (hr : AtWork T j s L w r st) (hj : j.Valid T)
    (hacc : Accounted s) : issuedBytes r < j.n := by
  have hmem : r ∈ s.dma.requests := by rw [hr.requests]; exact mem_singleton_self r
  have hbudget := (hacc.books.ledger r hmem).budget
  have hpos := hj.pos
  unfold leftBytes at hbudget
  rw [hr.goesOn, hr.job.expected] at hbudget
  simp only [Bool.false_eq_true, if_false] at hbudget
  omega

lemma Accounted.packet_le (hacc : Accounted s) (hreq : s.dma.requests = [r])
    (hpkt : pkt ∈ s.inFlight) : r.bytesCompleted + pkt.size ≤ issuedBytes r := by
  have hmem : r ∈ s.dma.requests := by rw [hreq]; exact mem_singleton_self r
  have hbal := (hacc.books.ledger r hmem).balance
  obtain ⟨q, hq, hid, -⟩ := hacc.books.owner pkt hpkt
  rw [hreq, mem_singleton] at hq
  subst hq
  have hle : pkt.size ≤ bytesOf DmaPacket.owner s.inFlight q.id := by
    unfold bytesOf
    exact le_sum_of_mem (mem_map.mpr ⟨pkt, hpkt, if_pos hid.symm⟩)
  omega

lemma AtWork.listSteady (hr : AtWork T j s L w r st) (hj : j.Valid T)
    (hacc : Accounted s) (now k : Nat) : ListSteady s (now, .response k) := by
  intro _ pkt hk i _ q hq heq
  have hmem : q ∈ s.dma.requests := mem_of_getElem? hq
  rw [hr.requests, mem_singleton] at hmem
  rw [hmem, hr.job.expected] at heq
  have hle := hacc.packet_le hr.requests (mem_of_getElem? hk)
  have hbytes := hr.issuedBytes_lt hj hacc
  have hn := hj.lt
  rw [addr64_of_lt (by omega)] at heq
  omega

lemma Serving.listSteady (h : Serving T j s L w) (hj : j.Valid T) (now k : Nat) :
    ListSteady s (now, .response k) := by
  rcases h.phase with ⟨r, hr⟩ | ⟨r, hr, -, -⟩ | ⟨r, -, -, hst, -, -⟩ | ⟨-, hst, -⟩
  · exact hr.listSteady hj h.accounted now k
  · exact hr.listSteady hj h.accounted now k
  · exact fun hne => absurd hst hne
  · exact fun hne => absurd hst hne

lemma IsJob.credit (h : IsJob T j L r) (hb : b < j.n) :
    IsJob T j L { r with bytesCompleted := b } :=
  { h with waits := hb }

lemma AtWork.credit (hr : AtWork T j s L w r st) (hb : b < j.n)
    (hreq : s'.dma.requests = [{ r with bytesCompleted := b }])
    (hst : s'.dma.currentState = s.dma.currentState)
    (hindex : s'.dma.currentIndex = s.dma.currentIndex)
    (hsch : s'.dma.nextStateScheduled = s.dma.nextStateScheduled) :
    AtWork T j s' L w { r with bytesCompleted := b } st :=
  ⟨hreq, hr.job.credit hb, hst.trans hr.state, hindex.trans hr.index, hsch.trans hr.scheduled,
    hr.vstart, hr.vreg, hr.goesOn, hr.le_last⟩

lemma Credits.single (h : Credits s pkt s') (hreq : s.dma.requests = [r]) :
    r.bytesCompleted + pkt.size = r.bytesExpected ∧ s'.dma.requests = [] ∨
      r.bytesCompleted + pkt.size < r.bytesExpected ∧
        s'.dma.requests = [{ r with bytesCompleted := r.bytesCompleted + pkt.size }] := by
  obtain ⟨i, q, hq, -, hcase⟩ := h
  rw [hreq] at hq hcase
  obtain ⟨hi, hq⟩ := List.getElem?_eq_some_iff.mp hq
  rw [List.length_singleton] at hi
  obtain rfl : i = 0 := by omega
  obtain rfl : r = q := hq
  rcases hcase with ⟨heq, hnil, -⟩ | ⟨hlt, hset, -⟩
  · exact .inl ⟨heq, hnil⟩
  · exact .inr ⟨hlt, hset⟩

lemma Serving.response (h : Serving T j s L w) (hj : j.Valid T) {k : Nat}
    (hs : s.step p mem (now, .response k) = .ok s') : Serving T j s' L w := by
  have hsteady := h.listSteady hj now k
  have hsh := h.sharing.response hsteady hs
  have hst := (response_recredits hsteady hs).state
  obtain ⟨-, -, htr, hsch, hindex, hfree, -⟩ := response_frame hs
  obtain ⟨-, rfl⟩ | ⟨pkt, -, hk, -⟩ := response_ok hs
  · exact h
  · obtain ⟨hcred, hacc⟩ := h.accounted.response hk hs
    have hpkt := mem_of_getElem? hk
    refine ⟨hsh, hacc, h.issued, htr.trans h.transfers, hfree ▸ h.free, ?_⟩
    rcases h.phase with ⟨r, hr⟩ | ⟨r, hr, hlt, hissued⟩ | ⟨r, hreq, hjob, hidle, hissued, hw⟩ |
      ⟨hreq, -, -⟩
    · obtain ⟨heq, -⟩ | ⟨hmore, hreq⟩ := hcred.single hr.requests
      · have hle := h.accounted.packet_le hr.requests hpkt
        have hlt := hr.issuedBytes_lt hj h.accounted
        rw [hr.job.expected] at heq
        omega
      · rw [hr.job.expected] at hmore
        exact .lookup _ (hr.credit hmore hreq hst hindex hsch)
    · obtain ⟨heq, -⟩ | ⟨hmore, hreq⟩ := hcred.single hr.requests
      · have hle := h.accounted.packet_le hr.requests hpkt
        have hlt := hr.issuedBytes_lt hj h.accounted
        rw [hr.job.expected] at heq
        omega
      · rw [hr.job.expected] at hmore
        exact .transfer _ (hr.credit hmore hreq hst hindex hsch) hlt hissued
    · obtain ⟨heq, hnil⟩ | ⟨hmore, hreq'⟩ := hcred.single hreq
      · have hle := h.accounted.packet_le hreq hpkt
        rw [hjob.expected] at heq
        rw [hjob.issuedBytes_eq hj h.issued, heq] at hle
        exact .complete hnil (hst.trans hidle) (h.issued.full hj hle).1
      · rw [hjob.expected] at hmore
        exact .waiting _ hreq' (hjob.credit hmore) (hst.trans hidle) hissued hw
    · obtain ⟨q, hq, -⟩ := h.accounted.books.owner pkt hpkt
      rw [hreq] at hq
      exact absurd hq not_mem_nil

/-! ## Steps -/

/-- What happens once the request is in: no further request, and accesses of the processor that
spare it. -/
def Serves (T : Tlb.Table p.tlb mem) (s : DmaSys) : Nat × Event → Prop
  | (_, .initiateRead ..) | (_, .initiateWrite ..) => False
  | (_, .cpu a) => a.InRegion T ∧ Spares T s (.cpu a)
  | (_, .nextState) | (_, .response _) | (_, .done) => True

lemma Phase.congr (h : Phase T j s L w) (hreq : s'.dma.requests = s.dma.requests)
    (hst : s'.dma.currentState = s.dma.currentState)
    (hindex : s'.dma.currentIndex = s.dma.currentIndex)
    (hsch : s'.dma.nextStateScheduled = s.dma.nextStateScheduled) : Phase T j s' L w := by
  have hwork : ∀ {r st}, AtWork T j s L w r st → AtWork T j s' L w r st := fun hr =>
    ⟨hreq.trans hr.requests, hr.job, hst.trans hr.state, hindex.trans hr.index,
      hsch.trans hr.scheduled, hr.vstart, hr.vreg, hr.goesOn, hr.le_last⟩
  rcases h with ⟨r, hr⟩ | ⟨r, hr, hlt, hissued⟩ | ⟨r, hr, hjob, hidle, hissued, hw⟩ |
    ⟨hnil, hidle, hall⟩
  · exact .lookup r (hwork hr)
  · exact .transfer r (hwork hr) hlt hissued
  · exact .waiting r (hreq.trans hr) hjob (hst.trans hidle) hissued hw
  · exact .complete (hreq.trans hnil) (hst.trans hidle) hall

lemma Serving.next (h : Serving T j s L w) (hj : j.Valid T) (hsize : 2 ≤ p.tlb.tlbSize)
    (hs : s.nextState p mem now = .ok s') : ∃ L' w', Serving T j s' L' w' := by
  rcases h.phase with ⟨r, hr⟩ | ⟨r, hr, hlt, hissued⟩ | ⟨r, -, -, hst, -, -⟩ | ⟨-, hst, -⟩
  · exact ⟨_, _, (h.lookup_next hj hsize hr hs).1⟩
  · exact ⟨_, _, (h.transfer_next hj hsize hr hlt hissued hs).1⟩
  · exact ⟨_, _, h.idle_next hj hsize hst hs⟩
  · exact ⟨_, _, h.idle_next hj hsize hst hs⟩

lemma Serving.step (h : Serving T j s L w) (hj : j.Valid T) (hsize : 2 ≤ p.tlb.tlbSize)
    {l : Nat × Event} (hl : Serves T s l) (hs : s.step p mem l = .ok s') :
    ∃ L' w', Serving T j s' L' w' := by
  obtain ⟨now, e⟩ := l
  rcases e with _ | _ | _ | k | _ | a
  · exact hl.elim
  · exact hl.elim
  · obtain ⟨-, rfl⟩ | ⟨-, hs⟩ := nextState_step_ok hs
    · exact ⟨L, w, h⟩
    · exact h.next hj hsize hs
  · exact ⟨L, w, h.response hj hs⟩
  · have hsh := h.sharing.step hsize (l := (now, .done)) ⟨trivial, trivial⟩ ⟨trivial, hs⟩
    have hacc := (h.accounted.step (l := (now, .done)) trivial hs ?_).2
    · obtain ⟨-, rfl⟩ | ⟨-, rfl⟩ := done_ok hs
      · exact ⟨L, w, h⟩
      · have hfree := h.free
        refine ⟨L, w, hsh, hacc, h.issued, h.transfers, ?_, h.phase.congr rfl rfl rfl rfl⟩
        show _ ≤ s.dma.dmaDoneEventFree + 1 + L.length
        omega
    · obtain ⟨-, rfl⟩ | ⟨-, rfl⟩ := done_ok hs
      · exact h.properRanges hj
      · exact h.properRanges hj
  · have hsh := h.sharing.cpu hsize hl.1 hl.2 hs
    obtain ⟨f, -, rfl⟩ := cpu_ok hs
    exact ⟨L, w, hsh, ⟨h.accounted.books, h.accounted.resources, h.accounted.status,
      h.accounted.parked, h.accounted.port⟩, h.issued, h.transfers, h.free,
      h.phase.congr rfl rfl rfl rfl⟩

end DmaSys

end SmcPim
