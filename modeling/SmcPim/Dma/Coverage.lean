import SmcPim.Dma.Serving

/-! # Coverage of one request -/

namespace SmcPim

open List Nat Tlb.Table Cuts

namespace DmaSys

variable {p : DmaParams} {mem : Memory}

/-! ## What a request should come to -/

def ServeStep (T : Tlb.Table p.tlb mem) : DmaSys → Nat × Event → DmaSys → Prop :=
  Runs.Restrict (fun s l s' => s.step p mem l = .ok s') (Serves T)

def Event.Internal : Event → Prop
  | .nextState | .response _ | .done => True
  | .initiateRead .. | .initiateWrite .. | .cpu _ => False

def NoFault (T : Tlb.Table p.tlb mem) (s₀ : DmaSys) : Prop :=
  ∀ ls s, Runs.Steps (ServeStep T) s₀ ls s →
    ∀ now e, e.Internal → ∃ s', s.step p mem (now, e) = .ok s'

def Settled (s : DmaSys) : Prop := s.dma.currentState = .idle ∧ s.inFlight = []

/-- Every byte went out once, to its physical address and from its place in the vector register. -/
structure Complete (T : Tlb.Table p.tlb mem) (j : Job) (s : DmaSys) : Prop where
  bytes : s.transfers.flatMap SubTransfer.bytes =
    (List.range j.n).map fun k => (j.v + k, T.phys (j.v + k), j.vreg + k)
  requests : s.dma.requests = []
  resources : s.dma.dmaResources = 0
  status : s.dmaStatus = 0

structure Served (T : Tlb.Table p.tlb mem) (j : Job) (s₀ : DmaSys) : Prop where
  noFault : NoFault T s₀
  settles : ∀ ls s, Runs.Steps (ServeStep T) s₀ ls s →
    ∃ ls' s', Runs.Steps (ServeStep T) s ls' s' ∧ Settled s'
  complete : ∀ ls s, Runs.Steps (ServeStep T) s₀ ls s → Settled s → Complete T j s

def Covered (T : Tlb.Table p.tlb mem) (f : Tlb.Front) (l : Nat × Event) (j : Job) : Prop :=
  ∃ s₀, (init f).step p mem l = .ok s₀ ∧ Served T j s₀

def Job.Asks (j : Job) (e : Event) : Prop :=
  e = .initiateRead j.vreg j.v j.n j.res ∨ e = .initiateWrite j.vreg j.v j.n j.res

/-- What the engine can serve: the last byte begins no slice, and no physical address is met twice.
-/
structure Fits (T : Tlb.Table p.tlb mem) (j : Job) : Prop where
  long : 2 ≤ j.n
  inside : (T.slice j.last).vaddr ≠ j.last
  below : j.v + j.n < 2 ^ 64
  sizes : ∀ x ∈ T.pieces j.v j.last, pieceSize x < 2 ^ 32
  events : (T.pieces j.v j.last).length ≤ Dma.maxOutstandingDma
  distinct : ∀ i, i < j.n → ∀ k, k < i → T.phys (j.v + k) ≠ T.phys (j.v + i)

variable {T : Tlb.Table p.tlb mem} {j : Job} {L : List (Nat × Nat)} {w now : Nat} {s s' : DmaSys}
  {r : DMARequest}

lemma initiate_init (f : Tlb.Front) (dir : Bool) (busy : String) (vreg v n : Nat) {res : BitVec 8}
    (hres : res ≠ 0) :
    (init f).initiate dir busy p mem now vreg v n res =
      .ok ((init f).withRequest (.new 0 vreg v n dir res)).stateIdle := by
  unfold initiate
  rw [assert_ok hres, ok_bind, if_neg]
  · rfl
  · intro hne
    exact hne BitVec.zero_and

variable {f : Tlb.Front} {addr size : Nat} {x y : Nat × Nat} {pkt : DmaPacket}
  {ls : List (Nat × Event)} {l : Nat × Event}

lemma Serving.start (hf : Tlb.Front.Inv T f) (hj : j.Valid T) (hsize : 2 ≤ p.tlb.tlbSize)
    (hfree : ∀ u, j.v ≤ u → u < j.v + j.n → entryOf T u ∉ f.refills) (dir : Bool) (busy : String) :
    ∃ s₀, (init f).initiate dir busy p mem now j.vreg j.v j.n j.res = .ok s₀ ∧
      Serving T j s₀ [] j.v ∧ s₀.dma.dmaDoneEventFree = Dma.maxOutstandingDma := by
  obtain ⟨s₀, hs, hs₀⟩ : ∃ s₀, (init f).initiate dir busy p mem now j.vreg j.v j.n j.res = .ok s₀ ∧
      s₀ = ((init f).withRequest (.new 0 j.vreg j.v j.n dir j.res)).stateIdle :=
    ⟨_, initiate_init f dir busy j.vreg j.v j.n hj.res, rfl⟩
  refine ⟨s₀, hs, ?_, by rw [hs₀]; rfl⟩
  obtain ⟨hstart, hend⟩ := memVend_new hj.pos hj.start hj.stop 0 j.vreg dir j.res
  have hjob : IsJob T j [] (.new 0 j.vreg j.v j.n dir j.res) :=
    ⟨rfl, hend, addr64_of_lt hj.lt, rfl, rfl, hj.pos⟩
  have hsh := (sharing_init hf).initiate hsize rfl ⟨hj.pos, hj.start, hj.stop⟩ hfree hs
  have hreq : s₀.dma.requests = [.new 0 j.vreg j.v j.n dir j.res] := by rw [hs₀]; rfl
  have hacc := (accounted_init f).initiate hs (properRanges_of_single hj (issued_nil j) hreq hjob)
  subst hs₀
  refine ⟨hsh, hacc, issued_nil j, rfl, le_refl _, .lookup _ ⟨rfl, hjob, rfl, rfl, rfl, hstart,
    ?_, rfl, hj.le_last⟩⟩
  rw [Nat.sub_self]
  rfl

/-! ## No fault in the states -/

lemma Serving.lookup_total (h : Serving T j s L w) (hr : AtWork T j s L w r .tlbRefill)
    (now : Nat) : ∃ s', s.nextState p mem now = .ok s' := by
  have hne : s.dma.requests ≠ [] := by rw [hr.requests]; simp
  unfold DmaSys.nextState
  rw [if_neg hne, hr.state]
  exact h.sharing.stateTlbRefill_total hr.state now

lemma Serving.transfer_total (h : Serving T j s L w) (hj : j.Valid T)
    (hr : AtWork T j s L w r .transfer) (hfree : s.dma.dmaDoneEventFree ≠ 0)
    (hbelow : j.last + 1 < 2 ^ 64) (now : Nat) : ∃ s', s.nextState p mem now = .ok s' := by
  have hne : s.dma.requests ≠ [] := by rw [hr.requests]; simp
  obtain ⟨hvend, hps, hpe⟩ := h.translation hj hr
  have hpiece := hr.isPiece h.issued hj
  obtain ⟨hx, -, hle, hlast, hend⟩ := piece_spec hj.start hj.stop hpiece
  have hphys := phys_add hx hle hend
  have hlt := T.phys_lt _ (region_of_le hx hle hend).1 (region_of_le hx hle hend).2
  dsimp only at hx hle hlast hend hphys hlt
  have hvend' : s.front.tlb.sliceVend r.memVstart = .ok (T.sliceEnd w) := hr.vstart.symm ▸ hvend
  have hps' : s.front.tlb.remapCheck r.memVstart = T.phys w := hr.vstart.symm ▸ hps
  have hmin : min (T.sliceEnd w) r.memVend = min (T.sliceEnd w) j.last := by rw [hr.job.vend]
  unfold DmaSys.nextState
  rw [if_neg hne, hr.state]
  apply stateTransfer_total hr.index hr.get hvend'
  · rw [hmin, hpe, hps', hr.vstart]
    unfold noAddr at hlt
    rw [sub64_of_le (by omega) (by omega), sub64_of_le (by omega) (by omega), hphys]
    omega
  · exact hfree
  · rw [hmin, hr.vstart, addr64_of_lt (by omega)]
    omega

lemma Serving.idle_total (hst : s.dma.currentState = .idle) (now : Nat) :
    ∃ s', s.nextState p mem now = .ok s' := by
  unfold DmaSys.nextState
  split
  · exact ⟨_, rfl⟩
  · rw [hst]
    exact ⟨_, rfl⟩

lemma Fits.below_last (hfit : Fits T j) : j.last + 1 < 2 ^ 64 := by
  have h1 := hfit.below
  have h2 := hfit.long
  unfold Job.last
  omega

lemma Serving.next_total (h : Serving T j s L w) (hj : j.Valid T) (hfit : Fits T j) (now : Nat) :
    ∃ s', s.nextState p mem now = .ok s' := by
  rcases h.phase with ⟨r, hr⟩ | ⟨r, hr, -, -⟩ | ⟨r, -, -, hst, -, -⟩ | ⟨-, hst, -⟩
  · exact h.lookup_total hr now
  · apply h.transfer_total hj hr ?_ hfit.below_last now
    -- The piece that is due has no event yet.
    have hf := forward (h.issued.region hj hr.le_last) hj.stop
    have hcons := cuts_cons hf hr.le_last
    have hlen := congrArg length h.issued.pieces
    have hevents := hfit.events
    have hpool := h.free
    unfold pieces at hlen hevents
    rw [hcons, length_append, length_cons] at hlen
    omega
  · exact Serving.idle_total hst now
  · exact Serving.idle_total hst now

/-! ## No fault in a response -/

lemma findRequest_single (hreq : s.dma.requests = [r]) :
    (∃ i, s.findRequest addr = .ok i) ↔ hits r addr = 1 := by
  have hm : matchings addr 0 s.dma.requests = replicate (hits r addr) 0 := by
    rw [hreq]
    exact append_nil _
  unfold findRequest
  rw [hm]
  rcases hits r addr with _ | _ | n
  · simp
  · simp
  · simp [replicate_succ]

lemma handlePacket_total (hreq : s.dma.requests = [r])
    (hhits : hits r addr = 1) (hle : addr64 (r.bytesCompleted + size) ≤ r.bytesExpected)
    (hres : s.dma.dmaResources &&& r.dmaResource ≠ 0) :
    ∃ s', s.handlePacket addr size = .ok s' := by
  obtain ⟨i, hi⟩ := (findRequest_single hreq).mpr hhits
  have hi0 := findRequest_mem hi
  obtain rfl : i = 0 := by
    rw [hreq] at hi0
    exact (by simpa [matchings] using hi0 : ¬ hits r addr = 0 ∧ i = 0).2
  unfold handlePacket
  rw [hi, ok_bind]
  have hget : s.dma.requests[0]? = some r := by
    rw [hreq]
    rfl
  rw [hget]
  dsimp only
  rw [assert_ok hle, ok_bind]
  split
  · have hclear : s.dma.dmaResources &&& ~~~ r.dmaResource &&& r.dmaResource = 0 := by
      rw [BitVec.and_assoc, BitVec.not_and_self]
      exact BitVec.and_zero
    rw [assert_ok hres, ok_bind]
    exact ⟨_, bind_eq_ok.mpr ⟨(), assert_ok hclear, rfl⟩⟩
  · exact ⟨_, rfl⟩

lemma piece_unique (hj : j.Valid T)
    (hd : ∀ i, i < j.n → ∀ k, k < i → T.phys (j.v + k) ≠ T.phys (j.v + i))
    (hx : x ∈ T.pieces j.v j.last) (hy : y ∈ T.pieces j.v j.last) {a : Nat}
    (hax : T.phys x.1 ≤ a ∧ a ≤ T.phys x.2) (hay : T.phys y.1 ≤ a ∧ a ≤ T.phys y.2) : x = y := by
  have hf := forward hj.start hj.stop
  obtain ⟨hxr, hxlo, hxle, hxhi, hxend⟩ := piece_spec hj.start hj.stop hx
  obtain ⟨hyr, hylo, hyle, hyhi, hyend⟩ := piece_spec hj.start hj.stop hy
  have hx2 := phys_add hxr hxle hxend
  have hy2 := phys_add hyr hyle hyend
  -- The virtual addresses of `a` in the two pieces.
  obtain ⟨u, hu⟩ : ∃ u, u = x.1 + (a - T.phys x.1) := ⟨_, rfl⟩
  obtain ⟨v, hv⟩ : ∃ v, v = y.1 + (a - T.phys y.1) := ⟨_, rfl⟩
  have hphysu := phys_add (w := u) hxr (by omega) (by omega)
  have hphysv := phys_add (w := v) hyr (by omega) (by omega)
  have huv : u = v := by
    have hlast := hj.last_succ
    rcases lt_trichotomy u v with hlt | heq | hgt
    · have hne := hd (v - j.v) (by omega) (u - j.v) (by omega)
      rw [Nat.add_sub_cancel' (by omega), Nat.add_sub_cancel' (by omega)] at hne
      omega
    · exact heq
    · have hne := hd (u - j.v) (by omega) (v - j.v) (by omega)
      rw [Nat.add_sub_cancel' (by omega), Nat.add_sub_cancel' (by omega)] at hne
      omega
  exact cut_unique hf hx hy (w := u) ⟨by omega, by omega⟩ ⟨by omega, by omega⟩

lemma hits_eq (hjob : IsJob T j L r) (addr : Nat) :
    hits r addr = L.countP fun x => decide (T.phys x.1 ≤ addr ∧ addr ≤ T.phys x.2) := by
  unfold hits
  rw [hjob.memP, countP_map]
  rfl

lemma Serving.pending (h : Serving T j s L w) (hpkt : pkt ∈ s.inFlight) :
    ∃ r, s.dma.requests = [r] ∧ IsJob T j L r := by
  rcases h.phase with ⟨r, hr⟩ | ⟨r, hr, -, -⟩ | ⟨r, hreq, hjob, -, -, -⟩ | ⟨hreq, -, -⟩
  · exact ⟨r, hr.requests, hr.job⟩
  · exact ⟨r, hr.requests, hr.job⟩
  · exact ⟨r, hreq, hjob⟩
  · obtain ⟨q, hq, -⟩ := h.accounted.books.owner pkt hpkt
    rw [hreq] at hq
    exact absurd hq not_mem_nil

lemma Serving.response_total (h : Serving T j s L w) (hj : j.Valid T) (hfit : Fits T j)
    (now k : Nat) : ∃ s', s.step p mem (now, .response k) = .ok s' := by
  unfold DmaSys.step
  dsimp only
  split
  · exact ⟨s, rfl⟩
  · rename_i pkt hk
    have hpkt := mem_of_getElem? hk
    obtain ⟨r, hreq, hjob⟩ := h.pending hpkt
    obtain ⟨a, ha, hle⟩ := h.accounted.port.found hpkt
    unfold handleResp
    rw [show s.actions[pkt.action]? = some a from ha]
    dsimp only
    rw [assert_ok hle, ok_bind]
    apply handlePacket_total (s := s.withResponse k pkt a) hreq
    · obtain ⟨q, hq, -, x, hx, hin⟩ := h.accounted.books.owner pkt hpkt
      rw [hreq, mem_singleton] at hq
      subst hq
      have hpos : 0 < hits q pkt.addr := countP_pos_iff.mpr ⟨x, hx, decide_eq_true hin⟩
      have hone : hits q pkt.addr ≤ 1 := by
        rw [hits_eq hjob]
        apply Lists.countP_le_one
        · have hnodup := cuts_nodup (forward hj.start hj.stop)
          change (T.pieces j.v j.last).Nodup at hnodup
          rw [h.issued.pieces] at hnodup
          exact (nodup_append.mp hnodup).1
        · intro y hy z hz hay haz
          exact piece_unique hj hfit.distinct (h.issued.isPiece hy) (h.issued.isPiece hz)
            (of_decide_eq_true hay) (of_decide_eq_true haz)
      omega
    · have hmem : r ∈ s.dma.requests := by rw [hreq]; exact mem_singleton_self r
      have hled := h.accounted.books.ledger r hmem
      have hbytes := h.accounted.packet_le hreq hpkt
      have hpos := hj.pos
      have hn := hj.lt
      have hbudget := hled.budget (by rw [hjob.expected]; omega)
      rw [hjob.expected] at hbudget ⊢
      rw [addr64_of_lt (by omega)]
      omega
    · show s.dma.dmaResources &&& r.dmaResource ≠ 0
      rw [h.accounted.resources, hreq, hjob.mask, map_singleton, Masks.orAll_cons, hjob.mask]
      show (j.res ||| 0#8) &&& j.res ≠ 0
      rw [BitVec.or_zero, BitVec.and_self]
      exact hj.res

/-! ## Runs without a fault -/

lemma NoFault.after (h : NoFault T s) (hrun : Runs.Steps (ServeStep T) s ls s') : NoFault T s' :=
  fun ms t ht => h (ls ++ ms) t (hrun.append ht)

lemma Serving.run (h : Serving T j s L w) (hj : j.Valid T) (hsize : 2 ≤ p.tlb.tlbSize)
    (hrun : Runs.Steps (ServeStep T) s ls s') : ∃ L' w', Serving T j s' L' w' := by
  apply hrun.inv (fun t => ∃ L' w', Serving T j t L' w') ?_ ⟨L, w, h⟩
  rintro t l u ⟨L', w', ht⟩ hstep
  exact ht.step hj hsize hstep.1 hstep.2

lemma Serving.noFault (h : Serving T j s L w) (hj : j.Valid T) (hsize : 2 ≤ p.tlb.tlbSize)
    (hfit : Fits T j) : NoFault T s := by
  intro ls t hrun now e he
  obtain ⟨L', w', ht⟩ := h.run hj hsize hrun
  rcases e with _ | _ | _ | k | _ | a
  · exact he.elim
  · exact he.elim
  · obtain ⟨t', ht'⟩ := ht.next_total hj hfit now
    unfold DmaSys.step
    dsimp only
    split
    · exact ⟨t', ht'⟩
    · exact ⟨t, rfl⟩
  · exact ht.response_total hj hfit now k
  · unfold DmaSys.step
    dsimp only
    split
    · exact ⟨_, rfl⟩
    · exact ⟨_, rfl⟩
  · exact he.elim

structure Unanswered (T : Tlb.Table p.tlb mem) (s : DmaSys) (L : List (Nat × Nat)) : Prop where
  events : s.dma.dmaDoneEventFree + L.length = Dma.maxOutstandingDma
  packets : ∀ x ∈ L, uint32 (pieceSize x) ≠ 0 → ∃ pkt ∈ s.inFlight, pkt.addr = T.phys x.1

lemma actionPackets_first {pstart vreg action owner : Nat} (h : uint32 size ≠ 0) :
    ∃ pkt ∈ actionPackets p pstart size vreg action owner, pkt.addr = pstart := by
  obtain ⟨n, hn⟩ := exists_eq_succ_of_ne_zero h
  unfold actionPackets
  rw [hn]
  unfold chunks
  rw [if_neg (succ_ne_zero n)]
  exact ⟨_, mem_cons_self, rfl⟩

def driveRank (j : Job) (s : DmaSys) (w : Nat) : Nat :=
  2 * (j.last + 1 - w) + if s.dma.currentState = .tlbRefill then 1 else 0

lemma AtWork.next_step {st : DmaState} (hr : AtWork T j s L w r st) (hgo : NoFault T s)
    (now : Nat) : ∃ s', s.nextState p mem now = .ok s' ∧ ServeStep T s (now, .nextState) s' := by
  obtain ⟨s', hs⟩ := hgo [] s (.nil s) now .nextState trivial
  have hnext : s.nextState p mem now = .ok s' := by
    obtain ⟨hsch, -⟩ | ⟨-, hnext⟩ := nextState_step_ok hs
    · exact absurd (hsch.symm.trans hr.scheduled) (by simp)
    · exact hnext
  exact ⟨s', hnext, trivial, hs⟩

section
variable (h : Serving T j s L w) (hj : j.Valid T)
include h hj

lemma Serving.drive (hsize : 2 ≤ p.tlb.tlbSize) (hgo : NoFault T s) :
    ∃ ls s' L' w', Runs.Steps (ServeStep T) s ls s' ∧ Serving T j s' L' w' ∧
      s'.dma.currentState = .idle ∧ (Unanswered T s L → Unanswered T s' L') := by
  induction hk : driveRank j s w using Nat.strongRecOn generalizing s L w with
  | ind k ih =>
    rcases h.phase with ⟨r, hr⟩ | ⟨r, hr, hlt, hissued⟩ | ⟨r, -, -, hst, -, -⟩ | ⟨-, hst, -⟩
    · obtain ⟨t, hnext, hstep⟩ := hr.next_step hgo 0
      have hrun := Runs.Steps.single hstep
      obtain ⟨ht, hflight, hfree, hst⟩ := h.lookup_next hj hsize hr hnext
      have hrank : driveRank j t w < k := by
        unfold driveRank at hk ⊢
        rw [hr.state, if_pos rfl] at hk
        rw [if_neg hst]
        omega
      obtain ⟨ls, s', L', w', hrun', hs', hidle, hun⟩ := ih _ hrank ht (hgo.after hrun) rfl
      refine ⟨_, s', L', w', hrun.append hrun', hs', hidle, fun hu => hun ⟨?_, ?_⟩⟩
      · rw [hfree]
        exact hu.events
      · rw [hflight]
        exact hu.packets
    · obtain ⟨t, hnext, hstep⟩ := hr.next_step hgo 0
      have hrun := Runs.Steps.single hstep
      obtain ⟨ht, hfree, a, hflight⟩ := h.transfer_next hj hsize hr hlt hissued hnext
      have hrank : driveRank j t (min (T.sliceEnd w) j.last + 1) < k := by
        have hle := le_sliceEnd (h.issued.region hj hr.le_last)
        unfold driveRank at hk ⊢
        split <;> omega
      obtain ⟨ls, s', L', w', hrun', hs', hidle, hun⟩ := ih _ hrank ht (hgo.after hrun) rfl
      refine ⟨_, s', L', w', hrun.append hrun', hs', hidle, fun hu => hun ⟨?_, ?_⟩⟩
      · have := hu.events
        rw [length_append, length_singleton]
        omega
      · intro x hx hne
        rw [hflight]
        rcases mem_append.mp hx with hx | hx
        · obtain ⟨pkt, hpkt, haddr⟩ := hu.packets x hx hne
          exact ⟨pkt, mem_append_left _ hpkt, haddr⟩
        · rw [mem_singleton] at hx
          subst hx
          obtain ⟨pkt, hpkt, haddr⟩ := actionPackets_first hne
          exact ⟨pkt, mem_append_right _ hpkt, haddr⟩
    · exact ⟨[], s, L, w, .nil s, h, hst, id⟩
    · exact ⟨[], s, L, w, .nil s, h, hst, id⟩

lemma Serving.drain (hst : s.dma.currentState = .idle)
    (hgo : NoFault T s) : ∃ ls s', Runs.Steps (ServeStep T) s ls s' ∧ Settled s' := by
  induction hn : s.inFlight.length generalizing s with
  | zero => exact ⟨[], s, .nil s, hst, length_eq_zero_iff.mp hn⟩
  | succ n ih =>
    obtain ⟨t, hs⟩ := hgo [] s (.nil s) 0 (.response 0) trivial
    have hrun := Runs.Steps.single (show ServeStep T s (0, .response 0) t from ⟨trivial, hs⟩)
    have hidle := (response_recredits (h.listSteady hj 0 0) hs).state.trans hst
    have hflight : t.inFlight.length = n := by
      rw [(response_frame hs).2.2.2.2.2.2, length_eraseIdx_of_lt (by omega)]
      omega
    obtain ⟨ls, s', hrun', hs'⟩ := ih (h.response hj hs) hidle (hgo.after hrun) hflight
    exact ⟨_, s', hrun.append hrun', hs'⟩

lemma Serving.settles (hsize : 2 ≤ p.tlb.tlbSize)
    (hgo : NoFault T s) : ∃ ls s', Runs.Steps (ServeStep T) s ls s' ∧ Settled s' := by
  obtain ⟨ls, t, L', w', hrun, ht, hidle, -⟩ := h.drive hj hsize hgo
  obtain ⟨ms, s', hrun', hs'⟩ := ht.drain hj hidle (hgo.after hrun)
  exact ⟨_, s', hrun.append hrun', hs'⟩

/-! ## At rest -/

lemma Serving.all_out (hst : s.dma.currentState = .idle)
    (hin : ∀ x ∈ T.pieces j.v j.last, x.1 < j.last) : T.pieces j.v j.last = L := by
  rcases h.phase with ⟨r, hr⟩ | ⟨r, hr, -, -⟩ | ⟨r, -, -, -, -, hw⟩ | ⟨-, -, hall⟩
  · exact absurd (hr.state.symm.trans hst) (by simp)
  · exact absurd (hr.state.symm.trans hst) (by simp)
  · have hlt : j.last < w := by
      apply lt_of_le_of_ne hw
      rintro rfl
      have hf := forward hj.stop hj.stop
      have hpieces := h.issued.pieces
      unfold pieces at hpieces hin
      rw [cuts_cons hf (le_refl _)] at hpieces
      refine lt_irrefl _ (hin (j.last, min (T.sliceEnd j.last) j.last) ?_)
      rw [hpieces]
      exact mem_append_right _ mem_cons_self
    have hpieces := h.issued.pieces
    rw [show T.pieces w j.last = [] from cuts_nil hlt, append_nil] at hpieces
    exact hpieces
  · exact hall

end

lemma sub_bytes (hj : j.Valid T) (hx : x ∈ T.pieces j.v j.last) (hsize : pieceSize x < 2 ^ 32) :
    (j.sub T x).bytes =
      (range' x.1 (x.2 + 1 - x.1)).map fun a => (a, T.phys a, j.vreg + (a - j.v)) := by
  obtain ⟨hr, hlo, h12, -, hend⟩ := piece_spec hj.start hj.stop hx
  have huint : uint32 (pieceSize x) = pieceSize x := mod_eq_of_lt hsize
  unfold SubTransfer.bytes Job.sub
  dsimp only
  rw [huint, range'_eq_map_range, map_map]
  apply map_congr_left
  intro k hk
  rw [mem_range] at hk
  unfold pieceSize at hk
  rw [Function.comp_apply, phys_add (w := x.1 + k) hr (by omega) (by omega)]
  rw [Nat.add_sub_cancel_left, Nat.add_assoc, Nat.sub_add_comm hlo]

lemma bytes_of_pieces (hj : j.Valid T) (hsizes : ∀ x ∈ T.pieces j.v j.last, pieceSize x < 2 ^ 32) :
    ((T.pieces j.v j.last).map (j.sub T)).flatMap SubTransfer.bytes =
      (range j.n).map fun k => (j.v + k, T.phys (j.v + k), j.vreg + k) := by
  have hflat := cuts_flatMap (forward hj.start hj.stop)
  have hlast : j.last + 1 - j.v = j.n := by rw [hj.last_succ, Nat.add_sub_cancel_left]
  calc ((T.pieces j.v j.last).map (j.sub T)).flatMap SubTransfer.bytes
      = (T.pieces j.v j.last).flatMap fun x =>
          (range' x.1 (x.2 + 1 - x.1)).map fun a => (a, T.phys a, j.vreg + (a - j.v)) := by
        rw [flatMap_map]
        apply flatMap_congr
        intro x hx
        exact sub_bytes hj hx (hsizes x hx)
    _ = (range' j.v (j.last + 1 - j.v)).map fun a => (a, T.phys a, j.vreg + (a - j.v)) := by
        rw [← map_flatMap]
        unfold pieces
        rw [hflat]
    _ = (range j.n).map fun k => (j.v + k, T.phys (j.v + k), j.vreg + k) := by
        rw [hlast, range'_eq_map_range, map_map]
        apply map_congr_left
        intro k _
        rw [Function.comp_apply, Nat.add_sub_cancel_left]

lemma Fits.starts_inside (hfit : Fits T j) (hj : j.Valid T) :
    ∀ x ∈ T.pieces j.v j.last, x.1 < j.last := by
  apply (pieces_inside_iff hj.start hj.stop hj.le_last).mpr ⟨?_, hfit.inside⟩
  have := hfit.long
  unfold Job.last
  omega

lemma Serving.complete (h : Serving T j s L w) (hj : j.Valid T) (hfit : Fits T j)
    (hs : Settled s) : Complete T j s := by
  obtain ⟨hst, hflight⟩ := hs
  have hall := h.all_out hj hst (hfit.starts_inside hj)
  rcases h.phase with ⟨r, hr⟩ | ⟨r, hr, -, -⟩ | ⟨r, hreq, hjob, -, -, -⟩ | ⟨hreq, -, -⟩
  · exact absurd (hr.state.symm.trans hst) (by simp)
  · exact absurd (hr.state.symm.trans hst) (by simp)
  · -- Nothing is in flight, so all bytes are there, and the request is not.
    have hmem : r ∈ s.dma.requests := by rw [hreq]; exact mem_singleton_self r
    have hbal := (h.accounted.books.ledger r hmem).balance
    rw [hflight, hjob.issuedBytes_eq hj h.issued] at hbal
    have hsum : (L.map fun x => uint32 (pieceSize x)).sum = (L.map pieceSize).sum := by
      congr 1
      apply map_congr_left
      intro x hx
      exact mod_eq_of_lt (hfit.sizes x (h.issued.isPiece hx))
    have htotal := pieces_sum hj
    rw [hall] at htotal
    have hwaits := hjob.waits
    have hnone : bytesOf DmaPacket.owner [] r.id = 0 := rfl
    omega
  · have hres : s.dma.dmaResources = 0 := by
      rw [h.accounted.resources, hreq]
      rfl
    refine ⟨?_, hreq, hres, h.accounted.status.trans hres⟩
    rw [h.transfers, ← hall]
    exact bytes_of_pieces hj hfit.sizes

lemma Serving.served (h : Serving T j s L w) (hj : j.Valid T) (hsize : 2 ≤ p.tlb.tlbSize)
    (hfit : Fits T j) : Served T j s := by
  have hgo := h.noFault hj hsize hfit
  refine ⟨hgo, ?_, ?_⟩
  · intro ls t hrun
    obtain ⟨L', w', ht⟩ := h.run hj hsize hrun
    exact ht.settles hj hsize (hgo.after hrun)
  · intro ls t hrun hset
    obtain ⟨L', w', ht⟩ := h.run hj hsize hrun
    exact ht.complete hj hfit hset

/-! ## Only what fits is served -/

lemma Serving.piece_of_packet (h : Serving T j s L w) (hgo : NoFault T s) (hpkt : pkt ∈ s.inFlight)
    (hx : x ∈ L) (hy : y ∈ L) (hax : T.phys x.1 ≤ pkt.addr ∧ pkt.addr ≤ T.phys x.2)
    (hay : T.phys y.1 ≤ pkt.addr ∧ pkt.addr ≤ T.phys y.2) : x = y := by
  obtain ⟨r, hreq, hjob⟩ := h.pending hpkt
  obtain ⟨k, hk⟩ := mem_iff_getElem?.mp hpkt
  obtain ⟨s', hs⟩ := hgo [] s (.nil s) 0 (.response k) trivial
  obtain ⟨hnone, -⟩ | ⟨q, a, hq, -, -, hs⟩ := response_ok hs
  · rw [hk] at hnone
    cases hnone
  · rw [hk, Option.some.injEq] at hq
    subst hq
    obtain ⟨i, -, hfind, -⟩ := handlePacket_ok hs
    have hone := (findRequest_single (s := s.withResponse k pkt a) hreq).mp ⟨i, hfind⟩
    rw [hits_eq hjob] at hone
    exact Lists.eq_of_countP_le_one (le_of_eq hone) hx hy (decide_eq_true hax)
      (decide_eq_true hay)

lemma Serving.distinct (h : Serving T j s L w) (hj : j.Valid T) (hgo : NoFault T s)
    (hall : T.pieces j.v j.last = L) (hsizes : ∀ x ∈ L, pieceSize x < 2 ^ 32)
    (hun : Unanswered T s L) : ∀ i, i < j.n → ∀ k, k < i → T.phys (j.v + k) ≠ T.phys (j.v + i) := by
  intro i hi k hk heq
  have hf := forward hj.start hj.stop
  have hlast := hj.last_succ
  obtain ⟨x, hx, hxlo, hxhi⟩ := exists_cut hf (w := j.v + k) (by omega) (by omega)
  obtain ⟨y, hy, hylo, hyhi⟩ := exists_cut hf (w := j.v + i) (by omega) (by omega)
  obtain ⟨hxr, -, hx12, -, hxend⟩ := piece_spec hj.start hj.stop hx
  obtain ⟨hyr, -, hy12, -, hyend⟩ := piece_spec hj.start hj.stop hy
  have hxk := phys_add hxr hxlo (by omega)
  have hx2 := phys_add hxr hx12 hxend
  have hyi := phys_add hyr hylo (by omega)
  have hy2 := phys_add hyr hy12 hyend
  change x ∈ T.pieces j.v j.last at hx
  change y ∈ T.pieces j.v j.last at hy
  rw [hall] at hx hy
  have hpacket : ∀ z ∈ L, ∃ pkt ∈ s.inFlight, pkt.addr = T.phys z.1 := by
    intro z hz
    apply hun.packets z hz
    obtain ⟨-, -, hz12, -, -⟩ := piece_spec hj.start hj.stop (hall ▸ hz)
    rw [show uint32 (pieceSize z) = pieceSize z from mod_eq_of_lt (hsizes z hz)]
    unfold pieceSize
    omega
  -- The later of the two first packets lies in both pieces.
  have hxy : x = y := by
    rcases le_total (T.phys x.1) (T.phys y.1) with hle | hle
    · obtain ⟨pkt, hpkt, haddr⟩ := hpacket y hy
      apply h.piece_of_packet hgo hpkt hx hy
      · omega
      · omega
    · obtain ⟨pkt, hpkt, haddr⟩ := hpacket x hx
      apply h.piece_of_packet hgo hpkt hx hy
      · omega
      · omega
  subst hxy
  omega

lemma Serving.fits (h : Serving T j s [] j.v) (hj : j.Valid T) (hsize : 2 ≤ p.tlb.tlbSize)
    (hun : Unanswered T s []) (hserved : Served T j s) : Fits T j := by
  obtain ⟨ls, t, hrun, hset⟩ := hserved.settles [] s (.nil s)
  have hcomp := hserved.complete ls t hrun hset
  obtain ⟨L, w, ht⟩ := h.run hj hsize hrun
  have hall : T.pieces j.v j.last = L := by
    have hreq := hcomp.requests
    rcases ht.phase with ⟨r, hr⟩ | ⟨r, hr, -, -⟩ | ⟨r, hr, -, -, -, -⟩ | ⟨-, -, hall⟩
    · exact absurd (hr.requests.symm.trans hreq) (by simp)
    · exact absurd (hr.requests.symm.trans hreq) (by simp)
    · exact absurd (hr.symm.trans hreq) (by simp)
    · exact hall
  have hin : ∀ x ∈ T.pieces j.v j.last, x.1 < j.last ∧ x.2 + 1 < 2 ^ 64 := by
    rw [hall]
    exact ht.issued.inside
  have hstarts : ∀ x ∈ T.pieces j.v j.last, x.1 < j.last := fun x hx => (hin x hx).1
  obtain ⟨hlong, hinside⟩ :=
    (pieces_inside_iff hj.start hj.stop hj.le_last).mp hstarts
  have hlast := hj.last_succ
  have hsizes : ∀ x ∈ L, pieceSize x < 2 ^ 32 := by
    have hlen := congrArg length hcomp.bytes
    rw [ht.transfers, flatMap_map, length_flatMap, length_map,
      length_range] at hlen
    simp only [SubTransfer.bytes, Job.sub, length_map, length_range] at hlen
    exact (ht.issued.full hj (le_of_eq hlen.symm)).2
  obtain ⟨ms, u, L2, w2, hrun2, hu, hidle, hstill⟩ := h.drive hj hsize hserved.noFault
  have hall2 := hu.all_out hj hidle hstarts
  have hun2 := hstill hun
  obtain rfl : L = L2 := hall.symm.trans hall2
  refine ⟨by omega, hinside, ?_, by rw [hall]; exact hsizes, ?_, ?_⟩
  · obtain ⟨x, hx, -, hxhi⟩ := exists_cut (forward hj.start hj.stop)
      (w := j.last) hj.le_last (le_refl _)
    have := (hin x hx).2
    omega
  · have := hun2.events
    rw [hall]
    omega
  · exact hu.distinct hj (hserved.noFault.after hrun2) hall hsizes hun2

/-- A request that comes in alone is served to its last byte exactly if it fits. -/
theorem request_covered_iff (T : Tlb.Table p.tlb mem) (hsize : 2 ≤ p.tlb.tlbSize) (f : Tlb.Front)
    (hf : Tlb.Front.Inv T f) (now : Nat) (e : Event) (j : Job) (hj : j.Valid T) (he : j.Asks e)
    (hfree : ∀ u, j.v ≤ u → u < j.v + j.n → entryOf T u ∉ f.refills) :
    Covered T f (now, e) j ↔ Fits T j := by
  have hstart : ∃ s₀, (init f).step p mem (now, e) = .ok s₀ ∧ Serving T j s₀ [] j.v ∧
      s₀.dma.dmaDoneEventFree = Dma.maxOutstandingDma := by
    rcases he with rfl | rfl
    · exact Serving.start hf hj hsize hfree true _
    · exact Serving.start hf hj hsize hfree false _
  obtain ⟨s₀, hs₀, h, hpool⟩ := hstart
  constructor
  · rintro ⟨t, ht, hserved⟩
    rw [hs₀, Except.ok.injEq] at ht
    subst ht
    exact h.fits hj hsize ⟨hpool, by simp⟩ hserved
  · intro hfit
    exact ⟨s₀, hs₀, h.served hj hsize hfit⟩

theorem request_covered_over_page_end :
    Covered dmaTable defaultOffload.front (1, .initiateRead 0 0x10000FFC 8 1)
      ⟨0, 0x10000FFC, 8, 1⟩ := by
  have hsize : 2 ≤ dmaParams.tlb.tlbSize := by decide
  have hj : Job.Valid dmaTable ⟨0, 0x10000FFC, 8, 1⟩ :=
    ⟨by decide, by decide, by decide +kernel, by decide +kernel, by decide⟩
  have hfit : Fits dmaTable ⟨0, 0x10000FFC, 8, 1⟩ :=
    ⟨by decide, by decide +kernel, by decide, by decide +kernel, by decide +kernel,
      by decide +kernel⟩
  exact (request_covered_iff dmaTable hsize _ defaultOffload.front_inv 1 _ _ hj (.inl rfl)
    fun _ _ _ => List.not_mem_nil).mpr hfit

/-! ## The last byte -/

def Rests (T : Tlb.Table p.tlb mem) (f : Tlb.Front) (l : Nat × Event) (s : DmaSys) : Prop :=
  ∃ s₀ ls, (init f).step p mem l = .ok s₀ ∧ Runs.Steps (ServeStep T) s₀ ls s ∧ Settled s

lemma Covered.complete (h : Covered T f l j) (hs : Rests T f l s) : Complete T j s := by
  obtain ⟨s₀, hs₀, hserved⟩ := h
  obtain ⟨t, ls, ht, hrun, hset⟩ := hs
  rw [hs₀, Except.ok.injEq] at ht
  subst ht
  exact hserved.complete ls s hrun hset

lemma rests_of_exec (hrun : Runs.exec (Runs.succeed (step p mem)) (init f) (l :: ls) = some s)
    (hls : ∀ m ∈ ls, ∀ t, Serves T t m) (hset : Settled s) : Rests T f l s := by
  obtain ⟨s₀, hs₀, hrun⟩ := Option.bind_eq_some_iff.mp hrun
  have hsteps := (Runs.steps_iff_exec _ s₀ s ls).mpr hrun
  refine ⟨s₀, ls, Runs.next_succeed.mp hs₀, ?_, hset⟩
  exact hsteps.of_labels hls fun t m u hm hstep => ⟨hm t, Runs.next_succeed.mp hstep⟩

def atRest (s : DmaSys) : DmaState × List DmaPacket × List SubTransfer × BitVec 8 :=
  (s.dma.currentState, s.inFlight, s.transfers, s.dmaStatus)

lemma rests_of_atRest (ls : List (Nat × Event)) {xs : List SubTransfer} {m : BitVec 8}
    (hrun : (Runs.exec (Runs.succeed (step p mem)) (init f) (l :: ls)).map atRest = some (.idle, [], xs, m))
    (hls : ∀ m ∈ ls, ∀ t, Serves T t m) :
    ∃ s, Rests T f l s ∧ s.transfers = xs ∧ s.dmaStatus = m := by
  obtain ⟨s, hs, hrest⟩ := Option.map_eq_some_iff.mp hrun
  obtain ⟨hst, hflight, hxs, hm⟩ : s.dma.currentState = .idle ∧ s.inFlight = [] ∧
      s.transfers = xs ∧ s.dmaStatus = m := by simpa [atRest] using hrest
  exact ⟨s, rests_of_exec hs hls ⟨hst, hflight⟩, hxs, hm⟩

/-- A byte that begins a page is never sent if it is the last one, and the request stays. -/
theorem last_byte_never_sent :
    (∃ s, Rests dmaTable defaultOffload.front (1, .initiateRead 0 0x10000000 1 1) s ∧
      s.transfers = [] ∧ s.dmaStatus = 1) ∧
    (∃ s, Rests dmaTable defaultOffload.front (1, .initiateRead 0 0x10000FF0 17 1) s ∧
      s.transfers = [⟨0, 0x10000FF0, 0x10000FFF, 0x80005FF0, 16, 0⟩] ∧ s.dmaStatus = 1) ∧
    ¬ Covered dmaTable defaultOffload.front (1, .initiateRead 0 0x10000000 1 1)
      ⟨0, 0x10000000, 1, 1⟩ ∧
    ¬ Covered dmaTable defaultOffload.front (1, .initiateRead 0 0x10000FF0 17 1)
      ⟨0, 0x10000FF0, 17, 1⟩ := by
  have hone : ∃ s, Rests dmaTable defaultOffload.front (1, .initiateRead 0 0x10000000 1 1) s ∧
      s.transfers = [] ∧ s.dmaStatus = 1 :=
    rests_of_atRest [(2, .nextState)] (by decide +kernel) (by simp [Serves])
  have hend : ∃ s, Rests dmaTable defaultOffload.front (1, .initiateRead 0 0x10000FF0 17 1) s ∧
      s.transfers = [⟨0, 0x10000FF0, 0x10000FFF, 0x80005FF0, 16, 0⟩] ∧ s.dmaStatus = 1 :=
    rests_of_atRest [(2, .nextState), (3, .nextState), (4, .response 0)]
      (by decide +kernel) (by simp [Serves])
  refine ⟨hone, hend, ?_, ?_⟩
  · intro hcov
    obtain ⟨s, hs, -, hbit⟩ := hone
    exact absurd (hbit.symm.trans (hcov.complete hs).status) (by decide)
  · intro hcov
    obtain ⟨s, hs, -, hbit⟩ := hend
    exact absurd (hbit.symm.trans (hcov.complete hs).status) (by decide)

end DmaSys

end SmcPim
