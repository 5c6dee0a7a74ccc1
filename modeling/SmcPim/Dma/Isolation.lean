import SmcPim.Dma.Sharing
import SmcPim.Tlb.Pieces

/-! # The PIM stays inside the pinned pages -/

namespace SmcPim

open List Except Tlb.Table

namespace Tlb

variable {p : Tlb.Params} {mem : Memory} {T : Table p mem} {f : Front} {n : Nat}

lemma Front.step_forwarded {f' : Front} {a : Access} (ha : a.InRegion T)
    (hold : ∀ x ∈ f.forwarded, T.region x.1) (hs : f.step p mem (n, a) = .ok f') :
    ∀ x ∈ f'.forwarded, T.region x.1 := by
  have hnew : ∀ {u : Nat} {l : List Packet}, T.region u →
      ∀ x ∈ (l.map fun q => (u, q.addr)) ++ f.forwarded, T.region x.1 := by
    intro u l hu x hx
    rcases mem_append.mp hx with hx | hx
    · obtain ⟨q, -, rfl⟩ := mem_map.mp hx
      exact hu
    · exact hold x hx
  unfold Front.step at hs
  rcases a with ⟨pkt, accept⟩ | pkt | v | i
  · obtain ⟨r, -, hs⟩ := bind_eq_ok.mp hs
    rw [← ok.inj hs]
    exact hnew ha.1
  · obtain ⟨⟨t', sent⟩, -, hs⟩ := bind_eq_ok.mp hs
    rw [← ok.inj hs]
    exact hnew ha
  · dsimp only at hs
    split at hs
    · obtain ⟨t', -, hs⟩ := bind_eq_ok.mp hs
      rw [← ok.inj hs]
      exact hold
    · rw [← ok.inj hs]
      exact hold
  · dsimp only at hs
    split at hs
    · rw [← ok.inj hs]
      exact hold
    · obtain ⟨t', -, hs⟩ := bind_eq_ok.mp hs
      rw [← ok.inj hs]
      exact hold

end Tlb

/-! ## The engine inside the region -/

namespace DmaSys

variable {p : DmaParams} {mem mem' : Memory} {T : Tlb.Table p.tlb mem} {now : Nat} {s s' : DmaSys}

def Inside (T : Tlb.Table p.tlb mem) (r : DMARequest) : Prop :=
  T.region r.memVstart ∧ T.region r.memVend ∧ r.memVstart ≤ r.memVend

def Carries (T : Tlb.Table p.tlb mem) (pkt : DmaPacket) : Prop :=
  ∀ j < pkt.size, ∃ v, T.region v ∧ T.phys v = pkt.addr + j

structure Isolated (T : Tlb.Table p.tlb mem) (s : DmaSys) : Prop where
  front : Tlb.Front.Inv T s.front
  requests : ∀ r ∈ s.dma.requests, Inside T r
  packets : ∀ pkt ∈ s.inFlight, Carries T pkt
  forwarded : ∀ x ∈ s.front.forwarded, T.region x.1

section
variable (h : Isolated T s)
include h

lemma Isolated.setRequest {r : DMARequest} (hr : Inside T r) (i : Nat) :
    Isolated T (s.setRequest i r) := by
  refine { h with requests := ?_ }
  intro q hq
  rcases mem_or_eq_of_mem_set hq with hq | rfl
  · exact h.requests q hq
  · exact hr

lemma Isolated.stateTlbRefill (hsize : 2 ≤ p.tlb.tlbSize)
    (hs : s.stateTlbRefill p mem now = .ok s') : Isolated T s' := by
  obtain ⟨i, r, -, hr, hcase⟩ := stateTlbRefill_ok hs
  have hin := h.requests r (mem_of_getElem? hr)
  have hset : Isolated T (s.setRequest i { r with issued := true }) :=
    h.setRequest (r := { r with issued := true }) hin i
  rcases hcase with ⟨-, rfl⟩ | ⟨-, t, rfl, hlook⟩
  · exact { hset with }
  · refine ⟨?_, hset.requests, hset.packets, h.forwarded⟩
    rcases hlook with ⟨-, rfl⟩ | ⟨hmiss, ht⟩
    · exact h.front
    · -- A refill of the engine is the access `functional` of the front.
      have hstep : s.front.step p.tlb mem (now, .functional r.memVstart) =
          .ok { s.front with tlb := t } := by
        unfold Tlb.Front.step
        dsimp only
        rw [if_pos hmiss, ht]
        rfl
      exact (h.front.functional hsize hin.1 hstep).1

lemma Isolated.actionPackets {r : DMARequest} {e : Nat} (hin : Inside T r)
    (he : s.front.tlb.sliceVend r.memVstart = .ok e) {action owner : Nat} {pkt : DmaPacket}
    (hpkt : pkt ∈ actionPackets p (s.front.tlb.remapCheck r.memVstart)
      (addr64 (sub64 (s.front.tlb.remapCheck (min e r.memVend))
        (s.front.tlb.remapCheck r.memVstart) + 1)) r.vregPtr action owner) : Carries T pkt := by
  obtain ⟨hv, hve, hle⟩ := hin
  have hres : s.front.tlb.Resident r.memVstart := by
    by_contra hno
    unfold Tlb.sliceVend at he
    rw [(Tlb.findRule_none h.front.tlb.remapped).mpr hno] at he
    cases he
  rw [h.front.tlb.sliceVend_eq hv hres, ok.injEq] at he
  have hlo : r.memVstart ≤ min e r.memVend := by
    have := le_sliceEnd hv
    unfold sliceEnd at this
    omega
  have hhi : min e r.memVend ≤ T.sliceEnd r.memVstart := by
    unfold sliceEnd
    omega
  have hend := region_of_le hv hlo hhi
  have hphys := phys_add hv hlo hhi
  have hlt := T.phys_lt _ hend.1 hend.2
  unfold noAddr at hlt
  rw [h.front.tlb.remapCheck_of_resident hv hres,
    h.front.tlb.remapCheck_of_resident hend (h.front.tlb.resident_slice hv hres hlo hhi),
    sub64_of_le (by omega) (by omega), addr64_of_lt (by omega)] at hpkt
  have hu : uint32 (T.phys (min e r.memVend) - T.phys r.memVstart + 1) ≤
      T.phys (min e r.memVend) - T.phys r.memVstart + 1 := Nat.mod_le _ _
  obtain ⟨hfrom, hto, -⟩ := actionPackets_mem (by omega) hpkt
  intro j hj
  refine ⟨r.memVstart + (pkt.addr + j - T.phys r.memVstart),
    region_of_le hv (by omega) (by omega), ?_⟩
  rw [phys_add hv (by omega) (by omega)]
  omega

lemma Isolated.stateTransfer (hs : s.stateTransfer p = .ok s') : Isolated T s' := by
  obtain ⟨i, r, e, r', more, -, hr, he, -, -, hnext, rfl⟩ := stateTransfer_ok hs
  have hin := h.requests r (mem_of_getElem? hr)
  have hin' : Inside T r' := by
    obtain ⟨hle, ⟨-, -, rfl⟩ | ⟨hlt, -, rfl⟩⟩ := DMARequest.nextSubRequest_ok hnext
    · exact hin
    · obtain ⟨hv, hve, -⟩ := hin
      exact ⟨⟨Nat.le_trans hv.1 hle, Nat.lt_trans hlt hve.2⟩, hve, Nat.le_of_lt hlt⟩
  refine ⟨h.front, (h.setRequest hin' i).requests, ?_, h.forwarded⟩
  intro pkt hpkt
  rcases mem_append.mp hpkt with hpkt | hpkt
  · exact h.packets pkt hpkt
  · exact h.actionPackets hin he hpkt

lemma Isolated.nextState (hsize : 2 ≤ p.tlb.tlbSize)
    (hs : s.nextState p mem now = .ok s') : Isolated T s' := by
  obtain ⟨-, rfl⟩ | ⟨-, ⟨-, rfl⟩ | ⟨-, hs⟩ | ⟨-, hs⟩⟩ := nextState_ok hs
  · exact { h with }
  · unfold DmaSys.stateIdle
    split
    · exact { h with }
    · exact { h with }
  · exact h.stateTlbRefill hsize hs
  · exact h.stateTransfer hs

lemma Isolated.withRequest {v n : Nat}
    (hin : 1 ≤ n ∧ T.region v ∧ T.region (v + n - 1)) (vreg : Nat) (dir : Bool) (res : BitVec 8) :
    Isolated T (s.withRequest (.new s.nextId vreg v n dir res)) := by
  obtain ⟨hn, hv, hve⟩ := hin
  obtain ⟨hstart, hend⟩ := memVend_new hn hv hve s.nextId vreg dir res
  refine { h with requests := ?_ }
  intro q hq
  rcases mem_cons.mp hq with rfl | hq
  · unfold Inside
    rw [hstart, hend]
    exact ⟨hv, hve, by omega⟩
  · exact h.requests q hq

lemma Isolated.response {k : Nat}
    (hs : s.step p mem (now, .response k) = .ok s') : Isolated T s' := by
  obtain ⟨-, rfl⟩ | ⟨pkt, a, hk, -, -, hs⟩ := response_ok hs
  · exact h
  · have hpkts : ∀ q ∈ s.inFlight.eraseIdx k, Carries T q :=
      fun q hq => h.packets q (mem_of_mem_eraseIdx hq)
    obtain ⟨i, r, -, hr, -, ⟨-, rfl⟩ | ⟨-, rfl⟩⟩ := handlePacket_ok hs
    · exact ⟨h.front, fun q hq => h.requests q (mem_of_mem_eraseIdx hq), hpkts,
        h.forwarded⟩
    · have hset := h.setRequest
        (r := { r with bytesCompleted := addr64 (r.bytesCompleted + pkt.size) })
        (h.requests r (mem_of_getElem? hr)) i
      exact ⟨h.front, hset.requests, hpkts, h.forwarded⟩

lemma Isolated.initiate (hsize : 2 ≤ p.tlb.tlbSize) {dir : Bool} {busy : String} {vreg v n : Nat}
    {res : BitVec 8} (hin : 1 ≤ n ∧ T.region v ∧ T.region (v + n - 1))
    (hs : s.initiate dir busy p mem now vreg v n res = .ok s') : Isolated T s' := by
  have hnew := h.withRequest hin vreg dir res
  obtain ⟨-, -, ⟨-, rfl⟩ | ⟨-, hs⟩⟩ := initiate_ok hs
  · exact hnew
  · exact hnew.nextState hsize hs

lemma Isolated.step (hsize : 2 ≤ p.tlb.tlbSize) {l : Nat × Event}
    (hstep : RegionStep T s l s') : Isolated T s' := by
  obtain ⟨now, e⟩ := l
  obtain ⟨hin, hs⟩ := hstep
  rcases e with ⟨vreg, v, n, res⟩ | ⟨vreg, v, n, res⟩ | _ | k | _ | a
  · exact h.initiate hsize hin hs
  · exact h.initiate hsize hin hs
  · obtain ⟨-, rfl⟩ | ⟨-, hs⟩ := nextState_step_ok hs
    · exact h
    · exact h.nextState hsize hs
  · exact h.response hs
  · obtain ⟨-, rfl⟩ | ⟨-, rfl⟩ := done_ok hs
    · exact h
    · exact { h with }
  · obtain ⟨f, hf, rfl⟩ := cpu_ok hs
    exact ⟨(Tlb.Front.step_effect hsize h.front hin hf).inv, h.requests, h.packets,
      Tlb.Front.step_forwarded hin h.forwarded hf⟩

end

lemma isolated_run {f : Tlb.Front} {ls : List (Nat × Event)} (hsize : 2 ≤ p.tlb.tlbSize)
    (hf : Tlb.Front.Inv T f) (hnone : f.forwarded = [])
    (hrun : Runs.Steps (RegionStep T) (init f) ls s) : Isolated T s :=
  hrun.inv (Isolated T) (fun _ _ _ h hstep => h.step hsize hstep) 
    ⟨hf, by simp [init], by simp [init], by simp [init, hnone]⟩

/-! ## What the engine reads -/

section
variable (h : Isolated T s) (hsame : Tlb.SameEntries p.tlb T.ptr T.pages mem mem')
include h hsame

lemma Isolated.stateTlbRefill_same : s.stateTlbRefill p mem' now = s.stateTlbRefill p mem now := by
  unfold DmaSys.stateTlbRefill
  rcases hc : s.curr (.assertion "curr") with e | ⟨i, r⟩
  · rfl
  · have hr := (curr_ok hc).2
    have hv := (h.requests r (mem_of_getElem? hr)).1
    rw [ok_bind, ok_bind]
    dsimp only
    change (if _ then (if _ then (s.front.tlb.refillTLBFunctional p.tlb mem' now r.memVstart >>= _)
      else _) else _) = (if _ then (if _ then
        (s.front.tlb.refillTLBFunctional p.tlb mem now r.memVstart >>= _) else _) else _)
    rw [Tlb.refillTLBFunctional, h.front.tlb.refillNow_same hsame hv]

lemma Isolated.nextState_same (now : Nat) : s.nextState p mem' now = s.nextState p mem now := by
  unfold DmaSys.nextState
  rw [h.stateTlbRefill_same hsame]

lemma Isolated.initiate_same {dir : Bool} {busy : String}
    {vreg v n : Nat} {res : BitVec 8} (hin : 1 ≤ n ∧ T.region v ∧ T.region (v + n - 1)) :
    s.initiate dir busy p mem' now vreg v n res = s.initiate dir busy p mem now vreg v n res := by
  have hnew := (h.withRequest hin vreg dir res).nextState_same hsame now
  unfold DmaSys.withRequest at hnew
  unfold DmaSys.initiate updateStatusRegister
  simp only [DMARequest.new] at hnew ⊢
  simp only [hnew]

lemma Isolated.step_same {l : Nat × Event} (hin : InRegion T l.2) :
    s.step p mem' l = s.step p mem l := by
  obtain ⟨now, e⟩ := l
  unfold DmaSys.step
  rcases e with ⟨vreg, v, n, res⟩ | ⟨vreg, v, n, res⟩ | _ | k | _ | a
  · exact h.initiate_same hsame hin
  · exact h.initiate_same hsame hin
  · dsimp only
    rw [h.nextState_same hsame]
  · rfl
  · rfl
  · dsimp only
    rw [h.front.step_same hsame hin]

end

end DmaSys

/-! ## The pinned pages -/

namespace Offload

variable {b : Driver.Build} {p : Tlb.Params} (o : Offload b p)

/-- What the driver writes to `PIM_SLICECOUNT`. -/
def pimSlicecount : Nat := b.arch.ulong o.physicalAddr.length

def IsPinned (a : Nat) : Prop := ∃ x ∈ o.physicalAddr, x ≤ a ∧ a < x + b.pageSize

instance (a : Nat) : Decidable (o.IsPinned a) := inferInstanceAs (Decidable (∃ x ∈ _, _))

lemma pimSlicecount_eq : o.pimSlicecount = o.physicalAddr.length := by
  have hle := Nat.le_mul_of_pos_right o.physicalAddr.length b.pageSize_pos
  have hv := o.vaddrStart_pos
  have hend := o.vend
  exact Arch.ulong_of_lt (by omega)

lemma isPinned_of_region {v : Nat} (hv : o.table.region v) : o.IsPinned (o.table.phys v) := by
  have hk : o.table.page v < o.physicalAddr.length := Tlb.Table.page_lt hv
  have hpage : o.table.page v = (v - o.vaddrStart) / b.pageSize := by
    unfold Tlb.Table.page Driver.Build.pageSize
    rw [o.shift]
    rfl
  rw [hpage] at hk
  refine ⟨o.physicalAddr[(v - o.vaddrStart) / b.pageSize], getElem_mem hk, ?_⟩
  have hphys : o.table.phys v =
      o.physicalAddr[(v - o.vaddrStart) / b.pageSize] + v % b.pageSize := by
    change o.pinned v = _
    unfold pinned
    rw [getD_eq_getElem _ _ hk]
  have := Nat.mod_lt v b.pageSize_pos
  omega

end Offload

namespace DmaSys

variable {b : Driver.Build} {p : DmaParams}

/-- Refills read the entries below `PIM_SLICECOUNT` only, and every byte sent lies in a pinned page.
-/
theorem stays_in_pinned_pages (o : Offload b p.tlb) (ls : List (Nat × Event)) (s : DmaSys)
    (hrun : Runs.Steps (RegionStep o.table) (init o.front) ls s) :
    (∀ a ∈ s.front.refills, ∃ k < o.pimSlicecount, a = o.slicetablePaddr + k * p.tlb.length) ∧
    (∀ mem', Tlb.SameEntries p.tlb o.slicetablePaddr o.pimSlicecount o.published.mem mem' →
      ∀ l, InRegion o.table l.2 → s.step p mem' l = s.step p o.published.mem l) ∧
    (∀ x ∈ s.front.forwarded, o.IsPinned x.2) ∧
    ∀ pkt ∈ s.inFlight, ∀ j < pkt.size, o.IsPinned (pkt.addr + j) := by
  have h := isolated_run o.size o.front_inv rfl hrun
  rw [o.pimSlicecount_eq]
  refine ⟨h.front.entries, ?_, ?_, ?_⟩
  · intro mem' hsame l hin
    exact h.step_same hsame hin
  · intro x hx
    rw [h.front.forwarded x hx]
    exact o.isPinned_of_region (h.forwarded x hx)
  · intro pkt hpkt j hj
    obtain ⟨v, hv, hphys⟩ := h.packets pkt hpkt j hj
    rw [← hphys]
    exact o.isPinned_of_region hv

def pageRun (v n : Nat) : List (Nat × Event) :=
  [(1, .cpu (readAt v)), (2, .initiateRead 0 v n 1), (3, .nextState), (4, .nextState)]

def sentOut (s : DmaSys) : List (Nat × Nat) × List (Nat × Nat) :=
  (s.front.forwarded, s.inFlight.map fun pkt => (pkt.addr, pkt.size))

theorem stays_in_pinned_pages_end :
    ∃ s, Runs.Steps (RegionStep dmaTable) (init defaultOffload.front) (pageRun 0x10002FF0 16) s ∧
      s.sentOut = ([(0x10002FF0, 0x80002FF0)], [(0x80002FF0, 16)]) ∧
      defaultOffload.IsPinned 0x80002FF0 ∧
      ∀ pkt ∈ s.inFlight, ∀ j < pkt.size, defaultOffload.IsPinned (pkt.addr + j) := by
  have hrun : (Runs.exec (Runs.succeed (step dmaParams defaultOffload.published.mem))
      (init defaultOffload.front) (pageRun 0x10002FF0 16)).map sentOut =
      some ([(0x10002FF0, 0x80002FF0)], [(0x80002FF0, 16)]) := by decide +kernel
  obtain ⟨s, hs, hsent⟩ := Option.map_eq_some_iff.mp hrun
  have hsteps : Runs.Steps (RegionStep dmaTable) (init defaultOffload.front)
      (pageRun 0x10002FF0 16) s := by
    apply ((Runs.steps_iff_exec _ _ _ _).mpr hs).of_labels (P := fun l => InRegion dmaTable l.2)
    · decide +kernel
    · exact fun _ _ _ hin hnext => ⟨hin, Runs.next_succeed.mp hnext⟩
  obtain ⟨-, -, hcpu, hdma⟩ :=
    stays_in_pinned_pages (p := dmaParams) defaultOffload _ s hsteps
  refine ⟨s, hsteps, hsent, hcpu (0x10002FF0, 0x80002FF0) ?_, hdma⟩
  rw [(Prod.mk.inj hsent).1]
  exact List.mem_singleton_self _

/-- The page after a table of one page: what follows the table in memory decides where it goes. -/
theorem leaves_pinned_pages :
    ∃ s, Runs.Steps (fun s l s' => s.step strayParams strayOffload.published.mem l = .ok s')
        (init strayOffload.front) (pageRun 0x10001000 8) s ∧
      strayOffload.published.pimSlicevstart ≤ 0x10001000 ∧
      strayOffload.pimSlicecount ≤
        sub64 0x10001000 strayOffload.published.pimSlicevstart >>> strayParams.tlb.osPageShift ∧
      s.sentOut = ([(0x10001000, 0x90001000)], [(0x90001000, 8)]) ∧
      ¬ strayOffload.IsPinned 0x90001000 := by
  have hrun : (Runs.exec (Runs.succeed (step strayParams strayOffload.published.mem))
      (init strayOffload.front) (pageRun 0x10001000 8)).map sentOut =
      some ([(0x10001000, 0x90001000)], [(0x90001000, 8)]) := by decide +kernel
  obtain ⟨s, hs, hsent⟩ := Option.map_eq_some_iff.mp hrun
  refine ⟨s, ?_, by decide +kernel, by decide +kernel, hsent, by decide +kernel⟩
  exact ((Runs.steps_iff_exec _ _ _ _).mpr hs).mono fun _ _ _ hnext => Runs.next_succeed.mp hnext

end DmaSys

end SmcPim
