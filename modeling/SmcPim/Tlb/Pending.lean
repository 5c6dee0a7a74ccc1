import SmcPim.Tlb.Requests

/-! # The refill requests in flight -/

namespace SmcPim.Tlb

open List Except

variable {p : Tlb.Params} {mem : Memory} {t t' : Tlb} {pkt : Packet} {n v x : Nat} {accept : Bool}
  {f f' : Front} {l : Nat × Access}

/-! ## What every access keeps -/

structure Kept (p : Tlb.Params) (P : Tlb → Prop) : Prop where
  update : ∀ {t}, P t → ∀ now s, P (t.updateTLB p now s)
  stamps : ∀ {t}, P t → ∀ l, P { t with lastUsed := l }
  operand : ∀ {t}, P t → ∀ o, P { t with hmcOperand := o }

section
variable {P : Tlb → Prop} (hP : Kept p P) (h : P t)
include hP h

lemma Kept.refillNow {msg : String} (hs : t.refillNow msg p mem n v = .ok t') : P t' := by
  rw [refillNow_ok hs]
  exact hP.update h _ _

lemma Kept.remap (hs : t.remap n v = .ok (x, t')) : P t' := by
  unfold Tlb.remap at hs
  split at hs
  · obtain ⟨-, rfl⟩ := Prod.mk.inj (ok.inj hs)
    split
    · exact hP.stamps h _
    · exact h
  · split at hs
    · obtain ⟨-, rfl⟩ := Prod.mk.inj (ok.inj hs)
      exact h
    · cases hs

lemma Kept.refillFor (hs : t.refillFor p mem n v = .ok t') : P t' := by
  unfold Tlb.refillFor at hs
  split at hs
  · exact hP.refillNow h hs
  · rw [← ok.inj hs]
    exact h

lemma Kept.checkHmcCommand {pkt' : Packet} (hs : t.checkHmcCommand p pkt = .ok (x, pkt', t')) :
    P t' := by
  unfold Tlb.checkHmcCommand at hs
  split at hs
  · rw [← (Prod.mk.inj (Prod.mk.inj (ok.inj hs)).2).2]
    exact h
  · obtain ⟨r, -, hs⟩ := bind_eq_ok.mp hs
    rcases r with _ | ⟨target, pkt'⟩
    · rw [← (Prod.mk.inj (Prod.mk.inj (ok.inj hs)).2).2]
      exact h
    · dsimp only at hs
      split at hs
      · rw [← (Prod.mk.inj (Prod.mk.inj (ok.inj hs)).2).2]
        exact hP.operand h _
      · rw [← (Prod.mk.inj (Prod.mk.inj (ok.inj hs)).2).2]
        exact h

lemma Kept.recvTimingReq {r : TimingReq} (hs : t.recvTimingReq p mem n pkt accept = .ok r) :
    (r.refill = none ∧ P r.tlb) ∨
      ∃ t1 v, P t1 ∧ t1.refillTLBTiming p v accept = .ok (r.tlb, r.refill) := by
  unfold Tlb.recvTimingReq at hs
  dsimp only at hs
  split at hs
  · obtain ⟨_, -, hs⟩ := bind_eq_ok.mp hs
    obtain ⟨_, -, hs⟩ := bind_eq_ok.mp hs
    split at hs
    · cases hs
    · obtain ⟨t1, ht, hs⟩ := bind_eq_ok.mp hs
      rw [← ok.inj hs]
      exact .inl ⟨rfl, hP.refillFor h ht⟩
  · split at hs
    · rw [← ok.inj hs]
      exact .inl ⟨rfl, h⟩
    · obtain ⟨⟨target, pkt1, t1⟩, hcheck, hs⟩ := bind_eq_ok.mp hs
      obtain ⟨⟨a, t2⟩, hmap, hs⟩ := bind_eq_ok.mp hs
      have h2 := hP.remap (hP.checkHmcCommand h hcheck) hmap
      dsimp only at hs
      split at hs
      · split at hs
        · obtain ⟨t3, href, hs⟩ := bind_eq_ok.mp hs
          obtain ⟨⟨a', t4⟩, hmap', hs⟩ := bind_eq_ok.mp hs
          obtain ⟨_, -, hs⟩ := bind_eq_ok.mp hs
          rw [← ok.inj hs]
          exact .inl ⟨rfl, hP.remap (hP.refillNow h2 href) hmap'⟩
        · obtain ⟨⟨t3, refill⟩, href, hs⟩ := bind_eq_ok.mp hs
          rw [← ok.inj hs]
          exact .inr ⟨t2, _, h2, href⟩
      · rw [← ok.inj hs]
        exact .inl ⟨rfl, h2⟩

lemma Kept.recvAtomic {sent : Option Packet}
    (hs : t.recvAtomic p mem n pkt = .ok (t', sent)) : P t' := by
  unfold Tlb.recvAtomic at hs
  dsimp only at hs
  split at hs
  · obtain ⟨_, -, hs⟩ := bind_eq_ok.mp hs
    obtain ⟨_, -, hs⟩ := bind_eq_ok.mp hs
    obtain ⟨t1, ht, hs⟩ := bind_eq_ok.mp hs
    rw [← (Prod.mk.inj (ok.inj hs)).1]
    exact hP.refillFor h ht
  · obtain ⟨⟨target, pkt1, t1⟩, hcheck, hs⟩ := bind_eq_ok.mp hs
    obtain ⟨⟨a, t2⟩, hmap, hs⟩ := bind_eq_ok.mp hs
    have h2 := hP.remap (hP.checkHmcCommand h hcheck) hmap
    dsimp only at hs
    split at hs
    · obtain ⟨t3, href, hs⟩ := bind_eq_ok.mp hs
      obtain ⟨⟨a', t4⟩, hmap', hs⟩ := bind_eq_ok.mp hs
      dsimp only at hs
      split at hs
      · cases hs
      · rw [← (Prod.mk.inj (ok.inj hs)).1]
        exact hP.remap (hP.refillNow h2 href) hmap'
    · rw [← (Prod.mk.inj (ok.inj hs)).1]
      exact h2

end

/-! ## The list of pending refills -/

lemma kept_pending (l : List Nat) : Kept p fun t => t.pendingRefills = l where
  update := fun h _ _ => updateTLB_pending.trans h
  stamps := fun h _ => h
  operand := fun h _ => h

lemma refillTLBTiming_pending {a : Option Nat} (hs : t.refillTLBTiming p v accept = .ok (t', a)) :
    t'.pendingRefills = t.pendingRefills ++ a.toList ∧ ∀ e ∈ a, e ∉ t.pendingRefills := by
  unfold refillTLBTiming at hs
  obtain ⟨_, -, hs⟩ := bind_eq_ok.mp hs
  dsimp only at hs
  split at hs
  · obtain ⟨rfl, rfl⟩ := Prod.mk.inj (ok.inj hs)
    simp
  · rename_i hnot
    split at hs
    · obtain ⟨rfl, rfl⟩ := Prod.mk.inj (ok.inj hs)
      simpa using hnot
    · -- The address that was pushed for the send is popped again.
      obtain ⟨rfl, rfl⟩ := Prod.mk.inj (ok.inj hs)
      simp

structure Front.Pending (f : Front) : Prop where
  exact : f.tlb.pendingRefills = f.refills
  nodup : f.refills.Nodup

lemma Front.Pending.refillResp (h : f.Pending) (mem : Memory) (now : Nat) {i a : Nat}
    (hi : f.refills[i]? = some a) :
    ∃ f', f.step p mem (now, .refillResp i) = .ok f' ∧ f'.refills = f.refills.eraseIdx i ∧
      f'.tlb.pendingRefills = f.refills.eraseIdx i := by
  obtain ⟨hlt, hget⟩ := List.getElem?_eq_some_iff.mp hi
  have hmem : a ∈ f.tlb.pendingRefills := h.exact ▸ mem_of_getElem? hi
  have herase : f.tlb.pendingRefills.erase a = f.refills.eraseIdx i := by
    rw [h.exact, ← hget, h.nodup.erase_getElem i hlt]
  have hstep : f.step p mem (now, .refillResp i) = .ok { f with
      tlb := { f.tlb with pendingRefills := f.tlb.pendingRefills.erase a }.updateTLB p now
        (readSlice p.pimArch mem a)
      refills := f.refills.eraseIdx i } := by
    unfold Front.step
    simp only [hi]
    rw [recvRefillResp, if_pos hmem]
    rfl
  exact ⟨_, hstep, rfl, updateTLB_pending.trans herase⟩

lemma Front.Pending.step (h : f.Pending) (hs : f.step p mem l = .ok f') : f'.Pending := by
  obtain ⟨now, a⟩ := l
  rcases a with ⟨pkt, accept⟩ | pkt | v | i
  · obtain ⟨r, hr, hs⟩ := bind_eq_ok.mp hs
    rw [← ok.inj hs]
    rcases (kept_pending _).recvTimingReq h.exact hr with ⟨hnone, hsame⟩ | ⟨t1, v, hsame, href⟩
    · rw [hnone, Option.toList_none, append_nil]
      exact ⟨hsame, h.nodup⟩
    · obtain ⟨hadd, hnew⟩ := refillTLBTiming_pending href
      rw [hsame] at hadd hnew
      refine ⟨hadd, nodup_append.mpr ⟨h.nodup, Option.toList_nodup _, ?_⟩⟩
      rintro e he e' he' rfl
      exact hnew e (Option.mem_toList.mp he') he
  · obtain ⟨⟨t', sent⟩, ht, hs⟩ := bind_eq_ok.mp hs
    rw [← ok.inj hs]
    exact ⟨(kept_pending _).recvAtomic h.exact ht, h.nodup⟩
  · unfold Front.step at hs
    dsimp only at hs
    split at hs
    · obtain ⟨t', ht, hs⟩ := bind_eq_ok.mp hs
      rw [← ok.inj hs]
      exact ⟨(kept_pending _).refillNow h.exact ht, h.nodup⟩
    · rw [← ok.inj hs]
      exact h
  · rcases hi : f.refills[i]? with _ | a
    · unfold Front.step at hs
      simp only [hi, ok.injEq] at hs
      exact hs ▸ h
    · obtain ⟨f1, heq, href, hpend⟩ := h.refillResp (p := p) mem now hi
      rw [heq, ok.injEq] at hs
      subst hs
      exact ⟨hpend.trans href.symm, href ▸ h.nodup.eraseIdx i⟩

/-- An access that does not stop the simulator, whatever the memory holds at that time. -/
def Front.AnyStep (p : Tlb.Params) (f : Front) (l : Nat × Access) (f' : Front) : Prop :=
  ∃ mem, f.step p mem l = .ok f'

/-- `pending_refills` is the list of the refills in flight, and each response finds its entry. -/
theorem pending_refills_exact (p : Tlb.Params) (t : Tlb) (ht : t.pendingRefills = [])
    (ls : List (Nat × Access)) (f : Front) (hrun : Runs.Steps (Front.AnyStep p) ⟨t, [], []⟩ ls f) :
    f.tlb.pendingRefills = f.refills ∧ f.refills.Nodup ∧
      (∀ mem now i a, f.refills[i]? = some a → ∃ f', f.step p mem (now, .refillResp i) = .ok f' ∧
        f'.refills = f.refills.eraseIdx i ∧ f'.tlb.pendingRefills = f.refills.eraseIdx i) ∧
      ∀ v accept, f.tlb.pimSlicevstart ≤ v → f.tlb.entryAddr p v ∈ f.refills →
        f.tlb.refillTLBTiming p v accept = .ok (f.tlb, none) := by
  have h : f.Pending := hrun.inv Front.Pending (fun _ _ _ hf ⟨_, hstep⟩ => hf.step hstep)
    ⟨ht, nodup_nil⟩
  refine ⟨h.exact, h.nodup, fun mem now i a hi => h.refillResp mem now hi, ?_⟩
  intro v accept hv hin
  unfold refillTLBTiming
  rw [assert_ok hv, ok_bind]
  exact if_pos (h.exact ▸ hin)

def timingDtlb : Tlb.Params := { Tlb.Params.dtlb with idealRefill := false }

/-- Misses of three pages, of which the second is refused at first. -/
theorem pending_refills_exact_three :
    ∃ f, Runs.Steps (Front.AnyStep timingDtlb)
        ⟨{ timingDtlb.create with pimSlicetablePtr := 0x90000000, pimSlicevstart := 0x10000000 }, [], []⟩
        [(1, .request { spmRead with addr := 0x10000000 } true),
          (2, .request { spmRead with addr := 0x10001000 } false),
          (3, .request { spmRead with addr := 0x10001000 } true),
          (4, .request { spmRead with addr := 0x10002000 } true), (5, .refillResp 1)] f ∧
      f.tlb.pendingRefills = [0x90000000, 0x90000018] ∧ f.tlb.pendingRefills = f.refills := by
  have hrun : (Runs.exec (Runs.succeed (Front.step timingDtlb fun _ => 0))
      ⟨{ timingDtlb.create with pimSlicetablePtr := 0x90000000, pimSlicevstart := 0x10000000 }, [], []⟩
      [(1, .request { spmRead with addr := 0x10000000 } true),
        (2, .request { spmRead with addr := 0x10001000 } false),
        (3, .request { spmRead with addr := 0x10001000 } true),
        (4, .request { spmRead with addr := 0x10002000 } true), (5, .refillResp 1)]).map
          (·.tlb.pendingRefills) = some [0x90000000, 0x90000018] := by decide +kernel
  obtain ⟨f, hf, hpend⟩ := Option.map_eq_some_iff.mp hrun
  have hsteps : Runs.Steps (Front.AnyStep timingDtlb) _ _ f :=
    ((Runs.steps_iff_exec _ _ _ _).mpr hf).mono fun _ _ _ hnext => ⟨_, Runs.next_succeed.mp hnext⟩
  exact ⟨f, hsteps, hpend, (pending_refills_exact timingDtlb _ rfl _ f hsteps).1⟩

end SmcPim.Tlb
