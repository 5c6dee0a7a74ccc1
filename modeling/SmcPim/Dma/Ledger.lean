import SmcPim.Dma.Steps
import SmcPim.Lib.Masks

/-! # The bytes of a request -/

namespace SmcPim

open List Nat DmaPacket DMARequest

lemma chunks_zero (line fuel addr : Nat) : chunks line fuel addr 0 = [] := by
  rcases fuel with _ | fuel
  · rfl
  · simp [chunks]

lemma chunks_spec (line : Nat) :
    ∀ fuel addr size, size ≤ fuel → addr + size ≤ 2 ^ 64 →
      ((chunks line fuel addr size).map Prod.snd).sum = size ∧
        ∀ c ∈ chunks line fuel addr size, addr ≤ c.1 ∧ c.1 + c.2 ≤ addr + size ∧ 0 < c.2 := by
  intro fuel
  induction fuel with
  | zero =>
    intro addr size hsize _
    exact ⟨by simp [chunks]; omega, by simp [chunks]⟩
  | succ fuel ih =>
    intro addr size hsize hend
    unfold chunks
    split
    · rename_i hz
      exact ⟨by simp [hz], by simp⟩
    · rename_i hpos
      dsimp only
      obtain ⟨cur, hcur, hle, hgt⟩ : ∃ cur, (if line = 0 then size else
          min size (line - addr % line)) = cur ∧ cur ≤ size ∧ 0 < cur := by
        refine ⟨_, rfl, ?_⟩
        split
        · omega
        · have := mod_lt addr (pos_of_ne_zero ‹line ≠ 0›)
          omega
      rw [hcur]
      rcases lt_or_ge (addr + cur) (2 ^ 64) with hlt | hge
      · rw [addr64_of_lt hlt]
        obtain ⟨hsum, hall⟩ := ih (addr + cur) (size - cur) (by omega) (by omega)
        refine ⟨by simp only [map_cons, sum_cons, hsum]; omega, ?_⟩
        intro c hc
        rcases mem_cons.mp hc with rfl | hc
        · exact ⟨le_refl _, by dsimp only; omega, hgt⟩
        · obtain ⟨h1, h2, h3⟩ := hall c hc
          exact ⟨by omega, by omega, h3⟩
      · -- The last chunk ends at the top of the address space.
        rw [show size - cur = 0 by omega, chunks_zero]
        refine ⟨by simp; omega, ?_⟩
        intro c hc
        rw [mem_singleton] at hc
        subst hc
        exact ⟨le_refl _, by dsimp only; omega, hgt⟩

namespace DmaSys

/-! ## Bytes in flight -/

def bytesOf (key : DmaPacket → Nat) (pkts : List DmaPacket) (k : Nat) : Nat :=
  (pkts.map fun q => if key q = k then q.size else 0).sum

section Bytes

variable {key : DmaPacket → Nat} {pkts : List DmaPacket} {k : Nat}

lemma bytesOf_append (xs ys : List DmaPacket) :
    bytesOf key (xs ++ ys) k = bytesOf key xs k + bytesOf key ys k := by
  unfold bytesOf
  rw [map_append, sum_append_nat]

variable {pkt : DmaPacket}

lemma bytesOf_eraseIdx {i : Nat} (h : pkts[i]? = some pkt) (key : DmaPacket → Nat) (k : Nat) :
    bytesOf key pkts k = (if key pkt = k then pkt.size else 0) + bytesOf key (pkts.eraseIdx i) k := by
  unfold bytesOf
  rw [← ((Lists.perm_eraseIdx h).map _).sum_eq, map_cons, sum_cons]

lemma bytesOf_pos (h : pkt ∈ pkts) (hpos : 0 < pkt.size) (key : DmaPacket → Nat) :
    0 < bytesOf key pkts (key pkt) := by
  have hmem : pkt.size ∈ pkts.map fun q => if key q = key pkt then q.size else 0 :=
    mem_map.mpr ⟨pkt, h, if_pos rfl⟩
  exact lt_of_lt_of_le hpos (le_sum_of_mem hmem)

lemma bytesOf_eq_zero (h : ∀ q ∈ pkts, key q ≠ k) : bytesOf key pkts k = 0 := by
  unfold bytesOf
  apply sum_eq_zero
  intro x hx
  obtain ⟨q, hq, rfl⟩ := mem_map.mp hx
  exact if_neg (h q hq)

lemma bytesOf_all (h : ∀ q ∈ pkts, key q = k) : bytesOf key pkts k =
    (pkts.map DmaPacket.size).sum := by
  unfold bytesOf
  congr 1
  apply map_congr_left
  intro q hq
  exact if_pos (h q hq)

end Bytes

section Packets

variable {p : DmaParams} {pstart size vregPtr action owner : Nat}

lemma actionPackets_keys {pkt : DmaPacket}
    (hpkt : pkt ∈ actionPackets p pstart size vregPtr action owner) :
    pkt.owner = owner ∧ pkt.action = action := by
  unfold actionPackets at hpkt
  obtain ⟨c, -, rfl⟩ := mem_map.mp hpkt
  exact ⟨rfl, rfl⟩

section
variable (h : pstart + uint32 size ≤ 2 ^ 64)
include h

lemma actionPackets_mem {pkt : DmaPacket}
    (hpkt : pkt ∈ actionPackets p pstart size vregPtr action owner) :
    pstart ≤ pkt.addr ∧ pkt.addr + pkt.size ≤ pstart + uint32 size ∧ 0 < pkt.size := by
  unfold actionPackets at hpkt
  obtain ⟨c, hc, rfl⟩ := mem_map.mp hpkt
  exact (chunks_spec p.cacheLineSize _ _ _ (le_refl _) h).2 c hc

lemma actionPackets_size :
    ((actionPackets p pstart size vregPtr action owner).map DmaPacket.size).sum = uint32 size := by
  unfold actionPackets
  rw [map_map]
  exact (chunks_spec p.cacheLineSize _ _ _ (le_refl _) h).1

lemma ownBytes_actionPackets (id : Nat) :
    bytesOf DmaPacket.owner (actionPackets p pstart size vregPtr action owner) id =
      if owner = id then uint32 size else 0 := by
  split
  · rename_i hid
    rw [bytesOf_all fun q hq => (actionPackets_keys hq).1.trans hid, actionPackets_size h]
  · rename_i hid
    exact bytesOf_eq_zero fun q hq heq => hid ((actionPackets_keys hq).1.symm.trans heq)

end

end Packets

/-! ## One request -/

def issuedBytes (r : DMARequest) : Nat :=
  (r.memP.map fun x => uint32 (addr64 (sub64 x.2 x.1 + 1))).sum

def leftBytes (r : DMARequest) : Nat :=
  if r.ended then 0 else sub64 r.memVend r.memVstart + 1

structure Ledger (pkts : List DmaPacket) (r : DMARequest) : Prop where
  vstart_lt : r.memVstart < 2 ^ 64
  vend_lt : r.memVend < 2 ^ 64
  expected_lt : r.bytesExpected < 2 ^ 64
  completed_le : r.bytesCompleted ≤ r.bytesExpected
  balance : r.bytesCompleted + bytesOf DmaPacket.owner pkts r.id = issuedBytes r
  budget : r.bytesExpected ≠ 0 → issuedBytes r + leftBytes r ≤ r.bytesExpected

variable {pkts : List DmaPacket} {r : DMARequest}

lemma ledger_new {id : Nat} (hnone : bytesOf owner pkts id = 0) (vreg vaddr n : Nat) (dir : Bool)
    (res : BitVec 8) : Ledger pkts (.new id vreg vaddr n dir res) where
  vstart_lt := mod_lt _ (by decide)
  vend_lt := mod_lt _ (by decide)
  expected_lt := mod_lt _ (by decide)
  completed_le := zero_le _
  balance := by simp [new, issuedBytes, hnone]
  budget := by
    intro hn
    unfold leftBytes issuedBytes new sub64 addr64 at *
    simp only [map_nil, sum_nil, Bool.false_eq_true, if_false] at *
    omega

lemma Ledger.congr {pkts' : List DmaPacket} (h : Ledger pkts r)
    (heq : bytesOf owner pkts' r.id = bytesOf owner pkts r.id) : Ledger pkts' r :=
  { h with balance := by rw [heq]; exact h.balance }

lemma uint32_le (n : Nat) : uint32 n ≤ n := mod_le _ _

lemma uint32_lt (n : Nat) : uint32 n < 2 ^ 32 := mod_lt _ (by decide)

lemma size_le {pstart pend : Nat} (hle : pstart ≤ pend) (hlt : pend < 2 ^ 64) :
    pstart + uint32 (addr64 (sub64 pend pstart + 1)) ≤ pend + 1 := by
  have h1 := uint32_le (addr64 (sub64 pend pstart + 1))
  have h2 := sub64_of_le hle hlt
  have h3 : addr64 (sub64 pend pstart + 1) ≤ sub64 pend pstart + 1 := mod_le _ _
  omega

section Transfer

variable {pkts : List DmaPacket} {r r' : DMARequest} {vend pstart pend : Nat} {more : Bool}

lemma left_after (hled : Ledger pkts r) (hexp : r.bytesExpected ≠ 0) (hend : r.ended = false)
    (hvend : vend ≤ r.memVend) (hsub : sub64 pend pstart = sub64 vend r.memVstart)
    (hnext : { r with memP := r.memP ++ [(pstart, pend)] }.nextSubRequest (addr64 (vend + 1)) =
      .ok (r', more)) :
    uint32 (addr64 (sub64 pend pstart + 1)) + leftBytes r' ≤ leftBytes r := by
  have hbudget := hled.budget hexp
  have hexp_lt := hled.expected_lt
  have hvs := hled.vstart_lt
  have hve := hled.vend_lt
  have hz := uint32_le (addr64 (sub64 pend pstart + 1))
  obtain ⟨hge, hcase⟩ := nextSubRequest_ok hnext
  unfold leftBytes at hbudget ⊢
  rw [hend] at hbudget ⊢
  simp only [Bool.false_eq_true, if_false] at hbudget ⊢
  rw [hsub] at hz ⊢
  unfold sub64 addr64 at *
  rcases hcase with ⟨-, -, rfl⟩ | ⟨hlt, -, rfl⟩
  · simp only [if_true] at *
    omega
  · simp only [hend, Bool.false_eq_true, if_false] at *
    omega

lemma issuedBytes_push (r : DMARequest) (pstart pend : Nat) :
    issuedBytes { r with memP := r.memP ++ [(pstart, pend)] } =
      issuedBytes r + uint32 (addr64 (sub64 pend pstart + 1)) := by
  unfold issuedBytes
  rw [map_append, sum_append_nat, map_singleton, sum_singleton]

lemma nextSubRequest_frame {v : Nat} (hnext : r.nextSubRequest v = .ok (r', more)) :
    r'.id = r.id ∧ r'.dmaResource = r.dmaResource ∧ r'.memP = r.memP ∧ r'.memVend = r.memVend ∧
      r'.bytesExpected = r.bytesExpected ∧ r'.bytesCompleted = r.bytesCompleted ∧
      r'.issued = r.issued := by
  obtain ⟨-, ⟨-, -, rfl⟩ | ⟨-, -, rfl⟩⟩ := nextSubRequest_ok hnext
  · simp
  · simp

lemma Ledger.transfer (hled : Ledger pkts r) (hend : r.ended = false) (hvend : vend ≤ r.memVend)
    (hsub : sub64 pend pstart = sub64 vend r.memVstart)
    (hnext : { r with memP := r.memP ++ [(pstart, pend)] }.nextSubRequest (addr64 (vend + 1)) =
      .ok (r', more))
    {pkts' : List DmaPacket}
    (hown : bytesOf owner pkts' r.id = bytesOf owner pkts r.id + uint32 (addr64 (sub64 pend pstart + 1))) :
    Ledger pkts' r' := by
  obtain ⟨hid, -, hmemP, hve, hexp, hcomp, -⟩ := nextSubRequest_frame hnext
  have hissued : issuedBytes r' = issuedBytes r + uint32 (addr64 (sub64 pend pstart + 1)) := by
    rw [← issuedBytes_push]
    unfold issuedBytes
    rw [hmemP]
  refine ⟨?_, ?_, ?_, ?_, ?_, ?_⟩
  · obtain ⟨-, ⟨-, -, rfl⟩ | ⟨-, -, rfl⟩⟩ := nextSubRequest_ok hnext
    · exact hled.vstart_lt
    · exact mod_lt _ (by decide)
  · rw [hve]
    exact hled.vend_lt
  · rw [hexp]
    exact hled.expected_lt
  · rw [hexp, hcomp]
    exact hled.completed_le
  · rw [hcomp, hid, hissued]
    show r.bytesCompleted + bytesOf owner pkts' r.id = _
    rw [hown, ← add_assoc, hled.balance]
  · rw [hexp, hissued]
    intro hne
    have hleft := left_after hled hne hend hvend hsub hnext
    have hbudget := hled.budget hne
    show _ ≤ r.bytesExpected
    omega

end Transfer

lemma Ledger.fits {pkt : DmaPacket} (h : Ledger pkts r)
    (hexp : r.bytesExpected ≠ 0) (hle : pkt.size ≤ bytesOf owner pkts r.id) :
    addr64 (r.bytesCompleted + pkt.size) = r.bytesCompleted + pkt.size := by
  have hbal := h.balance
  have hbudget := h.budget hexp
  have hlt := h.expected_lt
  apply addr64_of_lt
  omega

/-! ## Identities -/

structure Ids (rs : List DMARequest) (nextId : Nat) : Prop where
  nodup : (rs.map DMARequest.id).Nodup
  lt : ∀ r ∈ rs, r.id < nextId

section Ids

variable {rs : List DMARequest} {n i : Nat} {r r' : DMARequest}

lemma Ids.eq_of_id (h : Ids rs n) {a b : DMARequest} (ha : a ∈ rs) (hb : b ∈ rs)
    (hid : a.id = b.id) : a = b :=
  inj_on_of_nodup_map h.nodup ha hb hid

lemma Ids.cons (h : Ids rs n) (hid : r.id = n) : Ids (r :: rs) (n + 1) where
  nodup := by
    rw [map_cons, nodup_cons]
    refine ⟨?_, h.nodup⟩
    intro hmem
    obtain ⟨q, hq, heq⟩ := mem_map.mp hmem
    exact absurd (h.lt q hq) (by rw [heq, hid]; exact lt_irrefl _)
  lt := by
    rw [forall_mem_cons, hid]
    exact ⟨lt_succ_self n, fun q hq => lt_succ_of_lt (h.lt q hq)⟩

lemma Ids.set (h : Ids rs n) (hr : rs[i]? = some r) (hid : r'.id = r.id) : Ids (rs.set i r') n where
  nodup := by
    rw [Lists.map_set_of_eq hr hid]
    exact h.nodup
  lt := by
    intro q hq
    rcases mem_or_eq_of_mem_set hq with hq | rfl
    · exact h.lt q hq
    · rw [hid]
      exact h.lt r (List.mem_of_getElem? hr)

lemma Ids.erase (h : Ids rs n) (i : Nat) : Ids (rs.eraseIdx i) n where
  nodup := h.nodup.sublist ((eraseIdx_sublist rs i).map DMARequest.id)
  lt := fun q hq => h.lt q (mem_of_mem_eraseIdx hq)

lemma mem_set_self (hr : rs[i]? = some r) : r' ∈ rs.set i r' :=
  List.mem_of_getElem? (List.getElem?_set_self (List.getElem?_eq_some_iff.mp hr).1)

variable {q : DMARequest}

lemma mem_set_of_id_ne (hr : rs[i]? = some r) (hq : q ∈ rs)
    (hne : q.id ≠ r.id) : q ∈ rs.set i r' := by
  obtain ⟨j, hj⟩ := mem_iff_getElem?.mp hq
  rw [mem_iff_getElem?]
  refine ⟨j, ?_⟩
  rw [getElem?_set_ne, hj]
  rintro rfl
  rw [hr] at hj
  exact hne (congrArg DMARequest.id (Option.some.inj hj)).symm

lemma Ids.mem_set (h : Ids rs n) (hr : rs[i]? = some r) (hid : r'.id = r.id)
    (hq : q ∈ rs.set i r') : q = r' ∨ q ∈ rs ∧ q.id ≠ r.id := by
  rcases eq_or_ne q.id r.id with heq | hne
  · exact .inl ((h.set hr hid).eq_of_id hq (mem_set_self hr) (heq.trans hid.symm))
  · rcases mem_or_eq_of_mem_set hq with hq | rfl
    · exact .inr ⟨hq, hne⟩
    · exact absurd hid hne

lemma Ids.ne_of_erased (h : Ids rs n) (hr : rs[i]? = some r)
    (hq : q ∈ rs.eraseIdx i) : q.id ≠ r.id := by
  have hnodup : ((r :: rs.eraseIdx i).map DMARequest.id).Nodup :=
    ((Lists.perm_eraseIdx hr).map DMARequest.id).nodup_iff.mpr h.nodup
  rw [map_cons, nodup_cons] at hnodup
  intro heq
  exact hnodup.1 (mem_map.mpr ⟨q, hq, heq⟩)

end Ids

/-! ## All requests -/

structure Books (rs : List DMARequest) (pkts : List DmaPacket) (nextId : Nat) : Prop where
  ids : Ids rs nextId
  masks : Masks.Apart (rs.map DMARequest.dmaResource)
  ledger : ∀ r ∈ rs, Ledger pkts r
  size_pos : ∀ q ∈ pkts, 0 < q.size
  size_lt : ∀ q ∈ pkts, q.size < 2 ^ 64
  owner : ∀ q ∈ pkts, ∃ r ∈ rs, r.id = q.owner ∧ ∃ x ∈ r.memP, x.1 ≤ q.addr ∧ q.addr ≤ x.2

section Books

variable {rs : List DMARequest} {pkts pkts' : List DmaPacket} {n i : Nat} {r r' : DMARequest}

lemma Books.cons (h : Books rs pkts n) {vreg vaddr size : Nat} {dir : Bool} {res : BitVec 8}
    (hres : Masks.orAll (rs.map dmaResource) &&& res = 0) :
    Books (.new n vreg vaddr size dir res :: rs) pkts (n + 1) where
  ids := h.ids.cons rfl
  masks := Masks.apart_cons hres h.masks
  ledger := by
    rw [forall_mem_cons]
    refine ⟨ledger_new (bytesOf_eq_zero ?_) _ _ _ _ _, h.ledger⟩
    intro q hq
    obtain ⟨r, hr, hid, -⟩ := h.owner q hq
    rw [← hid]
    exact Nat.ne_of_lt (h.ids.lt r hr)
  size_pos := h.size_pos
  size_lt := h.size_lt
  owner := by
    intro q hq
    obtain ⟨r, hr, hown⟩ := h.owner q hq
    exact ⟨r, mem_cons_of_mem _ hr, hown⟩

lemma Books.set (h : Books rs pkts n) (hr : rs[i]? = some r) (hid : r'.id = r.id)
    (hres : r'.dmaResource = r.dmaResource) (hled : Ledger pkts' r')
    (hmem : ∀ x ∈ r.memP, x ∈ r'.memP)
    (hown : ∀ id, id ≠ r.id → bytesOf DmaPacket.owner pkts' id = bytesOf DmaPacket.owner pkts id)
    (hpkts : ∀ q ∈ pkts', q ∈ pkts ∨ (q.owner = r.id ∧ 0 < q.size ∧ q.size < 2 ^ 64 ∧
      ∃ x ∈ r'.memP, x.1 ≤ q.addr ∧ q.addr ≤ x.2)) :
    Books (rs.set i r') pkts' n := by
  have hrmem : r ∈ rs := List.mem_of_getElem? hr
  refine ⟨h.ids.set hr hid, ?_, ?_, ?_, ?_, ?_⟩
  · rw [Lists.map_set_of_eq hr hres]
    exact h.masks
  · intro q hq
    rcases h.ids.mem_set hr hid hq with rfl | ⟨hq, hne⟩
    · exact hled
    · exact (h.ledger q hq).congr (hown q.id hne)
  · intro q hq
    rcases hpkts q hq with hq | ⟨-, hpos, -⟩
    · exact h.size_pos q hq
    · exact hpos
  · intro q hq
    rcases hpkts q hq with hq | ⟨-, -, hlt, -⟩
    · exact h.size_lt q hq
    · exact hlt
  · intro q hq
    rcases hpkts q hq with hq | ⟨hq, -, -, hx⟩
    · obtain ⟨a, ha, hida, x, hx, hin⟩ := h.owner q hq
      rcases eq_or_ne a.id r.id with heq | hne
      · have := h.ids.eq_of_id ha hrmem heq
        subst this
        exact ⟨r', mem_set_self hr, hid.trans hida, x, hmem x hx, hin⟩
      · exact ⟨a, mem_set_of_id_ne hr ha hne, hida, x, hx, hin⟩
    · exact ⟨r', mem_set_self hr, hid.trans hq.symm, hx⟩

lemma Books.erase (h : Books rs pkts n) (hr : rs[i]? = some r)
    (hown : ∀ id, id ≠ r.id → bytesOf DmaPacket.owner pkts' id = bytesOf DmaPacket.owner pkts id)
    (hpkts : ∀ q ∈ pkts', q ∈ pkts) (hzero : bytesOf DmaPacket.owner pkts' r.id = 0) :
    Books (rs.eraseIdx i) pkts' n := by
  have hsub : ∀ q ∈ rs.eraseIdx i, q ∈ rs := fun q hq => mem_of_mem_eraseIdx hq
  refine ⟨h.ids.erase i, ?_, ?_, ?_, ?_, ?_⟩
  · exact h.masks.sublist ((eraseIdx_sublist rs i).map dmaResource)
  · intro q hq
    exact (h.ledger q (hsub q hq)).congr (hown q.id (h.ids.ne_of_erased hr hq))
  · intro q hq
    exact h.size_pos q (hpkts q hq)
  · intro q hq
    exact h.size_lt q (hpkts q hq)
  · intro q hq
    obtain ⟨a, ha, hida, hx⟩ := h.owner q (hpkts q hq)
    rcases mem_cons.mp ((Lists.perm_eraseIdx hr).mem_iff.mpr ha) with rfl | ha'
    · have hpos := bytesOf_pos hq (h.size_pos q (hpkts q hq)) DmaPacket.owner
      rw [← hida, hzero] at hpos
      exact absurd hpos (lt_irrefl 0)
    · exact ⟨a, ha', hida, hx⟩

end Books

/-! ## The port -/

structure Port (actions : List DmaReqState) (pkts : List DmaPacket) : Prop where
  sent : ∀ q ∈ pkts, q.action < actions.length
  fits : ∀ i a, actions[i]? = some a → a.numBytes + bytesOf DmaPacket.action pkts i ≤ a.totBytes

def Balance (R : Nat → Nat → Prop) (actions : List DmaReqState) (pkts : List DmaPacket) : Prop :=
  ∀ i a, actions[i]? = some a → R (a.numBytes + bytesOf DmaPacket.action pkts i) a.totBytes

lemma uint32_le_intToAddr (n : Nat) : uint32 n ≤ intToAddr n := by
  unfold intToAddr
  split
  · exact le_refl _
  · omega

section Port

variable {R : Nat → Nat → Prop} {actions : List DmaReqState} {pkts : List DmaPacket} {p : DmaParams}
  {pstart size vregPtr owner : Nat}

lemma Balance.issue (h : Balance R actions pkts) (hsent : ∀ q ∈ pkts, q.action < actions.length)
    (hbound : pstart + uint32 size ≤ 2 ^ 64) (hnew : R (uint32 size) (intToAddr size)) :
    Balance R (actions ++ [⟨intToAddr size, 0⟩])
      (pkts ++ actionPackets p pstart size vregPtr actions.length owner) := by
  intro i a ha
  rw [bytesOf_append]
  rcases lt_trichotomy i actions.length with hlt | rfl | hgt
  · rw [getElem?_append_left hlt] at ha
    rw [bytesOf_eq_zero fun q hq heq => ne_of_gt hlt ((actionPackets_keys hq).2.symm.trans heq),
      add_zero]
    exact h i a ha
  · rw [getElem?_concat_length, Option.some.injEq] at ha
    subst ha
    rw [bytesOf_eq_zero fun q hq => Nat.ne_of_lt (hsent q hq),
      bytesOf_all fun q hq => (actionPackets_keys hq).2, actionPackets_size hbound]
    simpa using hnew
  · rw [getElem?_eq_none (by rw [length_append, length_singleton]; omega)] at ha
    cases ha

lemma Balance.respond (h : Balance R actions pkts) {k : Nat} {pkt : DmaPacket} {a : DmaReqState}
    (hk : pkts[k]? = some pkt) (ha : actions[pkt.action]? = some a) :
    Balance R (actions.set pkt.action { a with numBytes := a.numBytes + pkt.size })
      (pkts.eraseIdx k) := by
  intro i b hb
  have hbytes := bytesOf_eraseIdx hk action i
  rw [getElem?_set] at hb
  split at hb
  · rename_i heq
    subst heq
    rw [if_pos (List.getElem?_eq_some_iff.mp ha).1, Option.some.injEq] at hb
    subst hb
    rw [if_pos rfl] at hbytes
    dsimp only
    rw [add_assoc, ← hbytes]
    exact h _ a ha
  · rename_i hne
    rw [if_neg hne, zero_add] at hbytes
    rw [← hbytes]
    exact h i b hb

lemma Port.issue (h : Port actions pkts) (hbound : pstart + uint32 size ≤ 2 ^ 64) :
    Port (actions ++ [⟨intToAddr size, 0⟩])
      (pkts ++ actionPackets p pstart size vregPtr actions.length owner) where
  sent := by
    intro q hq
    rw [length_append, length_singleton]
    rcases mem_append.mp hq with hq | hq
    · exact lt_succ_of_lt (h.sent q hq)
    · rw [(actionPackets_keys hq).2]
      exact lt_succ_self _
  fits := Balance.issue h.fits h.sent hbound (uint32_le_intToAddr size)

lemma Port.respond (h : Port actions pkts) {k : Nat} {pkt : DmaPacket} {a : DmaReqState}
    (hk : pkts[k]? = some pkt) (ha : actions[pkt.action]? = some a) :
    Port (actions.set pkt.action { a with numBytes := a.numBytes + pkt.size }) (pkts.eraseIdx k) where
  sent := by
    intro q hq
    rw [length_set]
    exact h.sent q (mem_of_mem_eraseIdx hq)
  fits := Balance.respond h.fits hk ha

lemma Port.found (h : Port actions pkts) {pkt : DmaPacket} (hmem : pkt ∈ pkts) :
    ∃ a, actions[pkt.action]? = some a ∧ a.numBytes + pkt.size ≤ a.totBytes := by
  have hlt := h.sent pkt hmem
  refine ⟨_, getElem?_eq_getElem hlt, ?_⟩
  have hfits := h.fits pkt.action _ (getElem?_eq_getElem hlt)
  have hle : pkt.size ≤ bytesOf action pkts pkt.action := by
    unfold bytesOf
    exact le_sum_of_mem (mem_map.mpr ⟨pkt, hmem, if_pos rfl⟩)
  omega

end Port

end DmaSys

end SmcPim
