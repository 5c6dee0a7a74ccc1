import SmcPim.Driver.Merge
import SmcPim.Tlb.Accesses

/-! # From the pages of the driver to the address on the bus -/

namespace SmcPim

open Driver List Nat

/-! ## The table in memory -/

def Driver.Slice.Fits (a : Arch) (s : Slice) : Prop :=
  s.vaddr < 2 ^ a.bits ∧ s.paddr < 2 ^ a.bits ∧ s.size < 2 ^ a.bits

variable {a : Arch} {mem : Memory} {addr base k : Nat} {s : Slice} {ws : List (Nat × Slice)}

lemma readSlice_storeSlice_same
    (h : s.Fits a) : readSlice a (storeSlice a mem addr s) addr = s := by
  have hb := a.bytes_pos
  unfold readSlice storeSlice
  rw [if_pos rfl, if_neg (by omega), if_pos rfl, if_neg (by omega), if_neg (by omega), if_pos rfl,
    Slice.ext_iff]
  exact ⟨Arch.ulong_of_lt h.1, Arch.ulong_of_lt h.2.1, Arch.ulong_of_lt h.2.2⟩

lemma storeSlice_other {x : Nat}
    (h : x < addr ∨ addr + sizeofSlice a ≤ x) : storeSlice a mem addr s x = mem x := by
  have hb := a.bytes_pos
  unfold sizeofSlice at h
  unfold storeSlice
  rw [if_neg (by omega), if_neg (by omega), if_neg (by omega)]

lemma readSlice_storeSlice_other {j : Nat} (h : j ≠ k) :
    readSlice a (storeSlice a mem (base + k * sizeofSlice a) s) (base + j * sizeofSlice a) =
      readSlice a mem (base + j * sizeofSlice a) := by
  have hb := a.bytes_pos
  -- The three words of entry `j` lie before entry `k` or after it.
  have hapart : ∀ x, base + j * sizeofSlice a ≤ x → x < base + j * sizeofSlice a + sizeofSlice a →
      x < base + k * sizeofSlice a ∨ base + k * sizeofSlice a + sizeofSlice a ≤ x := by
    intro x h1 h2
    rcases lt_or_gt_of_ne h with hlt | hgt
    · have := mul_le_mul_right (sizeofSlice a) (succ_le_of_lt hlt)
      rw [succ_mul] at this
      omega
    · have := mul_le_mul_right (sizeofSlice a) (succ_le_of_lt hgt)
      rw [succ_mul] at this
      omega
  have hsize : sizeofSlice a = 3 * a.bytes := rfl
  unfold readSlice
  rw [storeSlice_other (hapart _ (by omega) (by omega)),
    storeSlice_other (hapart _ (by omega) (by omega)),
    storeSlice_other (hapart _ (by omega) (by omega))]

lemma readSlice_storeTable_other (mem : Memory) (h : k ∉ ws.map Prod.fst) :
    readSlice a (storeTable a base ws mem) (base + k * sizeofSlice a) =
      readSlice a mem (base + k * sizeofSlice a) := by
  induction ws generalizing mem with
  | nil => rfl
  | cons w ws ih =>
    rw [map_cons, mem_cons, not_or] at h
    unfold storeTable
    rw [foldl_cons]
    exact (ih _ h.2).trans (readSlice_storeSlice_other h.1)

lemma readSlice_storeTable (mem : Memory) (hnodup : (ws.map Prod.fst).Nodup) (hfits : s.Fits a)
    (h : (k, s) ∈ ws) : readSlice a (storeTable a base ws mem) (base + k * sizeofSlice a) = s := by
  induction ws generalizing mem with
  | nil => simp at h
  | cons w ws ih =>
    rw [map_cons, nodup_cons] at hnodup
    unfold storeTable
    rw [foldl_cons]
    rcases mem_cons.mp h with rfl | h
    · exact (readSlice_storeTable_other _ hnodup.1).trans (readSlice_storeSlice_same hfits)
    · exact ih _ hnodup.2 h

/-! ## The offloaded region -/

/-- A task's pages and the place of its table; the word after `physical_addr` continues no run. -/
structure Offload (b : Build) (p : Tlb.Params) where
  physicalAddr : List Nat
  after : List Nat
  vaddrStart : Nat
  slicetablePaddr : Nat
  mem : Memory
  arch : p.pimArch = b.arch
  shift : p.osPageShift = b.pageShift
  size : 2 ≤ p.tlbSize
  start : p.originalRange.start = 0
  registers : ∀ r ∈ p.registers, p.originalRange.contains r = true
  nonempty : physicalAddr ≠ []
  distinct : physicalAddr.Nodup
  aligned : ∀ x ∈ physicalAddr, b.pageSize ∣ x
  inMemory : ∀ x ∈ physicalAddr, x + b.pageSize < 2 ^ b.arch.bits
  stops : ∃ next rest, after = next :: rest ∧
    next ≠ b.arch.ulong (physicalAddr.getLast nonempty + b.pageSize)
  valigned : b.pageSize ∣ vaddrStart
  vend : vaddrStart + physicalAddr.length * b.pageSize ≤ 2 ^ b.arch.bits
  static : ∀ v, vaddrStart ≤ v → v < vaddrStart + physicalAddr.length * b.pageSize →
    p.originalRange.contains v = false
  tableNonzero : slicetablePaddr ≠ 0
  tableEnd : slicetablePaddr + physicalAddr.length * sizeofSlice b.arch ≤ 2 ^ b.arch.bits

namespace Offload

variable {b : Build} {p : Tlb.Params} (o : Offload b p)

def log : MergeLog := mergeSlices b o.physicalAddr o.after o.vaddrStart

def published : Published :=
  pimCreateSliceTable b o.physicalAddr o.after o.vaddrStart o.slicetablePaddr o.mem

def pinned (v : Nat) : Nat :=
  o.physicalAddr.getD ((v - o.vaddrStart) / b.pageSize) 0 + v % b.pageSize

lemma length_pos : 0 < o.physicalAddr.length := length_pos_of_ne_nil o.nonempty

lemma merged : Merged b (o.physicalAddr ++ o.after) o.physicalAddr.length o.vaddrStart
    (o.physicalAddr.length - 1 + 1) 0 o.log := by
  have hpos := o.length_pos
  obtain ⟨next, rest, hafter, hne⟩ := o.stops
  refine mergeLoop_spec b _ _ _ (by simp) (by omega) (by omega) ?_ _ 0 (by omega) (by omega)
  intro _ _
  refine ⟨by simp [hafter]; omega, ?_⟩
  rintro ⟨x, hx, hy⟩
  rw [getElem?_append_left (by omega), ← getLast?_eq_getElem?,
    getLast?_eq_some_getLast o.nonempty, Option.some.injEq] at hx
  rw [Nat.sub_add_cancel hpos, getElem?_append_right (le_refl _), Nat.sub_self, hafter,
    getElem?_cons_zero, Option.some.injEq, ← hx] at hy
  exact hne hy

lemma vaddrStart_pos : 0 < o.vaddrStart := by
  rcases Nat.eq_zero_or_pos o.vaddrStart with h | h
  · have := o.static 0 (by omega) (by
      have := Nat.mul_pos o.length_pos b.pageSize_pos
      omega)
    rw [AddrRange.contains, o.start] at this
    simp at this
  · exact h

variable {k s d v : Nat}

lemma page_lt (hk : k < o.physicalAddr.length) :
    o.physicalAddr.getD k 0 + b.pageSize < 2 ^ b.arch.bits := by
  rw [getD_eq_getElem _ _ hk]
  exact o.inMemory _ (getElem_mem hk)

lemma pages_le (hend : s + d ≤ o.physicalAddr.length) :
    b.pageSize * s + b.pageSize * d ≤ o.physicalAddr.length * b.pageSize := by
  rw [← mul_add, mul_comm]
  exact mul_le_mul_right _ hend

lemma sliceAt_eq (hend : s + d ≤ o.physicalAddr.length) (hd : 1 ≤ d) (x : Nat) :
    sliceAt b o.vaddrStart s d x = ⟨o.vaddrStart + b.pageSize * s, x, b.pageSize * d⟩ := by
  have hle := o.pages_le hend
  have hdpos : 0 < b.pageSize * d := Nat.mul_pos b.pageSize_pos hd
  have hv := o.vaddrStart_pos
  have hvend := o.vend
  unfold sliceAt
  rw [Arch.ulong_of_lt (by omega), Arch.ulong_of_lt (by omega)]

lemma length_eq (o : Offload b p) : p.length = sizeofSlice b.arch := by
  rw [Tlb.Table.length_eq, o.arch]
  rfl

lemma entry_eq (hk : k < o.physicalAddr.length) :
    ∃ s d, Run b (o.physicalAddr ++ o.after) s d ∧ s + d ≤ o.physicalAddr.length ∧
      s ≤ k ∧ k < s + d ∧ ∀ j, s ≤ j → j < s + d →
        readSlice p.pimArch o.published.mem (o.slicetablePaddr + j * p.length) =
          ⟨o.vaddrStart + b.pageSize * s, o.physicalAddr.getD s 0, b.pageSize * d⟩ := by
  have hmerged := o.merged
  have hmem : k ∈ o.log.writes.map Prod.fst := by
    rw [hmerged.indices, mem_range'_1]
    omega
  obtain ⟨w, hw, rfl⟩ := mem_map.mp hmem
  obtain ⟨s, d, hrun, hend, hsk, hkd, heq, hall⟩ := hmerged.slices w hw
  have hpos := hrun.pos
  have hslt : s < o.physicalAddr.length := by omega
  rw [o.sliceAt_eq hend hpos, getD_append _ _ _ _ hslt] at heq
  refine ⟨s, d, hrun, hend, hsk, hkd, ?_⟩
  intro j hsj hjd
  have hfits : w.2.Fits b.arch := by
    have hle := o.pages_le hend
    have hdpos : 0 < b.pageSize * d := Nat.mul_pos b.pageSize_pos hpos
    have hv := o.vaddrStart_pos
    have hvend := o.vend
    have hpage := o.page_lt hslt
    rw [heq]
    exact ⟨by simp only; omega, by simp only; omega, by simp only; omega⟩
  have hnodup : (o.log.writes.map Prod.fst).Nodup := by
    rw [hmerged.indices]
    exact nodup_range'
  rw [o.arch, o.length_eq, ← heq]
  exact readSlice_storeTable _ hnodup hfits (hall j hsj hjd)

lemma vstart_eq : o.published.pimSlicevstart = o.vaddrStart := by
  obtain ⟨s, d, -, -, hs, hd, hall⟩ := o.entry_eq o.length_pos
  have hs0 : s = 0 := by omega
  subst hs0
  have hvaddr := congrArg Slice.vaddr (hall 0 (le_refl _) (by omega))
  simp only [readSlice, zero_mul, add_zero, mul_zero] at hvaddr
  rw [o.arch] at hvaddr
  exact hvaddr

lemma pinned_of_run (hrun : Run b (o.physicalAddr ++ o.after) s d)
    (hend : s + d ≤ o.physicalAddr.length) (hlo : o.vaddrStart + b.pageSize * s ≤ v)
    (hhi : v < o.vaddrStart + b.pageSize * s + b.pageSize * d) :
    s ≤ (v - o.vaddrStart) / b.pageSize ∧ (v - o.vaddrStart) / b.pageSize < s + d ∧
      o.physicalAddr.getD s 0 + (v - (o.vaddrStart + b.pageSize * s)) = o.pinned v := by
  have hP := b.pageSize_pos
  have hlow : s ≤ (v - o.vaddrStart) / b.pageSize := by
    rw [le_div_iff_mul_le hP, mul_comm]
    omega
  have hhigh : (v - o.vaddrStart) / b.pageSize < s + d := by
    rw [div_lt_iff_lt_mul hP, mul_comm, mul_add]
    omega
  refine ⟨hlow, hhigh, ?_⟩
  obtain ⟨m, hm⟩ := Nat.exists_eq_add_of_le hlow
  have hlt : ∀ k < s + d, (o.physicalAddr ++ o.after).getD k 0 + b.pageSize < 2 ^ b.arch.bits := by
    intro k hk
    rw [getD_append _ _ _ _ (by omega)]
    exact o.page_lt (by omega)
  have hpage := hrun.phys_eq hlt m (by omega)
  rw [getD_append _ _ _ _ (by omega), getD_append _ _ _ _ (by omega)] at hpage
  have hmod : v % b.pageSize = (v - o.vaddrStart) % b.pageSize := by
    obtain ⟨c, hc⟩ := o.valigned
    rw [← sub_mul_mod (x := v) (k := c) (n := b.pageSize) (by omega), ← hc]
  have hdiv := div_add_mod (v - o.vaddrStart) b.pageSize
  unfold pinned
  rw [hm, hpage, hmod]
  rw [hm, mul_add] at hdiv
  omega

lemma pinned_lt (hlo : o.vaddrStart ≤ v)
    (hhi : v < o.vaddrStart + o.physicalAddr.length * b.pageSize) : o.pinned v < noAddr := by
  have hk : (v - o.vaddrStart) / b.pageSize < o.physicalAddr.length := by
    rw [div_lt_iff_lt_mul b.pageSize_pos]
    omega
  have hpage := o.page_lt hk
  have hmod := mod_lt v b.pageSize_pos
  have hbits := b.arch.pow_bits_le
  unfold pinned noAddr
  omega

/-- The table that the driver publishes maps every byte of the region to the page it is pinned
at. -/
def table : Tlb.Table p o.published.mem where
  ptr := o.slicetablePaddr
  vstart := o.vaddrStart
  pages := o.physicalAddr.length
  phys := o.pinned
  ptr_ne := o.tableNonzero
  ptr_le := by
    rw [o.length_eq]
    exact o.tableEnd.trans b.arch.pow_bits_le
  vend_le := by
    rw [o.shift]
    exact o.vend.trans b.arch.pow_bits_le
  static := by
    rw [o.shift]
    exact o.static
  registers := by
    rw [o.shift]
    intro v hlo hhi hmem
    have := o.registers v hmem
    rw [o.static v hlo hhi] at this
    exact absurd this (by simp)
  phys_lt := by
    rw [o.shift]
    exact fun v => o.pinned_lt
  covers := by
    rw [o.shift]
    intro v hlo hhi
    have hk : (v - o.vaddrStart) / b.pageSize < o.physicalAddr.length := by
      rw [Nat.div_lt_iff_lt_mul b.pageSize_pos]
      change v < o.vaddrStart + o.physicalAddr.length * b.pageSize at hhi
      omega
    obtain ⟨s, d, -, -, hs, hd, hall⟩ := o.entry_eq hk
    rw [show (2 : Nat) ^ b.pageShift = b.pageSize from rfl, hall _ hs hd]
    rw [Nat.le_div_iff_mul_le b.pageSize_pos, Nat.mul_comm] at hs
    rw [Nat.div_lt_iff_lt_mul b.pageSize_pos, Nat.mul_comm, Nat.mul_add] at hd
    exact ⟨by simp only; omega, by simp only; omega⟩
  maps := by
    rw [o.shift]
    intro k hk v hv
    obtain ⟨s, d, hrun, hend, hs, hd, hall⟩ := o.entry_eq hk
    rw [hall k hs hd] at hv ⊢
    obtain ⟨hlow, hhigh, hphys⟩ := o.pinned_of_run hrun hend hv.1 hv.2
    have hle : b.pageSize * s + b.pageSize * d ≤ o.physicalAddr.length * b.pageSize := by
      rw [← Nat.mul_add, Nat.mul_comm]
      exact Nat.mul_le_mul_right _ hend
    have hv1 := hv.1
    have hv2 := hv.2
    simp only at hv1 hv2
    rw [show (2 : Nat) ^ b.pageShift = b.pageSize from rfl]
    exact ⟨by omega, by omega, hphys, hall _ hlow hhigh⟩

/-! ## End to end -/

def tlb : Tlb :=
  { p.create with
    pimSlicetablePtr := o.published.pimSlicetable
    pimSlicevstart := o.published.pimSlicevstart }

def front : Tlb.Front := ⟨o.tlb, [], []⟩

lemma front_inv : Tlb.Front.Inv o.table o.front where
  tlb := ⟨rfl, rfl, rfl, o.vstart_eq, [], rfl, by simp⟩
  pending := rfl
  nodup := nodup_nil
  entries := by simp [front]
  ideal := fun _ => rfl
  forwarded := by simp [front]

end Offload

variable {b : Build} {p : Tlb.Params}

/-- Every packet carries the address of its pinned page, and an access gets through after its
refill. -/
theorem forwards_pinned_page (o : Offload b p) (ls : List (Nat × Tlb.Access)) (f : Tlb.Front)
    (hrun : Runs.Steps (Tlb.Front.InRegion o.table) o.front ls f) :
    (∀ x ∈ f.forwarded,
      x.2 = o.physicalAddr.getD ((x.1 - o.vaddrStart) / b.pageSize) 0 + x.1 % b.pageSize) ∧
    ∀ now pkt, o.table.region pkt.addr →
      (pkt.isRemapped = false →
        ∃ ls' f', Runs.Steps (Tlb.Front.InRegion o.table) f ls' f' ∧
          (∀ l ∈ ls', l = (now, Tlb.Access.request pkt true) ∨
            ∃ i, l = (now, Tlb.Access.refillResp i)) ∧
          (pkt.addr, o.physicalAddr.getD ((pkt.addr - o.vaddrStart) / b.pageSize) 0 +
            pkt.addr % b.pageSize) ∈ f'.forwarded) ∧
      (f.refills = [] →
        ∃ f', f.step p o.published.mem (now, .atomic pkt) = .ok f' ∧
          (pkt.addr, o.physicalAddr.getD ((pkt.addr - o.vaddrStart) / b.pageSize) 0 +
            pkt.addr % b.pageSize) ∈ f'.forwarded) := by
  have hinv := Tlb.Front.run_inv o.size o.front_inv hrun
  refine ⟨hinv.forwarded, ?_⟩
  intro now pkt hv
  refine ⟨hinv.completes o.size hv, ?_⟩
  intro hrefills
  obtain ⟨f', heq, -, hfwd, -⟩ := hinv.atomic (n := now) o.size hv (.inr (by rw [hrefills]; simp))
  refine ⟨f', heq, ?_⟩
  rw [hfwd]
  exact List.mem_cons_self

def threePages (size : Nat) (hsize : 2 ≤ size) (ideal : Bool) : Offload ⟨.arm, 12, true⟩
    { Tlb.Params.dtlb with tlbSize := size, idealRefill := ideal } where
  physicalAddr := [0x80005000, 0x80001000, 0x80002000]
  after := [0]
  vaddrStart := 0x10000000
  slicetablePaddr := 0x90000000
  mem := fun _ => 0
  arch := rfl
  shift := rfl
  size := hsize
  start := rfl
  registers :=
    (by decide : ∀ r ∈ Tlb.Params.dtlb.registers, Tlb.Params.dtlb.originalRange.contains r = true)
  nonempty := by decide
  distinct := by decide
  aligned := by decide
  inMemory := by decide
  stops := ⟨0, [], rfl, by decide⟩
  valigned := by decide
  vend := by decide
  static := by
    intro v hlo _
    rw [AddrRange.contains, decide_eq_false_iff_not]
    change ¬ (0 ≤ v ∧ v ≤ 0xFFFFF)
    omega
  tableNonzero := by decide
  tableEnd := by decide

def defaultOffload : Offload ⟨.arm, 12, true⟩ .dtlb := threePages 16 (by decide) true

theorem forwards_pinned_page_three :
    ∃ ls f, Runs.Steps (Tlb.Front.InRegion (threePages 2 (le_refl _) false).table)
        (threePages 2 (le_refl _) false).front ls f ∧
      (0x10002004, 0x80002004) ∈ f.forwarded := by
  obtain ⟨ls, f, hrun, -, hmem⟩ :=
    ((forwards_pinned_page (threePages 2 (le_refl _) false) [] _ (.nil _)).2 7
      ⟨0x10002004, 4, false, true, false, 0, false, .nop, 0, []⟩ ⟨by decide, by decide⟩).1 rfl
  exact ⟨ls, f, hrun, hmem⟩

end SmcPim
