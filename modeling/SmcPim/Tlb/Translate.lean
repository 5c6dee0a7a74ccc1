import SmcPim.Lib.Lists
import SmcPim.Tlb.Ports

/-! # What the TLB translates -/

namespace SmcPim

open List Nat AddrRange

open Driver (Slice)

def Driver.Slice.covers (s : Slice) (v : Nat) : Prop := s.vaddr ≤ v ∧ v < s.vaddr + s.size

variable {start size : Nat}

lemma AddrRange.ofSize_last (hpos : 0 < size) (hle : start + size ≤ 2 ^ 64) :
    (ofSize start size).last = start + size - 1 := by
  unfold ofSize sub64 addr64
  simp only
  omega

lemma AddrRange.ofSize_contains {v : Nat} (hpos : 0 < size) (hle : start + size ≤ 2 ^ 64) :
    (ofSize start size).contains v = true ↔ start ≤ v ∧ v < start + size := by
  unfold contains
  rw [ofSize_last hpos hle, decide_eq_true_iff]
  unfold ofSize
  simp only
  omega

lemma AddrRange.ofSize_size (hpos : 0 < size) (hlt : size < 2 ^ 64)
    (hle : start + size ≤ 2 ^ 64) : (AddrRange.ofSize start size).size = size := by
  unfold AddrRange.size
  rw [ofSize_last hpos hle]
  unfold AddrRange.ofSize sub64 addr64
  simp only
  omega

/-! ## The table -/

namespace Tlb

variable {p : Tlb.Params} {mem : Memory}

/-- The addresses that the TLB answers or rewrites itself. -/
def Params.registers (p : Tlb.Params) : List Nat :=
  [p.pimDtlbIdealRefillReg, p.hmcAtomicIncr, p.hmcAtomicFadd, p.hmcAtomicImin, p.hmcOperand]

/-- Every page of the region has an entry, and a slice of several pages is the entry of each. -/
structure Table (p : Tlb.Params) (mem : Memory) where
  ptr : Nat
  vstart : Nat
  pages : Nat
  phys : Nat → Nat
  ptr_ne : ptr ≠ 0
  ptr_le : ptr + pages * p.length ≤ 2 ^ 64
  vend_le : vstart + pages * 2 ^ p.osPageShift ≤ 2 ^ 64
  static : ∀ v, vstart ≤ v → v < vstart + pages * 2 ^ p.osPageShift →
    p.originalRange.contains v = false
  registers : ∀ v, vstart ≤ v → v < vstart + pages * 2 ^ p.osPageShift → v ∉ p.registers
  phys_lt : ∀ v, vstart ≤ v → v < vstart + pages * 2 ^ p.osPageShift → phys v < noAddr
  covers : ∀ v, vstart ≤ v → v < vstart + pages * 2 ^ p.osPageShift →
    (readSlice p.pimArch mem
      (ptr + (v - vstart) / 2 ^ p.osPageShift * p.length)).covers v
  maps : ∀ k < pages, ∀ v, (readSlice p.pimArch mem (ptr + k * p.length)).covers v →
    vstart ≤ v ∧ v < vstart + pages * 2 ^ p.osPageShift ∧
    (readSlice p.pimArch mem (ptr + k * p.length)).paddr +
      (v - (readSlice p.pimArch mem (ptr + k * p.length)).vaddr) = phys v ∧
    readSlice p.pimArch mem (ptr + (v - vstart) / 2 ^ p.osPageShift * p.length) =
      readSlice p.pimArch mem (ptr + k * p.length)

namespace Table

variable (T : Table p mem)

def region (v : Nat) : Prop := T.vstart ≤ v ∧ v < T.vstart + T.pages * 2 ^ p.osPageShift

instance (v : Nat) : Decidable (T.region v) := inferInstanceAs (Decidable (_ ∧ _))

def page (v : Nat) : Nat := (v - T.vstart) / 2 ^ p.osPageShift

def entry (k : Nat) : Slice := readSlice p.pimArch mem (T.ptr + k * p.length)

def slice (v : Nat) : Slice := T.entry (T.page v)

variable {T} {k v : Nat}

lemma page_lt (hv : T.region v) : T.page v < T.pages := by
  unfold page
  rw [Nat.div_lt_iff_lt_mul (Nat.two_pow_pos _)]
  have := hv.1
  have := hv.2
  omega

lemma slice_covers (hv : T.region v) : (T.slice v).covers v := T.covers v hv.1 hv.2

section
variable (hk : k < T.pages) (hv : (T.entry k).covers v)
include hk hv

lemma region_of_covers : T.region v :=
  ⟨(T.maps k hk v hv).1, (T.maps k hk v hv).2.1⟩

lemma phys_of_covers :
    (T.entry k).paddr + (v - (T.entry k).vaddr) = T.phys v := (T.maps k hk v hv).2.2.1

lemma slice_of_covers : T.slice v = T.entry k :=
  (T.maps k hk v hv).2.2.2

end

lemma entry_size_lt : (T.entry k).size < 2 ^ 64 :=
  lt_of_lt_of_le (Arch.ulong_lt _ _) (Arch.pow_bits_le _)

lemma entry_pos (hk : k < T.pages) : 0 < (T.entry k).size := by
  have hpage : T.page (T.vstart + k * 2 ^ p.osPageShift) = k := by
    unfold page
    rw [Nat.add_sub_cancel_left, Nat.mul_div_cancel _ (Nat.two_pow_pos _)]
  have hlt : k * 2 ^ p.osPageShift < T.pages * 2 ^ p.osPageShift :=
    Nat.mul_lt_mul_of_pos_right hk (Nat.two_pow_pos _)
  have hcov := slice_covers (T := T) (v := T.vstart + k * 2 ^ p.osPageShift)
    ⟨Nat.le_add_right _ _, by omega⟩
  rw [slice, hpage] at hcov
  have := hcov.1
  have := hcov.2
  omega

lemma entry_end_le (hk : k < T.pages) : (T.entry k).vaddr + (T.entry k).size ≤ 2 ^ 64 := by
  have hpos := entry_pos hk
  have hlast : (T.entry k).covers ((T.entry k).vaddr + (T.entry k).size - 1) :=
    ⟨by omega, by omega⟩
  have := (region_of_covers hk hlast).2
  have := T.vend_le
  omega

lemma length_eq : p.length = 3 * p.pimArch.bytes := by
  unfold Tlb.Params.length Arch.bytes
  cases p.pimArch <;> rfl

end Table

/-! ## Rules -/

def rules (t : Tlb) : List (AddrRange × AddrRange) := t.originalRanges.zip t.remappedRanges

def ruleOf (s : Slice) : AddrRange × AddrRange := (.ofSize s.vaddr s.size, .ofSize s.paddr s.size)

structure Ok (T : Table p mem) (t : Tlb) : Prop where
  remapped : t.remappedRanges.length = t.originalRanges.length
  stamps : t.lastUsed.length = t.originalRanges.length
  ptr : t.pimSlicetablePtr = T.ptr
  vstart : t.pimSlicevstart = T.vstart
  rules : ∃ dyn, t.rules = (p.originalRange, p.remappedRange) :: dyn ∧
    ∀ r ∈ dyn, ∃ k < T.pages, r = ruleOf (T.entry k)

def Resident (t : Tlb) (v : Nat) : Prop := ∃ r ∈ t.rules, r.1.contains v = true

variable {T : Table p mem} {t : Tlb} {v now : Nat}

variable {k i : Nat} {stamps : List Nat} {s : Slice}

lemma ruleOf_contains (hk : k < T.pages) :
    (ruleOf (T.entry k)).1.contains v = true ↔ (T.entry k).covers v :=
  ofSize_contains (Table.entry_pos hk) (Table.entry_end_le hk)

lemma Ok.rule_eq (h : Ok T t) (hv : T.region v) {r : AddrRange × AddrRange} (hr : r ∈ t.rules)
    (hc : r.1.contains v = true) : r = ruleOf (T.slice v) := by
  obtain ⟨dyn, hrules, hdyn⟩ := h.rules
  rw [hrules] at hr
  rcases mem_cons.mp hr with rfl | hr
  · rw [T.static v hv.1 hv.2] at hc
    cases hc
  · obtain ⟨k, hk, rfl⟩ := hdyn r hr
    rw [ruleOf_contains hk] at hc
    rw [Table.slice_of_covers hk hc]

lemma findRule_some (hlen : t.remappedRanges.length = t.originalRanges.length)
    (hf : t.findRule v = some i) :
    (t.originalRanges.getD i default, t.remappedRanges.getD i default) ∈ t.rules ∧
      (t.originalRanges.getD i default).contains v = true := by
  have hi := Lists.findIdx?_lt hf
  exact ⟨mem_of_getElem? (Lists.zip_getElem? hi (by omega) _ _), Lists.findIdx?_getD hf _⟩

lemma findRule_none (hlen : t.remappedRanges.length = t.originalRanges.length) :
    t.findRule v = none ↔ ¬ t.Resident v := by
  constructor
  · rintro hf ⟨r, hr, hc⟩
    unfold findRule at hf
    rw [findIdx?_eq_none_iff] at hf
    have := hf r.1 (of_mem_zip hr).1
    rw [hc] at this
    cases this
  · intro hres
    rcases hf : t.findRule v with _ | i
    · rfl
    · exact absurd ⟨_, findRule_some hlen hf⟩ hres

lemma remapCheck_lt : t.remapCheck v < 2 ^ 64 := by
  unfold remapCheck
  split
  · exact mod_lt _ (by decide)
  · decide

/-! ## Lookups in the region -/

lemma Ok.offsetIn_eq (h : Ok T t) (hv : T.region v) (hf : t.findRule v = some i) :
    t.offsetIn i v = T.phys v := by
  obtain ⟨hmem, hc⟩ := findRule_some h.remapped hf
  have hrule := h.rule_eq hv hmem hc
  rw [ruleOf, Prod.mk.injEq] at hrule
  have hcov := Table.slice_covers hv
  have hphys := Table.phys_of_covers (Table.page_lt hv) hcov
  have hlt := T.phys_lt v hv.1 hv.2
  have hvlt := lt_of_lt_of_le hv.2 T.vend_le
  unfold offsetIn
  rw [hrule.1, hrule.2]
  unfold ofSize
  simp only
  rw [sub64_of_le hcov.1 hvlt, add_comm]
  unfold Table.slice at hcov ⊢
  rw [hphys]
  exact addr64_of_lt (by unfold noAddr at hlt; omega)

lemma Ok.remapCheck_of_resident (h : Ok T t) (hv : T.region v) (hres : t.Resident v) :
    t.remapCheck v = T.phys v := by
  unfold remapCheck
  rcases hf : t.findRule v with _ | i
  · exact absurd hres ((findRule_none h.remapped).mp hf)
  · exact h.offsetIn_eq hv hf

lemma remapCheck_of_not_resident (hlen : t.remappedRanges.length = t.originalRanges.length)
    (hres : ¬ t.Resident v) : t.remapCheck v = noAddr := by
  unfold remapCheck
  rw [(findRule_none hlen).mpr hres]

lemma Ok.remapCheck_eq_noAddr (h : Ok T t) (hv : T.region v) :
    t.remapCheck v = noAddr ↔ ¬ t.Resident v := by
  constructor
  · intro hno hres
    rw [h.remapCheck_of_resident hv hres] at hno
    exact absurd hno (Nat.ne_of_lt (T.phys_lt v hv.1 hv.2))
  · exact remapCheck_of_not_resident h.remapped

lemma Ok.sliceVend_eq (h : Ok T t) (hv : T.region v) (hres : t.Resident v) :
    t.sliceVend v = .ok ((T.slice v).vaddr + (T.slice v).size - 1) := by
  unfold sliceVend
  rcases hf : t.findRule v with _ | i
  · exact absurd hres ((findRule_none h.remapped).mp hf)
  · obtain ⟨hmem, hc⟩ := findRule_some h.remapped hf
    have hrule := h.rule_eq hv hmem hc
    rw [ruleOf, Prod.mk.injEq] at hrule
    have hk := Table.page_lt hv
    have hpos := Table.entry_pos hk
    have hle := Table.entry_end_le hk
    simp only
    rw [hrule.1]
    unfold Table.slice
    rw [ofSize_size hpos Table.entry_size_lt hle]
    unfold ofSize sub64 addr64
    simp only [Except.ok.injEq]
    omega

lemma remap_spec (now v : Nat) (hptr : t.pimSlicetablePtr ≠ 0) :
    ∃ stamps, t.remap now v = .ok (t.remapCheck v, { t with lastUsed := stamps }) ∧
      stamps.length = t.lastUsed.length ∧ (t.findRule v = none → stamps = t.lastUsed) := by
  unfold remap remapCheck
  rcases t.findRule v with _ | i
  · exact ⟨t.lastUsed, by simp [hptr], rfl, fun _ => rfl⟩
  · simp only
    split
    · exact ⟨t.lastUsed.set i now, rfl, by simp, by simp⟩
    · exact ⟨t.lastUsed, rfl, rfl, fun _ => rfl⟩

lemma Ok.withStamps (h : Ok T t) (hlen : stamps.length = t.lastUsed.length) :
    Ok T { t with lastUsed := stamps } :=
  { h with stamps := hlen.trans h.stamps }

lemma Ok.withOperand (h : Ok T t) (op : Nat) : Ok T { t with hmcOperand := op } :=
  { h with }

lemma Ok.remap_eq (h : Ok T t) (now v : Nat) :
    ∃ t', t.remap now v = .ok (t.remapCheck v, t') ∧ Ok T t' ∧
      t'.pendingRefills = t.pendingRefills ∧ t'.rules = t.rules ∧ (¬ t.Resident v → t' = t) := by
  obtain ⟨stamps, heq, hlen, hmiss⟩ := remap_spec now v (h.ptr ▸ T.ptr_ne)
  refine ⟨_, heq, h.withStamps hlen, rfl, rfl, ?_⟩
  intro hres
  rw [hmiss ((findRule_none h.remapped).mpr hres)]

/-! ## Replacement -/

lemma lruIndex_spec (hlen : 2 ≤ stamps.length) :
    1 ≤ lruIndex stamps ∧ lruIndex stamps < stamps.length ∧
      ∀ k, 1 ≤ k → k < stamps.length → stamps.getD (lruIndex stamps) 0 ≤ stamps.getD k 0 := by
  obtain ⟨j, hj, heq, hmin⟩ :=
    Lists.foldl_min (fun i => stamps.getD i 0) (range' 1 (stamps.length - 1)) 1
  have hmem : ∀ k, k ∈ 1 :: range' 1 (stamps.length - 1) ↔ 1 ≤ k ∧ k < stamps.length := by
    intro k
    rw [mem_cons, mem_range'_1]
    omega
  have hlru : lruIndex stamps = j := by
    unfold lruIndex
    rw [heq]
  rw [hlru]
  exact ⟨((hmem j).mp hj).1, ((hmem j).mp hj).2, fun k h1 h2 => hmin k ((hmem k).mpr ⟨h1, h2⟩)⟩

lemma rules_evict : t.evict.rules = t.rules.eraseIdx (lruIndex t.lastUsed) :=
  Lists.zip_eraseIdx _ _ _

lemma rules_push (hlen : t.remappedRanges.length = t.originalRanges.length) :
    (t.push now s).rules = t.rules ++ [ruleOf s] :=
  zip_append hlen.symm

lemma Ok.evict (h : Ok T t) (hlen : 2 ≤ t.originalRanges.length) : Ok T t.evict := by
  obtain ⟨hone, hlt, -⟩ := lruIndex_spec (show 2 ≤ t.lastUsed.length by rw [h.stamps]; exact hlen)
  rw [h.stamps] at hlt
  refine ⟨?_, ?_, h.ptr, h.vstart, ?_⟩
  · unfold Tlb.evict
    simp only
    rw [length_eraseIdx_of_lt (by rw [h.remapped]; exact hlt),
      length_eraseIdx_of_lt hlt, h.remapped]
  · unfold Tlb.evict
    simp only
    rw [length_eraseIdx_of_lt (by rw [h.stamps]; exact hlt),
      length_eraseIdx_of_lt hlt, h.stamps]
  · obtain ⟨dyn, hrules, hdyn⟩ := h.rules
    obtain ⟨j, hj⟩ := Nat.exists_eq_add_of_le' hone
    refine ⟨dyn.eraseIdx j, ?_, fun r hr => hdyn r (mem_of_mem_eraseIdx hr)⟩
    rw [rules_evict, hrules, hj, eraseIdx_cons_succ]

lemma Ok.push (h : Ok T t) (hk : k < T.pages) : Ok T (t.push now (T.entry k)) := by
  refine ⟨?_, ?_, h.ptr, h.vstart, ?_⟩
  · simp [Tlb.push, h.remapped]
  · simp [Tlb.push, h.stamps]
  · obtain ⟨dyn, hrules, hdyn⟩ := h.rules
    refine ⟨dyn ++ [ruleOf (T.entry k)], ?_, ?_⟩
    · rw [rules_push h.remapped, hrules, cons_append]
    · intro r hr
      rcases mem_append.mp hr with hr | hr
      · exact hdyn r hr
      · exact ⟨k, hk, mem_singleton.mp hr⟩

lemma Ok.updateTLB (h : Ok T t) (hsize : 2 ≤ p.tlbSize) (hk : k < T.pages) :
    Ok T (t.updateTLB p now (T.entry k)) := by
  unfold Tlb.updateTLB
  split
  · exact (h.evict (by omega)).push hk
  · exact h.push hk

lemma resident_push (hlen : t.remappedRanges.length = t.originalRanges.length)
    (hk : k < T.pages) (hv : (T.entry k).covers v) : (t.push now (T.entry k)).Resident v := by
  refine ⟨ruleOf (T.entry k), ?_, (ruleOf_contains hk).mpr hv⟩
  rw [rules_push hlen]
  simp

lemma Ok.updateTLB_resident (h : Ok T t) (hsize : 2 ≤ p.tlbSize) (hk : k < T.pages)
    (hv : (T.entry k).covers v) : (t.updateTLB p now (T.entry k)).Resident v := by
  unfold Tlb.updateTLB
  split
  · exact resident_push (h.evict (by omega)).remapped hk hv
  · exact resident_push h.remapped hk hv

lemma Ok.updateTLB_keeps (h : Ok T t) (hsize : 2 ≤ p.tlbSize) (hres : t.Resident v)
    (hkeep : p.tlbSize ≤ t.originalRanges.length → t.evict.Resident v) :
    (t.updateTLB p now s).Resident v := by
  unfold Tlb.updateTLB
  split
  · rename_i hfull
    obtain ⟨r, hr, hc⟩ := hkeep hfull
    refine ⟨r, ?_, hc⟩
    rw [rules_push (h.evict (by omega)).remapped]
    exact mem_append_left _ hr
  · obtain ⟨r, hr, hc⟩ := hres
    refine ⟨r, ?_, hc⟩
    rw [rules_push h.remapped]
    exact mem_append_left _ hr

lemma updateTLB_pending : (t.updateTLB p now s).pendingRefills = t.pendingRefills := by
  unfold Tlb.updateTLB
  split <;> rfl

lemma updateTLB_operand (o : Nat) (s : Slice) :
    { t with hmcOperand := o }.updateTLB p now s = { t.updateTLB p now s with hmcOperand := o } := by
  unfold updateTLB
  change (if p.tlbSize ≤ t.originalRanges.length then _ else _ : Tlb).push now s = _
  split <;> rfl

lemma rules_updateTLB_pending {xs : List Nat} :
    ({ t with pendingRefills := xs }.updateTLB p now s).rules = (t.updateTLB p now s).rules := by
  unfold Tlb.updateTLB
  dsimp only
  split <;> rfl

/-! ## Refills in the region -/

lemma Ok.entryAddr_eq (h : Ok T t) (hv : T.region v) :
    t.entryAddr p v = T.ptr + T.page v * p.length := by
  have hlt : T.page v * p.length + p.length ≤ T.pages * p.length := by
    rw [← succ_mul]
    exact mul_le_mul_right _ (Table.page_lt hv)
  have hlen : 0 < p.length := by
    rw [Table.length_eq]
    cases p.pimArch <;> decide
  have := T.ptr_le
  unfold Tlb.entryAddr
  rw [h.ptr, h.vstart, sub64_of_le hv.1 (lt_of_lt_of_le hv.2 T.vend_le), shiftRight_eq_div_pow]
  exact addr64_of_lt (by unfold Table.page at hlt; omega)

lemma Ok.refillNow_eq (h : Ok T t) (hv : T.region v) {msg : String}
    (hpend : t.entryAddr p v ∉ t.pendingRefills) :
    t.refillNow msg p mem now v = .ok (t.updateTLB p now (T.slice v)) := by
  unfold Tlb.refillNow
  rw [assert_ok (by rw [h.vstart]; exact hv.1), if_neg hpend, h.entryAddr_eq hv]
  rfl

def SameEntries (p : Tlb.Params) (ptr count : Nat) (mem mem' : Memory) : Prop :=
  ∀ k < count, readSlice p.pimArch mem' (ptr + k * p.length) =
    readSlice p.pimArch mem (ptr + k * p.length)

variable {mem' : Memory}

lemma Ok.refillNow_same (h : Ok T t) (hsame : SameEntries p T.ptr T.pages mem mem')
    (hv : T.region v) (msg : String) :
    t.refillNow msg p mem' now v = t.refillNow msg p mem now v := by
  unfold Tlb.refillNow
  rw [h.entryAddr_eq hv, hsame _ (Table.page_lt hv)]

end Tlb

end SmcPim
