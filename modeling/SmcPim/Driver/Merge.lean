import SmcPim.Driver.SliceTable

/-! # What the merging loop reads, writes and stores -/

namespace SmcPim.Driver

open List Nat

variable {b : Build} {mem : List Nat} {count vaddrStart i : Nat}

def Contiguous (b : Build) (mem : List Nat) (k : Nat) : Prop :=
  ∃ x, mem[k]? = some x ∧ mem[k + 1]? = some (b.arch.ulong (x + b.pageSize))

def CountPost (b : Build) (mem : List Nat) (i c : Nat) (r : List Nat × Option Nat) : Prop :=
  match r with
  | (rs, some d) => c ≤ d ∧ (∀ k, i + c ≤ k + 1 → k + 1 < i + d → Contiguous b mem k) ∧
      ¬ Contiguous b mem (i + d - 1) ∧ (∀ j ∈ rs, j ≤ i + d) ∧ i + d ∈ rs
  | (rs, none) => (∀ k, i + c ≤ k + 1 → k + 1 < mem.length → Contiguous b mem k) ∧
      ∃ j ∈ rs, mem.length ≤ j

lemma countContiguous_spec (b : Build) (mem : List Nat) (i fuel c : Nat) (hc : 1 ≤ c)
    (hic : i + c ≤ mem.length) (hf : mem.length < fuel + (i + c)) :
    CountPost b mem i c (countContiguous b mem i fuel c) := by
  induction fuel generalizing c with
  | zero => omega
  | succ fuel ih =>
    have hpre : mem[i + c - 1]? = some mem[i + c - 1] := getElem?_eq_getElem (by omega)
    have hk : i + c - 1 + 1 = i + c := by omega
    unfold countContiguous
    rw [hpre]
    by_cases hlen : i + c < mem.length
    · rw [getElem?_eq_getElem hlen]
      simp only
      split
      · rename_i heq
        have hcont : Contiguous b mem (i + c - 1) :=
          ⟨_, hpre, by rw [hk, heq, getElem?_eq_getElem hlen]⟩
        have hrec := ih (c + 1) (by omega) (by omega) (by omega)
        -- The next round starts one word further, and what it finds extends this run.
        have hext : ∀ m, (∀ k, i + (c + 1) ≤ k + 1 → k + 1 < m → Contiguous b mem k) →
            ∀ k, i + c ≤ k + 1 → k + 1 < m → Contiguous b mem k := by
          intro m h k h1 h2
          rcases lt_or_ge k (i + c) with hlt | hge
          · rw [show k = i + c - 1 by omega]; exact hcont
          · exact h k (by omega) h2
        rcases hr : countContiguous b mem i fuel (c + 1) with ⟨rs, _ | d⟩
        · rw [hr] at hrec
          obtain ⟨hall, j, hj, hjl⟩ := hrec
          exact ⟨hext _ hall, j, by simp [hj], hjl⟩
        · rw [hr] at hrec
          obtain ⟨hcd, hall, hstop, hle, hmem⟩ := hrec
          refine ⟨by omega, hext _ hall, hstop, ?_, by simp [hmem]⟩
          intro j hj
          simp only [mem_cons] at hj
          rcases hj with rfl | rfl | hj
          · omega
          · omega
          · exact hle j hj
      · rename_i hne
        refine ⟨le_refl _, fun k h1 h2 => by omega, ?_, by simp, by simp⟩
        rintro ⟨x, hx, hy⟩
        rw [hpre, Option.some.injEq] at hx
        rw [hk, getElem?_eq_getElem hlen, Option.some.injEq] at hy
        exact hne (by rw [hx, hy])
    · rw [getElem?_eq_none (by omega)]
      exact ⟨fun k h1 h2 => by omega, i + c, by simp, by omega⟩

/-! ## The slice of one run -/

structure Run (b : Build) (mem : List Nat) (s d : Nat) : Prop where
  pos : 1 ≤ d
  contiguous : ∀ k, s ≤ k → k + 1 < s + d → Contiguous b mem k

variable {k s d o : Nat}

lemma runAt_spec (hi : i < count) (hcount : count ≤ mem.length) (hk : count - 2 ≤ k)
    (hkc : k < count)
    (hstop : b.mergeSlices → i < count - 1 → k + 1 < mem.length ∧ ¬ Contiguous b mem k) :
    ∃ rs d, runAt b mem count i = (rs, some d) ∧ Run b mem i d ∧ i + d ≤ count ∧
      ∀ j ∈ rs, 2 ≤ count ∧ j ≤ k + 1 := by
  unfold runAt
  split
  · rename_i h
    obtain ⟨hlen, hne⟩ := hstop h.1 h.2
    have hspec := countContiguous_spec b mem i mem.length 1 (le_refl _)
      (by omega) (by omega)
    rcases hr : countContiguous b mem i mem.length 1 with ⟨rs, _ | d⟩
    · rw [hr] at hspec
      exact absurd (hspec.1 k (by omega) hlen) hne
    · rw [hr] at hspec
      obtain ⟨hd, hall, -, hle, -⟩ := hspec
      have hend : i + d ≤ k + 1 := by
        by_contra hlt
        exact hne (hall k (by omega) (by omega))
      exact ⟨rs, d, rfl, ⟨hd, fun m h1 h2 => hall m (by omega) h2⟩, by omega,
        fun j hj => ⟨by omega, (hle j hj).trans hend⟩⟩
  · exact ⟨[], 1, rfl, ⟨le_refl _, fun m h1 h2 => by omega⟩, by omega, by simp⟩

lemma Run.phys (h : Run b mem s d) (m : Nat) (hm : m < d) :
    b.arch.ulong (mem.getD (s + m) 0) = b.arch.ulong (mem.getD s 0 + b.pageSize * m) := by
  induction m with
  | zero => rfl
  | succ m ih =>
    obtain ⟨x, hx, hy⟩ := h.contiguous (s + m) (by omega) (by omega)
    have hprev := ih (by omega)
    rw [getD_eq_getElem?_getD, hx, Option.getD_some] at hprev
    rw [← add_assoc, getD_eq_getElem?_getD, hy, Option.getD_some, Arch.ulong_ulong,
      ← Arch.ulong_add_left, hprev, Arch.ulong_add_left, mul_succ, add_assoc]

lemma Run.phys_eq (h : Run b mem s d)
    (hlt : ∀ k < s + d, mem.getD k 0 + b.pageSize < 2 ^ b.arch.bits) (m : Nat) (hm : m < d) :
    mem.getD (s + m) 0 = mem.getD s 0 + b.pageSize * m := by
  induction m with
  | zero => rfl
  | succ m ih =>
    obtain ⟨x, hx, hy⟩ := h.contiguous (s + m) (by omega) (by omega)
    have hprev := ih (by omega)
    have hfits := hlt (s + m) (by omega)
    rw [getD_eq_getElem?_getD, hx, Option.getD_some] at hprev hfits
    rw [← add_assoc, getD_eq_getElem?_getD, hy, Option.getD_some,
      Arch.ulong_of_lt hfits, hprev, mul_succ, add_assoc]

def PinnedByte (b : Build) (physicalAddr : List Nat) (a : Nat) : Prop :=
  ∃ page ∈ physicalAddr, ∃ o < b.pageSize, a = b.arch.ulong (page + o)

def RegionByte (b : Build) (physicalAddr : List Nat) (vaddrStart a : Nat) : Prop :=
  ∃ o < b.pageSize * physicalAddr.length, a = b.arch.ulong (vaddrStart + o)

lemma Build.pageSize_pos (b : Build) : 0 < b.pageSize := Nat.two_pow_pos _

variable {pages after : List Nat} {s d : Nat}

section
variable (h : Run b (pages ++ after) s d) (hend : s + d ≤ pages.length) (ho : o < (sliceAt b vaddrStart s d ((pages ++ after).getD s 0)).size)
include h hend ho

lemma Run.byte_phys :
    o / b.pageSize < d ∧
      b.arch.ulong ((pages ++ after).getD s 0 + o) =
        b.arch.ulong (pages.getD (s + o / b.pageSize) 0 + o % b.pageSize) := by
  have hlt : o < b.pageSize * d := lt_of_lt_of_le ho (Arch.ulong_le _ _)
  have hm : o / b.pageSize < d := Nat.div_lt_of_lt_mul hlt
  have hpage := h.phys (o / b.pageSize) hm
  rw [getD_append _ _ _ _ (show s + o / b.pageSize < pages.length by omega)] at hpage
  refine ⟨hm, ?_⟩
  calc b.arch.ulong ((pages ++ after).getD s 0 + o)
      = b.arch.ulong ((pages ++ after).getD s 0 + b.pageSize * (o / b.pageSize)
          + o % b.pageSize) := by rw [add_assoc, div_add_mod]
    _ = b.arch.ulong (pages.getD (s + o / b.pageSize) 0 + o % b.pageSize) := by
      rw [← Arch.ulong_add_left, ← hpage, Arch.ulong_add_left]

lemma Run.pinnedByte : PinnedByte b pages (b.arch.ulong ((pages ++ after).getD s 0 + o)) := by
  obtain ⟨hm, heq⟩ := h.byte_phys hend ho
  have hlt : s + o / b.pageSize < pages.length := by omega
  refine ⟨pages.getD (s + o / b.pageSize) 0, ?_, _, mod_lt _ b.pageSize_pos, heq⟩
  rw [getD_eq_getElem _ _ hlt]
  exact getElem_mem hlt

end

lemma sliceAt_regionByte (hend : s + d ≤ pages.length) {paddr : Nat}
    (ho : o < (sliceAt b vaddrStart s d paddr).size) :
    RegionByte b pages vaddrStart (b.arch.ulong ((sliceAt b vaddrStart s d paddr).vaddr + o)) := by
  have hlt : o < b.pageSize * d := lt_of_lt_of_le ho (Arch.ulong_le _ _)
  have hle : b.pageSize * (s + d) ≤ b.pageSize * pages.length := mul_le_mul_left _ hend
  rw [mul_add] at hle
  exact ⟨b.pageSize * s + o, by omega, by simp [sliceAt, add_assoc]⟩

/-! ## The whole table -/

def FromRun (b : Build) (mem : List Nat) (count vaddrStart : Nat) (writes : List (Nat × Slice))
    (w : Nat × Slice) : Prop :=
  ∃ s d, Run b mem s d ∧ s + d ≤ count ∧ s ≤ w.1 ∧ w.1 < s + d ∧
    w.2 = sliceAt b vaddrStart s d (mem.getD s 0) ∧ ∀ k, s ≤ k → k < s + d → (k, w.2) ∈ writes

structure Merged (b : Build) (mem : List Nat) (count vaddrStart last i : Nat) (log : MergeLog) :
    Prop where
  finished : log.finished = true
  reads : ∀ r ∈ log.reads, r < count ∨ 2 ≤ count ∧ r ≤ last
  indices : log.writes.map Prod.fst = List.range' i (count - i)
  slices : ∀ w ∈ log.writes, FromRun b mem count vaddrStart log.writes w

lemma FromRun.mono {ws ws' : List (Nat × Slice)} {w : Nat × Slice} (hsub : ws ⊆ ws')
    (h : FromRun b mem count vaddrStart ws w) : FromRun b mem count vaddrStart ws' w := by
  obtain ⟨s, d, hrun, hend, h1, h2, heq, hall⟩ := h
  exact ⟨s, d, hrun, hend, h1, h2, heq, fun k hk hk' => hsub (hall k hk hk')⟩

lemma mergeLoop_spec (b : Build) (mem : List Nat) (count vaddrStart : Nat)
    (hcount : count ≤ mem.length) (hk : count - 2 ≤ k) (hkc : k < count)
    (hstop : b.mergeSlices → 2 ≤ count → k + 1 < mem.length ∧ ¬ Contiguous b mem k) :
    ∀ fuel i, i ≤ count → count ≤ fuel + i →
      Merged b mem count vaddrStart (k + 1) i (mergeLoop b mem count vaddrStart fuel i) := by
  intro fuel
  induction fuel with
  | zero =>
    intro i hi hf
    have : i = count := by omega
    exact ⟨rfl, by simp [mergeLoop], by simp [mergeLoop, this], by simp [mergeLoop]⟩
  | succ fuel ih =>
    intro i hi hf
    unfold mergeLoop
    split
    · rename_i hlt
      obtain ⟨rs, d, hr, hrun, hend, hrs⟩ := runAt_spec (i := i) hlt hcount hk hkc
        (fun hm h => hstop hm (by omega))
      have hpos := hrun.pos
      rw [hr]
      obtain ⟨hfin, hreads, hidx, hsl⟩ := ih (i + d) hend (by omega)
      refine ⟨hfin, ?_, ?_, ?_⟩
      · intro r hmem
        simp only [mem_append, mem_replicate] at hmem
        rcases hmem with (h | h) | h
        · exact Or.inr (hrs r h)
        · exact Or.inl (by omega)
        · exact hreads r h
      · rw [map_append, map_map, hidx,
          show Prod.fst ∘ (fun j => (i + j, sliceAt b vaddrStart i d (mem.getD i 0))) =
            fun j => i + j from rfl, ← range'_eq_map_range, range'_append_1]
        congr 1
        omega
      · intro w hw
        rcases mem_append.mp hw with h | h
        · obtain ⟨j, hj, rfl⟩ := mem_map.mp h
          rw [mem_range] at hj
          refine ⟨i, d, hrun, hend, le_add_right _ _, by simp [hj], rfl, ?_⟩
          intro k hk1 hk2
          refine mem_append_left _ (mem_map.mpr ⟨k - i, ?_, ?_⟩)
          · rw [mem_range]; omega
          · rw [Nat.add_sub_cancel' hk1]
        · exact (hsl w h).mono (subset_append_right _ _)
    · have : i = count := by omega
      exact ⟨rfl, by simp, by simp [this], by simp⟩

lemma mergeLoop_reads_past (vaddrStart : Nat) (hm : b.mergeSlices = true)
    (hcount : count ≤ mem.length) (hlast : Contiguous b mem (count - 2)) :
    ∀ fuel i, i + 2 ≤ count → count ≤ fuel + i →
      ∃ r ∈ (mergeLoop b mem count vaddrStart fuel i).reads, count ≤ r := by
  intro fuel
  induction fuel with
  | zero => intro i h1 h2; omega
  | succ fuel ih =>
    intro i hi hf
    have hspec := countContiguous_spec b mem i mem.length 1 (le_refl _)
      (by omega) (by omega)
    unfold mergeLoop runAt
    rw [if_pos (by omega), if_pos ⟨hm, by omega⟩]
    rcases hr : countContiguous b mem i mem.length 1 with ⟨rs, _ | d⟩
    · rw [hr] at hspec
      obtain ⟨-, j, hj, hjl⟩ := hspec
      exact ⟨j, hj, by omega⟩
    · rw [hr] at hspec
      obtain ⟨hd, -, hne, -, hmem⟩ := hspec
      rcases lt_or_ge (i + d) count with hlt | hge
      · have : i + d - 1 ≠ count - 2 := fun h => hne (h ▸ hlast)
        obtain ⟨r, hr, hle⟩ := ih (i + d) (by omega) (by omega)
        exact ⟨r, by simp [hr], hle⟩
      · exact ⟨i + d, by simp [hmem], hge⟩

/-! ## Isolation -/

structure Isolated (b : Build) (physicalAddr : List Nat) (vaddrStart : Nat) (log : MergeLog) :
    Prop where
  reads : ∀ r ∈ log.reads, r < physicalAddr.length
  writes : ∀ w ∈ log.writes, w.1 < physicalAddr.length
  phys : ∀ w ∈ log.writes, ∀ o < w.2.size,
    PinnedByte b physicalAddr (b.arch.ulong (w.2.paddr + o))
  virt : ∀ w ∈ log.writes, ∀ o < w.2.size,
    RegionByte b physicalAddr vaddrStart (b.arch.ulong (w.2.vaddr + o))

lemma contiguous_append_iff (hk : k + 1 < pages.length) : Contiguous b (pages ++ after) k ↔
      pages.getD (k + 1) 0 = b.arch.ulong (pages.getD k 0 + b.pageSize) := by
  unfold Contiguous
  rw [getElem?_append_left (by omega), getElem?_append_left hk,
    getElem?_eq_getElem (by omega), getElem?_eq_getElem hk,
    getD_eq_getElem _ _ hk, getD_eq_getElem _ _ (by omega)]
  simp

/-- The last page follows the page before it in physical memory. -/
def LastPairMerges (b : Build) (pages : List Nat) : Prop :=
  2 ≤ pages.length ∧
    pages.getD (pages.length - 1) 0 =
      b.arch.ulong (pages.getD (pages.length - 2) 0 + b.pageSize)

theorem mergeSlices_isolated_iff (b : Build) (physicalAddr after : List Nat) (vaddrStart : Nat) :
    Isolated b physicalAddr vaddrStart (mergeSlices b physicalAddr after vaddrStart) ↔
      ¬ (b.mergeSlices = true ∧ LastPairMerges b physicalAddr) := by
  have hlast : 2 ≤ physicalAddr.length →
      (Contiguous b (physicalAddr ++ after) (physicalAddr.length - 2) ↔
        LastPairMerges b physicalAddr) := by
    intro h2
    rw [contiguous_append_iff (by omega), show physicalAddr.length - 2 + 1 =
      physicalAddr.length - 1 by omega, LastPairMerges]
    exact (and_iff_right h2).symm
  constructor
  · rintro hiso ⟨hm, hpair⟩
    obtain ⟨r, hr, hle⟩ := mergeLoop_reads_past vaddrStart hm (by simp)
      ((hlast hpair.1).mpr hpair) physicalAddr.length 0 (by have := hpair.1; omega) (by omega)
    exact absurd (hiso.reads r hr) (by omega)
  · intro hsafe
    rcases Nat.eq_zero_or_pos physicalAddr.length with h0 | hpos
    · rw [List.length_eq_zero_iff] at h0
      subst h0
      exact ⟨by simp [mergeSlices, mergeLoop], by simp [mergeSlices, mergeLoop],
        by simp [mergeSlices, mergeLoop], by simp [mergeSlices, mergeLoop]⟩
    · have hmerged := mergeLoop_spec b (physicalAddr ++ after) physicalAddr.length vaddrStart
        (k := physicalAddr.length - 2) (by simp) (le_refl _) (by omega)
        (fun hm h2 => ⟨by simp; omega, fun hc => hsafe ⟨hm, (hlast h2).mp hc⟩⟩)
        physicalAddr.length 0 (Nat.zero_le _) (by omega)
      refine ⟨?_, ?_, ?_, ?_⟩
      · intro r hr
        rcases hmerged.reads r hr with h | h
        · exact h
        · omega
      · intro w hw
        obtain ⟨s, d, -, hend, -, hlt, -⟩ := hmerged.slices w hw
        omega
      · intro w hw o ho
        obtain ⟨s, d, hrun, hend, -, -, heq, -⟩ := hmerged.slices w hw
        rw [heq] at ho ⊢
        exact hrun.pinnedByte hend ho
      · intro w hw o ho
        obtain ⟨s, d, -, hend, -, -, heq, -⟩ := hmerged.slices w hw
        rw [heq] at ho ⊢
        exact sliceAt_regionByte hend ho

def armBuild : Build := ⟨.arm, 12, true⟩

/-- Two neighbouring pages are enough: the second is compared with the word behind the array. -/
theorem mergeSlices_escapes :
    ¬ Isolated armBuild [0x80001000, 0x80002000] 0x10000000
      (mergeSlices armBuild [0x80001000, 0x80002000] [0] 0x10000000) := by
  intro h
  have := h.reads 2 (by decide)
  simp at this

example : (2, ⟨0x10000000, 0x80001000, 0x3000⟩) ∈
    (mergeSlices armBuild [0x80001000, 0x80002000] [0x80003000, 0] 0x10000000).writes := by
  decide

end SmcPim.Driver
