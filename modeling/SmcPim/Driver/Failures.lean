import SmcPim.Driver.Ioctl
import SmcPim.Tlb.EndToEnd

/-! # What the driver reports -/

namespace SmcPim.Driver

open List Nat Arch

variable {b : Build} {pages after : List Nat} {vaddrStart : Nat}

/-! ## A table that describes the pages -/

/-- Each page has its entry, which maps it to itself, and there is no other entry. -/
structure Describes (b : Build) (pages : List Nat) (vaddrStart : Nat) (log : MergeLog) : Prop where
  finished : log.finished = true
  indices : log.writes.map Prod.fst = List.range pages.length
  covers : ∀ w ∈ log.writes, ∃ o < w.2.size,
    b.arch.ulong (w.2.vaddr + o) = b.arch.ulong (vaddrStart + b.pageSize * w.1)
  exact : ∀ w ∈ log.writes, ∀ o < w.2.size, ∃ i < pages.length, ∃ r < b.pageSize,
    b.arch.ulong (w.2.vaddr + o) = b.arch.ulong (vaddrStart + b.pageSize * i + r) ∧
      b.arch.ulong (w.2.paddr + o) = b.arch.ulong (pages.getD i 0 + r)

/-- The last two pages are merged and the word behind the array continues the run, or it cannot be
read. -/
def Continues (b : Build) (pages after : List Nat) : Prop :=
  b.mergeSlices = true ∧ LastPairMerges b pages ∧
    ∀ x ∈ after.head?, x = b.arch.ulong (pages.getD (pages.length - 1) 0 + b.pageSize)

variable {mem phys : List Nat} {d : Nat} {t : Table}

lemma countContiguous_lt {rs : List Nat} {i fuel c : Nat}
    (h : countContiguous b mem i fuel c = (rs, some d)) : i + d < mem.length := by
  induction fuel generalizing c rs with
  | zero => simp [countContiguous] at h
  | succ fuel ih =>
    unfold countContiguous at h
    split at h
    · rename_i x y hx hy
      split at h
      · rcases hr : countContiguous b mem i fuel (c + 1) with ⟨rs', r⟩
        rw [hr] at h
        simp only [Prod.mk.injEq] at h
        obtain ⟨-, rfl⟩ := h
        exact ih hr
      · simp only [Prod.mk.injEq, Option.some.injEq] at h
        obtain ⟨-, rfl⟩ := h
        exact (List.getElem?_eq_some_iff.mp hy).1
    · simp at h

lemma mergeLoop_writes_past {count : Nat} (vaddrStart : Nat) (hm : b.mergeSlices = true)
    (hcount : count ≤ mem.length) (hlast : Contiguous b mem (count - 2))
    (hend : count < mem.length → Contiguous b mem (count - 1)) :
    ∀ fuel i, i + 2 ≤ count → count ≤ fuel + i →
      (mergeLoop b mem count vaddrStart fuel i).finished = false ∨
        ∃ w ∈ (mergeLoop b mem count vaddrStart fuel i).writes, count ≤ w.1 := by
  intro fuel
  induction fuel with
  | zero => intro i h1 h2; omega
  | succ fuel ih =>
    intro i hi hf
    have hspec := countContiguous_spec b mem i mem.length 1 (le_refl _) (by omega) (by omega)
    unfold mergeLoop runAt
    rw [if_pos (by omega), if_pos ⟨hm, by omega⟩]
    rcases hr : countContiguous b mem i mem.length 1 with ⟨rs, _ | d⟩
    · exact .inl rfl
    · rw [hr] at hspec
      obtain ⟨hd, -, hne, -, -⟩ := hspec
      have hlt := countContiguous_lt hr
      have hne2 : i + d - 1 ≠ count - 2 := fun h => hne (h ▸ hlast)
      by_cases hbefore : i + d < count
      · rcases ih (i + d) (by omega) (by omega) with hfin | ⟨w, hw, hle⟩
        · exact .inl hfin
        · exact .inr ⟨w, mem_append_right _ hw, hle⟩
      · have hne1 : i + d - 1 ≠ count - 1 := fun h => hne (h ▸ hend (by omega))
        refine .inr ⟨(i + (count - i), _), mem_append_left _ (mem_map.mpr ⟨count - i, ?_, rfl⟩),
          by simp; omega⟩
        rw [mem_range]
        omega

lemma Run.size_eq {s : Nat} (h : Run b mem s d)
    (hlt : ∀ k < s + d, mem.getD k 0 + b.pageSize < 2 ^ b.arch.bits) :
    b.arch.ulong (b.pageSize * d) = b.pageSize * d := by
  have hpos := h.pos
  have hlast := h.phys_eq hlt (d - 1) (by omega)
  have hfits := hlt (s + (d - 1)) (by omega)
  obtain ⟨e, rfl⟩ : ∃ e, d = e + 1 := ⟨d - 1, by omega⟩
  rw [Nat.add_sub_cancel] at hlast hfits
  apply ulong_of_lt
  rw [Nat.mul_succ]
  omega

lemma Merged.describes {log : MergeLog} {last : Nat}
    (hin : ∀ x ∈ pages, x + b.pageSize < 2 ^ b.arch.bits)
    (h : Merged b (pages ++ after) pages.length vaddrStart last 0 log) :
    Describes b pages vaddrStart log where
  finished := h.finished
  indices := by rw [h.indices, range_eq_range', Nat.sub_zero]
  covers := by
    intro w hw
    obtain ⟨s, d, hrun, hend, hle, hlt, heq, -⟩ := h.slices w hw
    have hget : ∀ k < s + d, (pages ++ after).getD k 0 + b.pageSize < 2 ^ b.arch.bits := by
      intro k hk
      rw [getD_append _ _ _ _ (by omega), getD_eq_getElem _ _ (by omega)]
      exact hin _ (getElem_mem _)
    have hsize : w.2.size = b.pageSize * d := by
      rw [heq]
      exact hrun.size_eq hget
    refine ⟨b.pageSize * (w.1 - s), ?_, ?_⟩
    · rw [hsize]
      exact mul_lt_mul_of_pos_left (by omega) b.pageSize_pos
    · rw [heq]
      dsimp only [sliceAt]
      rw [ulong_add_left, add_assoc, ← mul_add]
      congr 3
      omega
  exact := by
    intro w hw o ho
    obtain ⟨s, d, hrun, hend, -, -, heq, -⟩ := h.slices w hw
    rw [heq] at ho ⊢
    obtain ⟨hm, hphys⟩ := hrun.byte_phys hend ho
    refine ⟨s + o / b.pageSize, by omega, o % b.pageSize, mod_lt _ b.pageSize_pos, ?_, hphys⟩
    dsimp only [sliceAt]
    rw [ulong_add_left, mul_add, add_assoc, add_assoc, add_assoc,
      div_add_mod]

lemma contiguous_last (h2 : 2 ≤ pages.length) :
    Contiguous b (pages ++ after) (pages.length - 2) ↔ LastPairMerges b pages := by
  rw [contiguous_append_iff (by omega), show pages.length - 2 + 1 = pages.length - 1 by omega,
    LastPairMerges]
  exact (and_iff_right h2).symm

lemma contiguous_behind (h1 : 1 ≤ pages.length) :
    Contiguous b (pages ++ after) (pages.length - 1) ↔
      after.head? = some (b.arch.ulong (pages.getD (pages.length - 1) 0 + b.pageSize)) := by
  unfold Contiguous
  rw [getElem?_append_left (by omega), Nat.sub_add_cancel h1,
    getElem?_append_right (le_refl _), Nat.sub_self, getElem?_eq_getElem (by omega),
    getD_eq_getElem _ _ (by omega), head?_eq_getElem?]
  simp

lemma exists_stop (hpos : 0 < pages.length) (h : ¬ Continues b pages after) :
    ∃ k, pages.length - 2 ≤ k ∧ k < pages.length ∧ (b.mergeSlices → 2 ≤ pages.length →
      k + 1 < (pages ++ after).length ∧ ¬ Contiguous b (pages ++ after) k) := by
  by_cases hpair : LastPairMerges b pages
  · refine ⟨pages.length - 1, by omega, by omega, ?_⟩
    intro hm h2
    have hnext : ¬ ∀ x ∈ after.head?,
        x = b.arch.ulong (pages.getD (pages.length - 1) 0 + b.pageSize) :=
      fun hall => h ⟨hm, hpair, hall⟩
    cases after with
    | nil => exact absurd (by simp) hnext
    | cons x after =>
      refine ⟨by simp; omega, fun hc => hnext ?_⟩
      rw [contiguous_behind hpos] at hc
      rintro y hy
      exact Option.some.inj (hy.symm.trans hc)
  · refine ⟨pages.length - 2, le_refl _, by omega, ?_⟩
    intro _ h2
    exact ⟨by simp; omega, fun hc => hpair ((contiguous_last h2).mp hc)⟩

lemma merged_of_not_continues (vaddrStart : Nat) (hpos : 0 < pages.length)
    (h : ¬ Continues b pages after) :
    ∃ last, Merged b (pages ++ after) pages.length vaddrStart last 0
      (mergeSlices b pages after vaddrStart) := by
  obtain ⟨k, hk, hkc, hstop⟩ := exists_stop hpos h
  exact ⟨k + 1, mergeLoop_spec b (pages ++ after) pages.length vaddrStart (by simp) hk hkc hstop
    pages.length 0 (zero_le _) (by omega)⟩

lemma describes_iff (hin : ∀ x ∈ pages, x + b.pageSize < 2 ^ b.arch.bits) :
    Describes b pages vaddrStart (mergeSlices b pages after vaddrStart) ↔
      ¬ Continues b pages after := by
  constructor
  · rintro hdesc ⟨hm, hpair, hnext⟩
    have h2 := hpair.1
    have hcont : pages.length < (pages ++ after).length →
        Contiguous b (pages ++ after) (pages.length - 1) := by
      intro hlt
      rw [contiguous_behind (by omega)]
      cases after with
      | nil => simp at hlt
      | cons x after =>
        rw [head?_cons]
        exact congrArg some (hnext x rfl)
    rcases mergeLoop_writes_past vaddrStart hm (by simp) ((contiguous_last h2).mpr hpair) hcont
      pages.length 0 (by omega) (by omega) with hfin | ⟨w, hw, hle⟩
    · exact absurd hdesc.finished (by rw [mergeSlices, hfin]; simp)
    · have hmem : w.1 ∈ range pages.length := by
        rw [← hdesc.indices]
        exact mem_map_of_mem hw
      rw [mem_range] at hmem
      omega
  · intro hnot
    rcases Nat.eq_zero_or_pos pages.length with h0 | hpos
    · rw [length_eq_zero_iff] at h0
      subst h0
      exact ⟨rfl, rfl, by simp [mergeSlices, mergeLoop], by simp [mergeSlices, mergeLoop]⟩
    · obtain ⟨last, hmerged⟩ := merged_of_not_continues vaddrStart hpos hnot
      exact hmerged.describes hin

variable {debug : Bool} {K : Kernel b} {c : Call} {addr n : BitVec b.arch.bits}

lemma createSliceTable_table (hc : c.table = none) :
    (createSliceTable debug K vaddrStart c).1.table = some t ↔
      (kmalloc (b.arch.ulong (c.pages.count * b.arch.bytes)) K.physAllocated = true ∨
        debug = false ∧ c.pages.count = 0) ∧
      ∃ phys paddr, pagePhys c.pages = .ok phys ∧
        K.getFreePages (pageOrder (b.arch.ulong (c.pages.count * sizeofSlice b.arch))) = some paddr ∧
        (mergeSlices b phys K.after vaddrStart).finished = true ∧
        ¬ (debug = true ∧ c.pages.count = 0) ∧
        t = ⟨pimCreateSliceTable b phys K.after vaddrStart paddr K.mem, b.arch.ulong c.pages.count,
          mergeSlices b phys K.after vaddrStart⟩ := by
  unfold createSliceTable
  dsimp only
  split
  · rename_i h
    simp [hc, h.1, h.2]
  · rename_i hdebug
    split
    · rename_i h
      simp [hc, h.1, h.2]
    · rename_i hcount
      have hphys : kmalloc (b.arch.ulong (c.pages.count * b.arch.bytes)) K.physAllocated = true ∨
          debug = false ∧ c.pages.count = 0 := by
        by_cases hk : kmalloc (b.arch.ulong (c.pages.count * b.arch.bytes)) K.physAllocated = true
        · exact .inl hk
        · rw [Bool.not_eq_true] at hk
          exact .inr ⟨by simpa [hk] using hdebug, by simpa [hk] using hcount⟩
      rw [and_iff_right hphys]
      split
      · rename_i e h
        simp [hc, h]
      · rename_i phys h
        split
        · rename_i hnone
          split <;> simp [hc, hnone]
        · rename_i paddr hsome
          split
          · rename_i hfin
            simp [hc, h, hfin]
          · rename_i hfin
            rw [Bool.not_eq_false] at hfin
            split
            · rename_i hzero
              simp [hc, hzero]
            · rename_i hzero
              constructor
              · intro ht
                exact ⟨phys, paddr, h, hsome, hfin, hzero, (Option.some.inj ht).symm⟩
              · rintro ⟨phys', paddr', h', hsome', -, -, rfl⟩
                obtain rfl := Except.ok.inj (h.symm.trans h')
                obtain rfl := Option.some.inj (hsome.symm.trans hsome')
                rfl

lemma createSliceTable_ok (hc : c.table = none)
    (h : (createSliceTable debug K vaddrStart c).1.table = some t) :
    (createSliceTable debug K vaddrStart c).2 = .ok 0 := by
  obtain ⟨hphys, phys, paddr, hpages, hpaddr, hfin, hzero, -⟩ := (createSliceTable_table hc).mp h
  unfold createSliceTable
  dsimp only
  rw [if_neg, if_neg, hpages, hpaddr]
  · dsimp only
    rw [if_neg (by simp [hfin]), if_neg hzero]
  · rintro ⟨hk, hne⟩
    rcases hphys with hphys | hphys
    · simp [hk] at hphys
    · exact hne hphys.2
  · rintro ⟨hk, hdebug⟩
    rcases hphys with hphys | hphys
    · simp [hk] at hphys
    · simp [hdebug] at hphys

/-! ## One range -/

def request (addr n : BitVec b.arch.bits) : Nat → BitVec b.arch.bits
  | 0 => 2
  | 1 => addr
  | 2 => n
  | _ => 0

inductive Report
  | unsuccessful
  | error (success : Int)
  | offloaded

def offloadTask (success : Int) : Report :=
  if success = 0 then .unsuccessful else if success < 0 then .error success else .offloaded

/-- All requested pages are pinned, and the registers hold a table of exactly them. -/
structure Published.OfRange (b : Build) (addr n : Nat) (c : Call) (phys : List Nat) (t : Table) : Prop where
  pins : c.pins = [⟨addr, n, some phys⟩]
  pinned : phys.length = n
  table : c.table = some t
  count : t.pimSlicecount = n
  vstart : 0 < n → t.pimSlicevstart = addr
  stored : ∃ mem, t.mem = storeTable b.arch t.pimSlicetable t.log.writes mem
  describes : Describes b phys addr t.log

/-- A positive answer for such a table, and a negative one else, of which the host hears. -/
def Reported (b : Build) (addr n : Nat) (result : Call × Except Fault Int) : Prop :=
  ∃ v, result.2 = .ok v ∧
    (0 < v ∧ offloadTask v = .offloaded ∧ (∃ phys t, Published.OfRange b addr n result.1 phys t) ∨
      v < 0 ∧ offloadTask v = .error v)

/-- No allocation fails, all pages are pinned, the count fits an `unsigned`, and the merging stops
in time. -/
structure Succeeds (debug : Bool) (K : Kernel b) (n : Nat) : Prop where
  list : kmalloc (b.arch.ulong (n * b.arch.bytes)) (K.listAllocated 0) = true
  pinned : (K.getUserPages 0).phys.length = n
  count : n < 2 ^ 32
  phys : kmalloc (b.arch.ulong (n * b.arch.bytes)) K.physAllocated = true
  table : (K.getFreePages (pageOrder (b.arch.ulong (n * sizeofSlice b.arch)))).isSome = true
  merged : ¬ Continues b (K.getUserPages 0).phys K.after
  debug : ¬ (debug = true ∧ n = 0)

def pinnedRange (K : Kernel b) (pages : Pages) (addr n : BitVec b.arch.bits) : Call :=
  { (pimGetUserPages K 0 addr.toNat n.toNat ⟨pages, 3, [0, 1, 2], [], none⟩).1 with
    reads := [0, 1, 2, 1] }

lemma request_zero : (request addr n 0).toNat = 2 := by
  have h : ∀ a : Arch, (2 : BitVec a.bits).toNat = 2 := by
    intro a
    cases a <;> rfl
  exact h b.arch

lemma pimIoctl_request (debug : Bool) (addr n : BitVec b.arch.bits) (pages : Pages)
    (hok : K.accessOk = true) (hacc : 3 ≤ K.accessible) :
    ∃ r, pimIoctl debug K (request addr n) (.start pages) =
        ((createSliceTable debug K addr.toNat (pinnedRange K pages addr n)).1, r) ∧
      ((∃ e, (createSliceTable debug K addr.toNat (pinnedRange K pages addr n)).2 = .error e ∧ r = .error e) ∨
        r = .ok 1) := by
  have hrej : ¬ Rejected K (request addr n 0).toNat := by
    rw [request_zero]
    unfold Rejected pimIoctlMaxArgs
    rintro (h | h | h | h)
    · simp [hok] at h
    · omega
    · omega
    · omega
  have hulong : b.arch.ulong (2 + 1) = 3 := ulong_of_lt (lt_trans (by decide) (maxArgs_lt b.arch))
  obtain ⟨pages', pin, r, hpin⟩ :=
    pimGetUserPages_eq (K := K) 0 addr.toNat n.toNat ⟨pages, 3, [0, 1, 2], [], none⟩
  have hranges : getRanges K (request addr n) 1 0 ⟨pages, 3, [0], [], none⟩ =
      ((pimGetUserPages K 0 addr.toNat n.toNat ⟨pages, 3, [0, 1, 2], [], none⟩).1, .ok ()) := by
    unfold getRanges
    rw [Ioctl.bind_ok _ (ioctlArg_lt (by decide) _), Ioctl.bind_ok _ (ioctlArg_lt (by decide) _)]
    refine (Ioctl.bind_ok _ hpin).trans ?_
    rw [hpin]
    rfl
  have hread : ioctlArg K (request addr n) 1
      (pimGetUserPages K 0 addr.toNat n.toNat ⟨pages, 3, [0, 1, 2], [], none⟩).1 =
      (pinnedRange K pages addr n, .ok addr.toNat) := by
    rw [ioctlArg_lt (by decide), pinnedRange, hpin]
    rfl
  have hcall : allocateData debug K (request addr n) 2 ⟨pages, max 1 3, [0], [], none⟩ =
      (createSliceTable debug K addr.toNat >>= fun _ => pure 1) (pinnedRange K pages addr n) :=
    (Ioctl.bind_ok _ hranges).trans (Ioctl.bind_ok _ hread)
  rw [pimIoctl_accepted pages hrej, request_zero, hulong, hcall, Ioctl.bind_apply]
  split
  · rename_i c' a h
    exact ⟨.ok 1, by rw [h]; rfl, .inr rfl⟩
  · rename_i c' e h
    exact ⟨.error e, by rw [h], .inl ⟨e, by rw [h], rfl⟩⟩

lemma pinnedRange_table (pages : Pages) : (pinnedRange K pages addr n).table = none := by
  obtain ⟨pages', pin, r, h⟩ :=
    pimGetUserPages_eq (K := K) 0 addr.toNat n.toNat ⟨pages, 3, [0, 1, 2], [], none⟩
  rw [pinnedRange, h]

lemma pinnedRange_pins (pages : Pages) :
    (pinnedRange K pages addr n).pins = [⟨addr.toNat, n.toNat, some phys⟩] ↔
      kmalloc (b.arch.ulong (n.toNat * b.arch.bytes)) (K.listAllocated 0) = true ∧
        (K.getUserPages 0).phys = phys := by
  unfold pinnedRange pimGetUserPages
  split
  · rename_i h
    dsimp only
    split <;> simp [h]
  · rename_i h
    simp [h]

lemma pinnedRange_pages (pages : Pages)
    (hlist : kmalloc (b.arch.ulong (n.toNat * b.arch.bytes)) (K.listAllocated 0) = true)
    (hlen : (K.getUserPages 0).phys.length = n.toNat) :
    (pinnedRange K pages addr n).pages =
      ⟨some fun k => (K.getUserPages 0).phys.getD k (K.heap k), n.toNat % 2 ^ 32⟩ := by
  have hresult : (K.getUserPages 0).result n.toNat = n.toNat := by
    unfold Pinned.result
    rw [if_neg, hlen, ulong_of_lt n.isLt]
    rintro ⟨hnil, hne⟩
    rw [hnil] at hlen
    exact hne hlen.symm
  unfold pinnedRange pimGetUserPages
  rw [if_pos hlist]
  dsimp only
  rw [if_neg (not_not.mpr hresult)]

lemma pagePhys_pinned {b : Build} (g : Pinned b) (heap : Nat → Nat) :
    pagePhys ⟨some fun k => g.phys.getD k (heap k), g.phys.length⟩ = .ok g.phys := by
  refine congrArg Except.ok (ext_getElem (by simp) fun i h₁ h₂ => ?_)
  simp [h₂]

lemma pimSlicevstart_eq {paddr : Nat} (hin : ∀ x ∈ pages, x + b.pageSize < 2 ^ b.arch.bits)
    (hpos : 0 < pages.length) (h : ¬ Continues b pages after) (mem : Memory) :
    (pimCreateSliceTable b pages after addr.toNat paddr mem).pimSlicevstart = addr.toNat := by
  obtain ⟨last, hmerged⟩ := merged_of_not_continues addr.toNat hpos h
  have hidx := hmerged.indices
  have hfirst : 0 ∈ (mergeSlices b pages after addr.toNat).writes.map Prod.fst := by
    rw [hidx, mem_range'_1]
    omega
  obtain ⟨w, hw, hw0⟩ := mem_map.mp hfirst
  obtain ⟨s, d, hrun, hend, hle, -, heq, -⟩ := hmerged.slices w hw
  obtain rfl : s = 0 := by omega
  have hfits : w.2.Fits b.arch := by
    rw [heq]
    refine ⟨ulong_lt _ _, ?_, ulong_lt _ _⟩
    dsimp only [sliceAt]
    rw [getD_append _ _ _ _ hpos, getD_eq_getElem _ _ hpos]
    have := hin _ (getElem_mem hpos)
    omega
  have hmem : (0, w.2) ∈ (mergeSlices b pages after addr.toNat).writes := by
    rw [← hw0]
    exact hw
  have hnodup : ((mergeSlices b pages after addr.toNat).writes.map Prod.fst).Nodup := by
    rw [hidx]
    exact nodup_range' ..
  have hread : readSlice b.arch (storeTable b.arch paddr _ mem) (paddr + 0 * sizeofSlice b.arch) = w.2 :=
    readSlice_storeTable mem hnodup hfits hmem
  have hvaddr := congrArg Slice.vaddr hread
  rw [heq, zero_mul, add_zero] at hvaddr
  refine hvaddr.trans ?_
  dsimp only [sliceAt]
  rw [mul_zero, add_zero, ulong_of_lt addr.isLt]

lemma createSliceTable_pins (c : Call) :
    (createSliceTable debug K vaddrStart c).1.pins = c.pins := by
  obtain ⟨table, h⟩ := createSliceTable_fst debug K vaddrStart c
  rw [h]

lemma Published.OfRange.succeeds {pages : Pages} (h : Published.OfRange b addr.toNat n.toNat
      (createSliceTable debug K addr.toNat (pinnedRange K pages addr n)).1 phys t) :
    Succeeds debug K n.toNat := by
  have hpins := h.pins
  rw [createSliceTable_pins, pinnedRange_pins] at hpins
  obtain ⟨hlist, rfl⟩ := hpins
  obtain ⟨hphys, phys, paddr, hpages, hpaddr, hfin, hdebug, rfl⟩ :=
    (createSliceTable_table (pinnedRange_table pages)).mp h.table
  rw [pinnedRange_pages pages hlist h.pinned] at hphys hpages hpaddr hdebug
  have hcount := h.count
  rw [pinnedRange_pages pages hlist h.pinned] at hcount
  have hlt : n.toNat < 2 ^ 32 := by
    have hle := ulong_le b.arch (n.toNat % 2 ^ 32)
    have hmod : n.toNat % 2 ^ 32 < 2 ^ 32 := mod_lt _ (by decide)
    dsimp only at hcount
    omega
  dsimp only at hphys hpages hpaddr hdebug
  rw [mod_eq_of_lt hlt] at hphys hpages hpaddr hdebug
  rw [← h.pinned, pagePhys_pinned] at hpages
  obtain rfl := Except.ok.inj hpages
  refine ⟨hlist, h.pinned, hlt, ?_, ?_, (describes_iff (K.getUserPages 0).inMemory).mp h.describes, hdebug⟩
  · rcases hphys with hphys | ⟨-, h0⟩
    · exact hphys
    · rw [h0]
      simp [kmalloc, ulong]
  · rw [hpaddr]
    rfl

lemma Succeeds.published (h : Succeeds debug K n.toNat) (pages : Pages)
    (addr : BitVec b.arch.bits) :
    (createSliceTable debug K addr.toNat (pinnedRange K pages addr n)).2 = .ok 0 ∧
      ∃ phys t, Published.OfRange b addr.toNat n.toNat
        (createSliceTable debug K addr.toNat (pinnedRange K pages addr n)).1 phys t := by
  obtain ⟨paddr, hpaddr⟩ := Option.isSome_iff_exists.mp h.table
  have hin := (K.getUserPages 0).inMemory
  have hdesc : Describes b (K.getUserPages 0).phys addr.toNat
      (mergeSlices b (K.getUserPages 0).phys K.after addr.toNat) := (describes_iff hin).mpr h.merged
  have hpages : (pinnedRange K pages addr n).pages =
      ⟨some fun k => (K.getUserPages 0).phys.getD k (K.heap k), n.toNat⟩ := by
    rw [pinnedRange_pages pages h.list h.pinned, mod_eq_of_lt h.count]
  have htable : (createSliceTable debug K addr.toNat (pinnedRange K pages addr n)).1.table =
      some ⟨pimCreateSliceTable b (K.getUserPages 0).phys K.after addr.toNat paddr K.mem,
        b.arch.ulong n.toNat, mergeSlices b (K.getUserPages 0).phys K.after addr.toNat⟩ := by
    rw [createSliceTable_table (pinnedRange_table pages), hpages]
    refine ⟨.inl h.phys, (K.getUserPages 0).phys, paddr, ?_, hpaddr, hdesc.finished, h.debug, rfl⟩
    rw [← h.pinned, pagePhys_pinned]
  refine ⟨createSliceTable_ok (pinnedRange_table pages) htable, _, _, ?_, h.pinned, htable, ?_, ?_, ?_,
    hdesc⟩
  · rw [createSliceTable_pins, pinnedRange_pins]
    exact ⟨h.list, rfl⟩
  · exact ulong_of_lt n.isLt
  · intro hpos
    exact pimSlicevstart_eq hin (h.pinned ▸ hpos) h.merged K.mem
  · exact ⟨K.mem, rfl⟩

/-- The driver reports what happened exactly if it cannot copy the arguments or nothing fails. -/
theorem failures_reported_iff (debug : Bool) (K : Kernel b) (pages : Pages)
    (addr n : BitVec b.arch.bits) :
    Reported b addr.toNat n.toNat (pimIoctl debug K (request addr n) (.start pages)) ↔
      K.accessOk = false ∨ K.accessible < 3 ∨ Succeeds debug K n.toNat := by
  by_cases hcopy : K.accessOk = false ∨ K.accessible < 3
  · have hrej : Rejected K (request addr n 0).toNat := by
      rw [request_zero]
      rcases hcopy with hok | hacc
      · exact .inl hok
      · exact .inr (.inr (.inr ⟨by decide, hacc⟩))
    obtain ⟨copied, reads, hrun, -⟩ := pimIoctl_rejected debug pages hrej
    rw [hrun, ← or_assoc]
    exact iff_of_true ⟨-efault, rfl, .inr ⟨by decide, rfl⟩⟩ (.inl hcopy)
  · rw [← or_assoc, or_iff_right hcopy]
    push Not at hcopy
    obtain ⟨r, hrun, hr⟩ := pimIoctl_request debug addr n pages
      (Bool.eq_true_of_not_eq_false hcopy.1) hcopy.2
    rw [hrun]
    constructor
    · rintro ⟨v, hv, ⟨-, -, phys, t, hpub⟩ | ⟨hneg, -⟩⟩
      · exact hpub.succeeds
      · rcases hr with ⟨e, -, rfl⟩ | rfl
        · simp at hv
        · obtain rfl := Except.ok.inj hv
          omega
    · intro hsucc
      obtain ⟨hok, phys, t, hpub⟩ := hsucc.published pages addr
      rcases hr with ⟨e, he, -⟩ | rfl
      · exact absurd (hok.symm.trans he) (by simp)
      · exact ⟨1, rfl, .inl ⟨by decide, rfl, phys, t, hpub⟩⟩

/-- Nothing is pinned, and the driver answers 1. -/
theorem unpinned_is_reported_as_success :
    ¬ Reported ⟨.arm64, 12, true⟩ 0x10000000 3
      (pimIoctl false obliging (request 0x10000000 3) (.start ⟨none, 0⟩)) := by
  have hpins : (pimIoctl false obliging (request 0x10000000 3) (.start ⟨none, 0⟩)).1.pins =
      [⟨0x10000000, 3, some []⟩] := rfl
  have hone : (pimIoctl false obliging (request 0x10000000 3) (.start ⟨none, 0⟩)).2 = .ok 1 := rfl
  rintro ⟨v, hv, ⟨-, -, phys, t, hpub⟩ | ⟨hneg, -⟩⟩
  · obtain rfl : [] = phys := by simpa using hpins.symm.trans hpub.pins
    exact absurd hpub.pinned (by decide)
  · obtain rfl := Except.ok.inj (hone.symm.trans hv)
    omega

end SmcPim.Driver
