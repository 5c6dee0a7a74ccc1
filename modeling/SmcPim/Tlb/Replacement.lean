import SmcPim.Lib.Lru
import SmcPim.Lib.Runs
import SmcPim.Tlb.Translate

/-! # Replacement in the TLB -/

namespace SmcPim.Tlb

open List Lru.Cache

open Driver (Slice)

inductive Call
  | remap (addr : Nat)
  | updateTLB (s : Slice)
  deriving DecidableEq, Repr

structure Timed where
  curTick : Nat
  tlb : Tlb
  deriving DecidableEq, Repr

/-- A call that returns, at a tick that is not before the last one. -/
def Timed.Step (p : Tlb.Params) (s : Timed) (l : Nat × Call) (s' : Timed) : Prop :=
  s.curTick ≤ l.1 ∧ s'.curTick = l.1 ∧
    match l.2 with
    | .remap addr => ∃ a, s.tlb.remap l.1 addr = .ok (a, s'.tlb)
    | .updateTLB slice => s'.tlb = s.tlb.updateTLB p l.1 slice

/-- The TLB with its static rule only. The pointer to the slice table says what a miss does. -/
def Params.start (p : Tlb.Params) (slicetablePtr : Nat) : Timed :=
  { curTick := 0, tlb := { p.create with pimSlicetablePtr := slicetablePtr } }

/-! ## The cache behind the vectors -/

def request : Nat × Call → Nat × Lru.Request Nat (AddrRange × AddrRange)
  | (now, .remap addr) => (now, .look addr)
  | (now, .updateTLB s) => (now, .install (ruleOf s))

def Covers (rule : AddrRange × AddrRange) (addr : Nat) : Prop := rule.1.contains addr = true

def Params.cache (p : Tlb.Params) : Lru.Cache (AddrRange × AddrRange) := ⟨(p.originalRange, p.remappedRange), []⟩

structure Represents (p : Tlb.Params) (s : Timed) (c : Lru.Cache (AddrRange × AddrRange)) : Prop where
  static : c.pinned = (p.originalRange, p.remappedRange)
  original : s.tlb.originalRanges = c.values.map Prod.fst
  remapped : s.tlb.remappedRanges = c.values.map Prod.snd
  stamps : s.tlb.lastUsed = (2 ^ 64 - 1) :: c.entries.map (·.latest)
  size : c.values.length ≤ p.tlbSize
  past : ∀ e ∈ c.entries, e.latest ≤ s.curTick

variable {p : Tlb.Params} {s s' : Timed} {c : Lru.Cache (AddrRange × AddrRange)} {now addr ptr : Nat} {slice : Slice}

lemma represents_start (hsize : 2 ≤ p.tlbSize) : Represents p (p.start ptr) p.cache where
  static := rfl
  original := rfl
  remapped := rfl
  stamps := rfl
  size := by
    rw [values_length]
    exact Nat.le_of_succ_le hsize
  past := by simp [Params.cache]

lemma Represents.findRule (h : Represents p s c) :
    s.tlb.findRule addr = c.values.findIdx? fun r => r.1.contains addr := by
  unfold Tlb.findRule
  rw [h.original, findIdx?_map]
  rfl

variable {a : AddrRange × AddrRange} {pre post : List (Lru.Entry (AddrRange × AddrRange))}
  {e : Lru.Entry (AddrRange × AddrRange)}

lemma Represents.refresh (h : Represents p s ⟨a, pre ++ e :: post⟩) (hnow : s.curTick ≤ now) :
    Represents p ⟨now, { s.tlb with lastUsed := s.tlb.lastUsed.set (pre.length + 1) now }⟩
      ⟨a, pre ++ e.use now :: post⟩ := by
  have hvalues : values ⟨a, pre ++ e.use now :: post⟩ = values ⟨a, pre ++ e :: post⟩ := by
    simp [values, Lru.Entry.use]
  have hlatest : (e.use now).latest = now := max_eq_left ((h.past e (by simp)).trans hnow)
  refine ⟨h.static, ?_, ?_, ?_, ?_, ?_⟩
  · rw [hvalues]
    exact h.original
  · rw [hvalues]
    exact h.remapped
  · simp [h.stamps, hlatest]
  · rw [hvalues]
    exact h.size
  · intro q hq
    rw [mem_append, mem_cons] at hq
    rcases hq with hq | rfl | hq
    · exact (h.past q (by simp [hq])).trans hnow
    · exact hlatest.le
    · exact (h.past q (by simp [hq])).trans hnow

section
variable (h : Represents p s c) (hnow : s.curTick ≤ now)
include h hnow

lemma Represents.later : Represents p ⟨now, s.tlb⟩ c :=
  { h with past := fun e he => (h.past e he).trans hnow }

lemma Represents.remap {a : Nat} {t : Tlb} (hremap : s.tlb.remap now addr = .ok (a, t)) :
    ∃ c', Lru.Step p.tlbSize Covers c (now, .look addr) c' ∧ Represents p ⟨now, t⟩ c' := by
  unfold Tlb.remap at hremap
  rw [h.findRule] at hremap
  rcases hfind : c.values.findIdx? fun r => r.1.contains addr with _ | i
  · rw [hfind] at hremap
    simp only at hremap
    split at hremap
    · obtain ⟨-, rfl⟩ := Prod.mk.inj (Except.ok.inj hremap)
      refine ⟨c, .miss fun r hr hcovers => ?_, h.later hnow⟩
      have hnone := findIdx?_eq_none_iff.mp hfind r hr
      rw [hcovers] at hnone
      cases hnone
    · cases hremap
  · rw [hfind] at hremap
    obtain ⟨-, rfl⟩ := Prod.mk.inj (Except.ok.inj hremap)
    rw [values, findIdx?_cons, findIdx?_map] at hfind
    split at hfind
    · rename_i hpinned
      obtain rfl := Option.some.inj hfind
      exact ⟨c, .pinned hpinned, h.later hnow⟩
    · rename_i hpinned
      obtain ⟨j, hj, rfl⟩ := Option.map_eq_some_iff.mp hfind
      obtain ⟨pre, e, post, hsplit, rfl, he, hpre⟩ := Lists.findIdx?_split hj
      obtain ⟨b, entries⟩ := c
      obtain rfl : entries = pre ++ e :: post := hsplit
      rw [if_pos (Nat.succ_pos _)]
      exact ⟨_, .hit hpinned hpre he, h.refresh hnow⟩

/-! ## Installation -/

lemma Represents.push (hroom : c.values.length < p.tlbSize) :
    Represents p ⟨now, s.tlb.push now slice⟩ ⟨c.pinned, c.entries ++ [⟨ruleOf slice, [now]⟩]⟩ := by
  refine ⟨h.static, ?_, ?_, ?_, ?_, ?_⟩
  · simp [Tlb.push, h.original, values, ruleOf]
  · simp [Tlb.push, h.remapped, values, ruleOf]
  · simp [Tlb.push, h.stamps, Lru.Entry.latest]
  · rw [values_length] at hroom ⊢
    simpa using hroom
  · intro e he
    rw [mem_append, mem_singleton] at he
    rcases he with he | rfl
    · exact (h.past e he).trans hnow
    · exact (max_eq_left (Nat.zero_le now)).le

end

lemma Represents.victim (h : Represents p s c) (hentries : c.entries ≠ []) :
    ∃ pre e post, c.entries = pre ++ e :: post ∧ lruIndex s.tlb.lastUsed = pre.length + 1 ∧
      ∀ q ∈ pre ++ post, e.latest ≤ q.latest := by
  have hlen : 2 ≤ s.tlb.lastUsed.length := by
    have := length_pos_iff.mpr hentries
    simp only [h.stamps, length_cons, length_map]
    omega
  obtain ⟨hone, hlt, hmin⟩ := lruIndex_spec hlen
  obtain ⟨j, hj⟩ := Nat.exists_eq_add_of_le' hone
  rw [hj] at hlt hmin
  simp only [h.stamps, length_cons, length_map, Nat.add_lt_add_iff_right] at hlt hmin
  refine ⟨c.entries.take j, c.entries[j], c.entries.drop (j + 1), ?_, ?_, ?_⟩
  · rw [getElem_cons_drop, take_append_drop]
  · rw [hj, length_take, min_eq_left hlt.le]
  · intro q hq
    have hmem : q ∈ c.entries := by
      rcases mem_append.mp hq with hq | hq
      · exact mem_of_mem_take hq
      · exact mem_of_mem_drop hq
    obtain ⟨k, hk, rfl⟩ := mem_iff_getElem.mp hmem
    have := hmin (k + 1) (Nat.succ_pos k) (by omega)
    simpa [getD_cons_succ, getD_eq_getElem, hlt, hk] using this

lemma Represents.evict (h : Represents p s ⟨a, pre ++ e :: post⟩)
    (hindex : lruIndex s.tlb.lastUsed = pre.length + 1) :
    Represents p ⟨s.curTick, s.tlb.evict⟩ ⟨a, pre ++ post⟩ := by
  have hsize := h.size
  refine ⟨h.static, ?_, ?_, ?_, ?_, ?_⟩
  · simp [Tlb.evict, hindex, h.original, values, eraseIdx_append_of_length_le]
  · simp [Tlb.evict, hindex, h.remapped, values, eraseIdx_append_of_length_le]
  · change s.tlb.lastUsed.eraseIdx (lruIndex s.tlb.lastUsed) = _
    rw [hindex, h.stamps]
    simp [eraseIdx_append_of_length_le]
  · rw [values_length] at hsize ⊢
    simp only [length_append, length_cons] at hsize ⊢
    omega
  · intro q hq
    rcases mem_append.mp hq with hq | hq
    · exact h.past q (by simp [hq])
    · exact h.past q (by simp [hq])

lemma Represents.updateTLB (hsize : 2 ≤ p.tlbSize) (h : Represents p s c) (hnow : s.curTick ≤ now) :
    ∃ c', Lru.Step p.tlbSize Covers c (now, .install (ruleOf slice)) c' ∧
      Represents p ⟨now, s.tlb.updateTLB p now slice⟩ c' := by
  have hlen : s.tlb.originalRanges.length = c.values.length := by rw [h.original, length_map]
  unfold Tlb.updateTLB
  rw [hlen]
  split
  · rename_i hfull
    have hentries : c.entries ≠ [] := by
      intro hnil
      rw [values_length, hnil] at hfull
      exact absurd (hsize.trans hfull) (by decide)
    obtain ⟨pre, e, post, hsplit, hindex, hmin⟩ := h.victim hentries
    obtain ⟨a, entries⟩ := c
    obtain rfl : entries = pre ++ e :: post := hsplit
    refine ⟨_, .replace hfull hmin, (h.evict hindex).push hnow ?_⟩
    have hle := h.size
    rw [values_length] at hle ⊢
    simp only [length_append, length_cons] at hle ⊢
    omega
  · rename_i hroom
    exact ⟨_, .install (not_le.mp hroom), h.push hnow (not_le.mp hroom)⟩

lemma Represents.step (hsize : 2 ≤ p.tlbSize) (l : Nat × Call) (h : Represents p s c)
    (hstep : s.Step p l s') :
    ∃ c', Lru.Step p.tlbSize Covers c (request l) c' ∧ Represents p s' c' := by
  obtain ⟨now, call⟩ := l
  obtain ⟨tick, t⟩ := s'
  cases call with
  | remap addr =>
    obtain ⟨hnow, rfl, a, hremap⟩ := hstep
    exact h.remap hnow hremap
  | updateTLB slice =>
    obtain ⟨hnow, htick, hcall⟩ := hstep
    simp only at htick hcall
    subst htick hcall
    exact h.updateTLB hsize hnow

/-- A cache with LRU replacement runs alongside, and the vectors are its columns. -/
theorem run_alongside_lru (p : Tlb.Params) (hsize : 2 ≤ p.tlbSize) (ptr : Nat)
    (calls : List (Nat × Call)) (s : Timed)
    (hrun : Runs.Steps (Timed.Step p) (p.start ptr) calls s) :
    (∃ c, Runs.Steps (Runs.Alongside (Timed.Step p) (Lru.Step p.tlbSize Covers) request (Represents p))
      (p.start ptr, p.cache) calls (s, c) ∧ Represents p s c) ∧
    s.tlb.remappedRanges.length = s.tlb.originalRanges.length ∧
    s.tlb.lastUsed.length = s.tlb.originalRanges.length ∧
    1 ≤ s.tlb.originalRanges.length ∧ s.tlb.originalRanges.length ≤ p.tlbSize := by
  obtain ⟨c, hc, h⟩ :=
    hrun.alongside (fun _ l _ _ h hstep => h.step hsize l hstep) (represents_start hsize)
  have hlen : s.tlb.originalRanges.length = c.values.length := by rw [h.original, List.length_map]
  refine ⟨⟨c, hc, h⟩, ?_, ?_, ?_, ?_⟩
  · rw [hlen, h.remapped, List.length_map]
  · rw [hlen, h.stamps, Lru.Cache.values_length, List.length_cons, List.length_map]
  · rw [hlen, Lru.Cache.values_length]
    exact Nat.succ_pos _
  · rw [hlen]
    exact h.size

theorem run_alongside_lru_two_rules :
    let p := { Tlb.Params.dtlb with tlbSize := 2 }
    let s : Timed :=
      ⟨3, ((p.start 1).tlb.updateTLB p 1 ⟨0x200000, 0x300000, 0x1000⟩).updateTLB p 3 ⟨0x400000, 0x500000, 0x1000⟩⟩
    s.tlb.originalRanges = [⟨0, 0xFFFFF⟩, ⟨0x400000, 0x400FFF⟩] ∧
    (∃ c, Runs.Steps (Runs.Alongside (Timed.Step p) (Lru.Step p.tlbSize Covers) request (Represents p))
      (p.start 1, p.cache)
      [(1, .updateTLB ⟨0x200000, 0x300000, 0x1000⟩), (3, .updateTLB ⟨0x400000, 0x500000, 0x1000⟩)] (s, c) ∧
      Represents p s c) ∧
    s.tlb.remappedRanges.length = s.tlb.originalRanges.length ∧
    s.tlb.lastUsed.length = s.tlb.originalRanges.length ∧
    1 ≤ s.tlb.originalRanges.length ∧ s.tlb.originalRanges.length ≤ p.tlbSize := by
  intro p s
  let m : Timed := ⟨1, (p.start 1).tlb.updateTLB p 1 ⟨0x200000, 0x300000, 0x1000⟩⟩
  exact ⟨by decide, run_alongside_lru p (by decide) 1 _ s
    (.cons (t := m) ⟨by decide, rfl, rfl⟩ (.cons ⟨by decide, rfl, rfl⟩ (.nil _)))⟩

end SmcPim.Tlb
