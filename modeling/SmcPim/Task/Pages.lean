import SmcPim.Lib.Lists
import SmcPim.Machine

/-!
# The pages of a task

`PIMTask::addData` and `PIMTask::updatePages` of `HOST/api/pim_task.cc`. The name of the task and
what only `DEBUG_API` compiles are left out.
-/

namespace SmcPim

open List Nat Arch

def Arch.sub (a : Arch) (m n : Nat) : Nat := a.ulong (m + 2 ^ a.bits - n)

lemma Arch.sub_of_le {a : Arch} {m n : Nat} (h : n ≤ m) (hm : m < 2 ^ a.bits) :
    a.sub m n = m - n := by
  rw [sub, ulong, show m + 2 ^ a.bits - n = m - n + 2 ^ a.bits by omega, add_mod_right]
  exact mod_eq_of_lt (by omega)

namespace Task

structure PIMData where
  vAddr : Nat
  size : Nat
  reg : Nat
  deriving DecidableEq, Repr

structure PIMPage where
  vPnStart : Nat
  vPnEnd : Nat
  count : Nat
  deriving DecidableEq, Repr

structure PIMTask where
  data : List PIMData
  vpages : List PIMPage
  updated : Bool
  statDatasize : Nat
  deriving DecidableEq, Repr

def PIMTask.new : PIMTask := { data := [], vpages := [], updated := false, statDatasize := 0 }

/-- The loop returns from its middle when it has inserted, before `_updated` is cleared. -/
def PIMTask.addData (a : Arch) (t : PIMTask) (d : PIMData) : PIMTask :=
  let t := { t with statDatasize := a.ulong (t.statDatasize + d.size) }
  match t.data.findIdx? fun e => decide (d.vAddr < e.vAddr) with
  | some i => { t with data := t.data.insertIdx i d }
  | none => { t with updated := false, data := t.data ++ [d] }

def PIMData.startPage (pageShift : Nat) (d : PIMData) : Nat := d.vAddr >>> pageShift

def PIMData.endPage (a : Arch) (pageShift : Nat) (d : PIMData) : Nat :=
  a.sub (a.ulong (d.vAddr + d.size)) 1 >>> pageShift

def pageCount (a : Arch) (first last : Nat) : Nat := a.ulong (a.sub last first + 1)

/-- The open range, if there is one, and the ranges already stored. -/
structure Ranges where
  page : Option PIMPage
  vpages : List PIMPage
  deriving DecidableEq, Repr

def Ranges.merge (a : Arch) (pageShift : Nat) (s : Ranges) (d : PIMData) : Ranges :=
  let startPage := d.startPage pageShift
  let endPage := d.endPage a pageShift
  let new := { vPnStart := startPage, vPnEnd := endPage, count := pageCount a startPage endPage }
  match s.page with
  | some page =>
    if page.vPnEnd ≥ a.sub startPage 1 then
      { s with page := some { page with vPnEnd := endPage, count := pageCount a page.vPnStart endPage } }
    else { page := some new, vpages := s.vpages ++ [page] }
  | none => { s with page := some new }

def PIMTask.updatePages (a : Arch) (pageShift : Nat) (t : PIMTask) : PIMTask :=
  let s := t.data.foldl (Ranges.merge a pageShift) { page := none, vpages := t.vpages }
  { t with vpages := s.vpages ++ s.page.toList, updated := true }

/-! ## Data in the order of its addresses -/

def PIMData.Before (d e : PIMData) : Prop := d.vAddr + d.size ≤ e.vAddr

variable {a : Arch} {shift n : Nat} {t : PIMTask} {d : PIMData} {ds : List PIMData}

lemma addData_data :
    (∃ pre e post, t.data = pre ++ e :: post ∧ (t.addData a d).data = pre ++ d :: e :: post ∧ d.vAddr < e.vAddr ∧
      ∀ e ∈ pre, e.vAddr ≤ d.vAddr) ∨
    ((t.addData a d).data = t.data ++ [d] ∧ ∀ e ∈ t.data, e.vAddr ≤ d.vAddr) := by
  unfold PIMTask.addData
  simp only
  split
  · rename_i i hfind
    obtain ⟨pre, e, post, hsplit, rfl, he, hpre⟩ := Lists.findIdx?_split hfind
    refine .inl ⟨pre, e, post, hsplit, ?_, by simpa using he, fun e he => by simpa using hpre e he⟩
    simp only [hsplit]
    rw [Lists.insertIdx_length_append]
  · rename_i hfind
    refine .inr ⟨rfl, fun e he => ?_⟩
    simpa using findIdx?_eq_none_iff.mp hfind e he

lemma addData_vpages : (t.addData a d).vpages = t.vpages := by
  unfold PIMTask.addData
  simp only
  split
  · rfl
  · rfl

variable {e : PIMData} {lo hi : Nat} {p : PIMPage} {s : Ranges}

lemma mem_addData : e ∈ (t.addData a d).data ↔ e ∈ t.data ∨ e = d := by
  rcases addData_data (a := a) (t := t) (d := d) with ⟨pre, x, post, hsplit, hdata, -⟩ | ⟨hdata, -⟩
  · simp only [hdata, hsplit, mem_append, mem_cons]
    tauto
  · simp [hdata]

lemma addData_sorted (hsorted : t.data.Pairwise PIMData.Before) (hpos : 0 < d.size)
    (hapart : ∀ e ∈ t.data, 0 < e.size ∧ (e.Before d ∨ d.Before e)) :
    (t.addData a d).data.Pairwise PIMData.Before := by
  have hbefore : ∀ e ∈ t.data, e.vAddr ≤ d.vAddr → e.Before d := by
    intro e he hle
    rcases (hapart e he).2 with h | h
    · exact h
    · unfold PIMData.Before at h
      omega
  have hafter : ∀ e ∈ t.data, d.vAddr < e.vAddr → d.Before e := by
    intro e he hlt
    rcases (hapart e he).2 with h | h
    · unfold PIMData.Before at h
      omega
    · exact h
  rcases addData_data (a := a) (t := t) (d := d) with ⟨pre, x, post, hsplit, hdata, hx, hpre⟩ | ⟨hdata, hle⟩
  · rw [hsplit] at hsorted hbefore hafter
    rw [pairwise_append, pairwise_cons] at hsorted
    obtain ⟨hsp, ⟨hxp, hspost⟩, hcross⟩ := hsorted
    have hrest : ∀ e ∈ x :: post, d.Before e := by
      intro e he
      refine hafter e (mem_append_right _ he) ?_
      rcases mem_cons.mp he with rfl | he
      · exact hx
      · have := hxp e he
        unfold PIMData.Before at this
        omega
    rw [hdata, pairwise_append, pairwise_cons, pairwise_cons]
    refine ⟨hsp, ⟨hrest, hxp, hspost⟩, fun e he f hf => ?_⟩
    rcases mem_cons.mp hf with rfl | hf
    · exact hbefore e (mem_append_left _ he) (hpre e he)
    · exact hcross e he f hf
  · rw [hdata, pairwise_append]
    refine ⟨hsorted, pairwise_singleton _ _, fun e he f hf => ?_⟩
    rw [mem_singleton.mp hf]
    exact hbefore e he (hle e he)

def addAll (a : Arch) (ds : List PIMData) : PIMTask := ds.foldl (PIMTask.addData a) .new

lemma addAll_spec (hpos : ∀ d ∈ ds, 0 < d.size)
    (hapart : ds.Pairwise fun d e => d.Before e ∨ e.Before d) :
    (addAll a ds).data.Pairwise PIMData.Before ∧ (∀ e, e ∈ (addAll a ds).data ↔ e ∈ ds) ∧
      (addAll a ds).vpages = [] := by
  induction ds using reverseRecOn with
  | nil => exact ⟨List.Pairwise.nil, fun e => Iff.rfl, rfl⟩
  | append_singleton ds d ih =>
    rw [pairwise_append] at hapart
    obtain ⟨hds, -, hcross⟩ := hapart
    obtain ⟨hsorted, hmem, hnone⟩ := ih (fun e he => hpos e (mem_append_left _ he)) hds
    have hfold : addAll a (ds ++ [d]) = (addAll a ds).addData a d := by
      unfold addAll
      rw [foldl_append, foldl_cons, foldl_nil]
    rw [hfold]
    refine ⟨addData_sorted hsorted (hpos d (by simp)) fun e he => ?_, fun e => ?_, addData_vpages.trans hnone⟩
    · have he := (hmem e).mp he
      exact ⟨hpos e (mem_append_left _ he), hcross e he d (mem_singleton_self d)⟩
    · rw [mem_addData, hmem, mem_append, mem_singleton]

/-! ## The pages of one range -/

structure PIMData.Ok (a : Arch) (shift : Nat) (d : PIMData) : Prop where
  pos : 0 < d.size
  first : 2 ^ shift ≤ d.vAddr
  last : d.vAddr + d.size ≤ 2 ^ a.bits

def PIMData.Touches (shift : Nat) (d : PIMData) (n : Nat) : Prop :=
  ∃ x, d.vAddr ≤ x ∧ x < d.vAddr + d.size ∧ x >>> shift = n

lemma PIMData.Ok.startPage_pos (h : d.Ok a shift) : 1 ≤ d.startPage shift := by
  unfold startPage
  rw [Nat.shiftRight_eq_div_pow, Nat.one_le_div_iff (Nat.two_pow_pos _)]
  exact h.first

lemma PIMData.Ok.endPage_eq (h : d.Ok a shift) : d.endPage a shift =
    (d.vAddr + d.size - 1) >>> shift := by
  have hpos := h.pos
  have hlast := h.last
  unfold endPage
  congr 1
  rcases lt_or_eq_of_le hlast with hlt | heq
  · rw [ulong_of_lt hlt, sub_of_le (by omega) hlt]
  · have := Nat.two_pow_pos a.bits
    rw [heq, ulong, Nat.mod_self, sub, Nat.zero_add, ulong_of_lt (by omega)]

lemma shiftRight_mono {m n : Nat} (h : m ≤ n) : m >>> shift ≤ n >>> shift := by
  rw [Nat.shiftRight_eq_div_pow, Nat.shiftRight_eq_div_pow]
  exact Nat.div_le_div_right h

lemma PIMData.Ok.start_le_end (h : d.Ok a shift) : d.startPage shift ≤ d.endPage a shift := by
  have hpos := h.pos
  rw [h.endPage_eq]
  exact shiftRight_mono (by omega)

lemma PIMData.Ok.endPage_lt (h : d.Ok a shift) : d.endPage a shift < 2 ^ a.bits := by
  have hpos := h.pos
  have hlast := h.last
  rw [h.endPage_eq, Nat.shiftRight_eq_div_pow]
  exact (div_le_self _ _).trans_lt (by omega)

lemma exists_byte_iff (hlt : lo < hi) :
    (∃ x, lo ≤ x ∧ x < hi ∧ x >>> shift = n) ↔ lo >>> shift ≤ n ∧ n ≤ (hi - 1) >>> shift := by
  constructor
  · rintro ⟨x, hlo, hhi, rfl⟩
    exact ⟨shiftRight_mono hlo, shiftRight_mono (by omega)⟩
  · rintro ⟨hlo, hhi⟩
    -- the first byte of page `n`, or the first of all if they start inside that page
    refine ⟨max lo (n * 2 ^ shift), le_max_left _ _, ?_, ?_⟩
    · rw [Nat.shiftRight_eq_div_pow, Nat.le_div_iff_mul_le (Nat.two_pow_pos _)] at hhi
      omega
    · rw [Nat.shiftRight_eq_div_pow] at hlo ⊢
      rcases le_total lo (n * 2 ^ shift) with hle | hle
      · rw [max_eq_right hle, Nat.mul_div_cancel _ (Nat.two_pow_pos _)]
      · rw [max_eq_left hle]
        exact hlo.antisymm ((Nat.le_div_iff_mul_le (Nat.two_pow_pos _)).mpr hle)

lemma PIMData.Ok.touches_iff (h : d.Ok a shift) :
    d.Touches shift n ↔ d.startPage shift ≤ n ∧ n ≤ d.endPage a shift := by
  rw [h.endPage_eq]
  exact exists_byte_iff (Nat.lt_add_of_pos_right h.pos)

lemma PIMData.Ok.end_le_start (h : d.Ok a shift) (hbefore : d.Before e) :
    d.endPage a shift ≤ e.startPage shift := by
  rw [h.endPage_eq]
  unfold PIMData.Before at hbefore
  exact shiftRight_mono (by omega)

/-! ## The merge -/

def PIMPage.Separated (p q : PIMPage) : Prop := p.vPnEnd + 1 < q.vPnStart

structure PIMPage.Wf (p : PIMPage) : Prop where
  ordered : p.vPnStart ≤ p.vPnEnd
  counted : p.count = p.vPnEnd + 1 - p.vPnStart

def PIMPage.Has (p : PIMPage) (n : Nat) : Prop := p.vPnStart ≤ n ∧ n ≤ p.vPnEnd

def Ranges.pages (s : Ranges) : List PIMPage := s.vpages ++ s.page.toList

structure Merged (a : Arch) (shift : Nat) (ds : List PIMData) (s : Ranges) : Prop where
  separated : s.pages.Pairwise PIMPage.Separated
  wf : ∀ p ∈ s.pages, p.Wf
  touched : ∀ n, (∃ p ∈ s.pages, p.Has n) ↔ ∃ d ∈ ds, d.Touches shift n
  start : s.page = none → s.vpages = []
  openEnd : ∀ p ∈ s.page, 1 ≤ p.vPnStart ∧ ∃ d ∈ ds, p.vPnEnd = d.endPage a shift

lemma pageCount_eq {first last : Nat} (hpos : 1 ≤ first) (hle : first ≤ last)
    (hlt : last < 2 ^ a.bits) : pageCount a first last = last + 1 - first := by
  rw [pageCount, sub_of_le hle hlt, ulong_of_lt (by omega)]
  omega

lemma Merged.join {vpages : List PIMPage} (h : Merged a shift ds ⟨some p, vpages⟩) (hd : d.Ok a shift)
    (hbefore : ∀ e ∈ ds, e.Ok a shift ∧ e.Before d) (hjoin : d.startPage shift ≤ p.vPnEnd + 1) :
    Merged a shift (ds ++ [d])
      ⟨some { p with vPnEnd := d.endPage a shift, count := pageCount a p.vPnStart (d.endPage a shift) }, vpages⟩ := by
  obtain ⟨hstart, e, he, hpe⟩ := h.openEnd p rfl
  obtain ⟨hle, -⟩ := h.wf p (by simp [Ranges.pages])
  have hend : p.vPnEnd ≤ d.startPage shift := hpe ▸ (hbefore e he).1.end_le_start (hbefore e he).2
  have hde := hd.start_le_end
  refine ⟨?_, ?_, ?_, by simp, ?_⟩
  · have hsep := h.separated
    simp only [Ranges.pages, Option.toList_some, pairwise_append, mem_singleton] at hsep ⊢
    exact ⟨hsep.1, pairwise_singleton _ _, fun q hq r hr => hr ▸ hsep.2.2 q hq p rfl⟩
  · intro q hq
    simp only [Ranges.pages, Option.toList_some, mem_append, mem_singleton] at hq
    rcases hq with hq | rfl
    · exact h.wf q (by simp [Ranges.pages, hq])
    · exact ⟨by simp only; omega, pageCount_eq hstart (by omega) hd.endPage_lt⟩
  · intro n
    have htouched := h.touched n
    simp only [Ranges.pages, Option.toList_some, mem_append, mem_singleton, or_and_right, exists_or,
      exists_eq_left] at htouched ⊢
    rw [← htouched, hd.touches_iff, or_assoc]
    refine or_congr_right ?_
    unfold PIMPage.Has
    simp only
    omega
  · rintro q ⟨rfl⟩
    exact ⟨hstart, d, by simp, rfl⟩

lemma Merged.fresh (h : Merged a shift ds s) (hd : d.Ok a shift)
    (haway : ∀ p ∈ s.page, p.vPnEnd + 1 < d.startPage shift) :
    Merged a shift (ds ++ [d])
      ⟨some ⟨d.startPage shift, d.endPage a shift, pageCount a (d.startPage shift) (d.endPage a shift)⟩, s.pages⟩ := by
  have hpages : ∀ p ∈ s.pages, p.vPnEnd + 1 < d.startPage shift := by
    intro q hq
    rcases hpage : s.page with _ | p
    · rw [Ranges.pages, hpage, h.start hpage] at hq
      simp at hq
    · have hp := haway p hpage
      obtain ⟨hle, -⟩ := h.wf p (by simp [Ranges.pages, hpage])
      have hsep := h.separated
      simp only [Ranges.pages, hpage, Option.toList_some, pairwise_append, mem_append,
        mem_singleton] at hsep hq
      rcases hq with hq | rfl
      · have := hsep.2.2 q hq p rfl
        unfold PIMPage.Separated at this
        omega
      · exact hp
  refine ⟨?_, ?_, ?_, by simp, ?_⟩
  · simp only [Ranges.pages, Option.toList_some]
    rw [pairwise_append]
    refine ⟨h.separated, pairwise_singleton _ _, fun q hq r hr => ?_⟩
    rw [mem_singleton.mp hr]
    exact hpages q hq
  · intro q hq
    simp only [Ranges.pages, Option.toList_some] at hq
    rcases mem_append.mp hq with hq | hq
    · exact h.wf q hq
    · rw [mem_singleton.mp hq]
      exact ⟨hd.start_le_end, pageCount_eq hd.startPage_pos hd.start_le_end hd.endPage_lt⟩
  · intro n
    change (∃ p ∈ s.pages ++ [_], p.Has n) ↔ _
    simp only [mem_append, mem_singleton, or_and_right, exists_or, exists_eq_left]
    rw [← h.touched n, hd.touches_iff]
    rfl
  · rintro q ⟨rfl⟩
    exact ⟨hd.startPage_pos, d, by simp, rfl⟩

lemma merge_join (hpage : s.page = some p) (hd : d.Ok a shift)
    (hjoin : d.startPage shift ≤ p.vPnEnd + 1) :
    s.merge a shift d =
      ⟨some { p with vPnEnd := d.endPage a shift, count := pageCount a p.vPnStart (d.endPage a shift) }, s.vpages⟩ := by
  have hpred : a.sub (d.startPage shift) 1 = d.startPage shift - 1 :=
    sub_of_le hd.startPage_pos (hd.start_le_end.trans_lt hd.endPage_lt)
  unfold Ranges.merge
  simp only [hpage, hpred]
  rw [if_pos (by omega)]

lemma merge_apart (hd : d.Ok a shift) (haway : ∀ p ∈ s.page, p.vPnEnd + 1 < d.startPage shift) :
    s.merge a shift d =
      ⟨some ⟨d.startPage shift, d.endPage a shift, pageCount a (d.startPage shift) (d.endPage a shift)⟩, s.pages⟩ := by
  have hpred : a.sub (d.startPage shift) 1 = d.startPage shift - 1 :=
    sub_of_le hd.startPage_pos (hd.start_le_end.trans_lt hd.endPage_lt)
  obtain ⟨page, vpages⟩ := s
  unfold Ranges.merge Ranges.pages
  cases page with
  | none => simp
  | some p =>
    have := haway p rfl
    simp only [hpred]
    rw [if_neg (by omega)]
    rfl

lemma Merged.step (h : Merged a shift ds s) (hd : d.Ok a shift)
    (hbefore : ∀ e ∈ ds, e.Ok a shift ∧ e.Before d) : Merged a shift (ds ++ [d]) (s.merge a shift d) := by
  by_cases haway : ∀ p ∈ s.page, p.vPnEnd + 1 < d.startPage shift
  · rw [merge_apart hd haway]
    exact h.fresh hd haway
  · push Not at haway
    obtain ⟨p, hp, hjoin⟩ := haway
    obtain ⟨page, vpages⟩ := s
    obtain rfl : page = some p := hp
    rw [merge_join rfl hd hjoin]
    exact h.join hd hbefore hjoin

lemma merged_foldl (hok : ∀ d ∈ ds, d.Ok a shift) (hsorted : ds.Pairwise PIMData.Before) :
    Merged a shift ds (ds.foldl (Ranges.merge a shift) ⟨none, []⟩) := by
  induction ds using reverseRecOn with
  | nil => exact ⟨List.Pairwise.nil, by simp [Ranges.pages], by simp [Ranges.pages], fun _ => rfl, by simp⟩
  | append_singleton ds d ih =>
    rw [pairwise_append] at hsorted
    have hinit := fun e (he : e ∈ ds) => hok e (mem_append_left _ he)
    rw [foldl_append, foldl_cons, foldl_nil]
    exact (ih hinit hsorted.1).step (hok d (by simp)) fun e he =>
      ⟨hinit e he, hsorted.2.2 e he d (mem_singleton_self d)⟩

lemma addAll_merged (hok : ∀ d ∈ ds, d.Ok a shift)
    (hapart : ds.Pairwise fun d e => d.Before e ∨ e.Before d) :
    ∃ s, ((addAll a ds).updatePages a shift).vpages = s.pages ∧ Merged a shift ds s := by
  obtain ⟨hsorted, hmem, hnone⟩ := addAll_spec (a := a) (fun d hd => (hok d hd).pos) hapart
  have h := merged_foldl (fun d hd => hok d ((hmem d).mp hd)) hsorted
  refine ⟨_, ?_, h.separated, h.wf, fun n => (h.touched n).trans ?_, h.start, fun p hp => ?_⟩
  · unfold PIMTask.updatePages
    rw [hnone]
    rfl
  · simp only [hmem]
  · obtain ⟨hpos, d, hd, hend⟩ := h.openEnd p hp
    exact ⟨hpos, d, (hmem d).mp hd, hend⟩

lemma Merged.single (h : Merged a shift ds s) (hlt : lo < hi)
    (hbytes : ∀ x, (∃ d ∈ ds, d.vAddr ≤ x ∧ x < d.vAddr + d.size) ↔ lo ≤ x ∧ x < hi) :
    ∃ r, s.pages = [r] ∧ ∀ n, r.Has n ↔ ∃ x, lo ≤ x ∧ x < hi ∧ x >>> shift = n := by
  have htouched : ∀ n, (∃ p ∈ s.pages, p.Has n) ↔ lo >>> shift ≤ n ∧ n ≤ (hi - 1) >>> shift := by
    intro n
    rw [h.touched n, ← exists_byte_iff hlt]
    constructor
    · rintro ⟨d, hd, x, hlo, hhi, hx⟩
      obtain ⟨hlo, hhi⟩ := (hbytes x).mp ⟨d, hd, hlo, hhi⟩
      exact ⟨x, hlo, hhi, hx⟩
    · rintro ⟨x, hlo, hhi, hx⟩
      obtain ⟨d, hd, hlo, hhi⟩ := (hbytes x).mpr ⟨hlo, hhi⟩
      exact ⟨d, hd, x, hlo, hhi, hx⟩
  have hsep := h.separated
  have hwf := h.wf
  obtain ⟨first, hfirst, -⟩ := (htouched (lo >>> shift)).mpr ⟨le_rfl, shiftRight_mono (by omega)⟩
  rcases hpages : s.pages with _ | ⟨r, rest⟩
  · rw [hpages] at hfirst
    cases hfirst
  · rw [hpages] at htouched hsep hwf
    rw [pairwise_cons] at hsep
    rcases rest with _ | ⟨q, rest⟩
    · refine ⟨r, rfl, fun n => ?_⟩
      rw [exists_byte_iff hlt, ← htouched n]
      simp
    · -- the page after the first range is missing
      exfalso
      have hrq := hsep.1 q mem_cons_self
      have hr := (htouched r.vPnEnd).mp ⟨r, mem_cons_self, (hwf r mem_cons_self).ordered, le_rfl⟩
      have hq := (htouched q.vPnStart).mp
        ⟨q, mem_cons_of_mem _ mem_cons_self, le_rfl, (hwf q (by simp)).ordered⟩
      unfold PIMPage.Separated at hrq
      obtain ⟨p, hp, hhas⟩ := (htouched (r.vPnEnd + 1)).mpr ⟨by omega, by omega⟩
      unfold PIMPage.Has at hhas
      rcases mem_cons.mp hp with rfl | hp
      · omega
      · have := hsep.1 p hp
        unfold PIMPage.Separated at this
        omega

/-- The ranges are in increasing order with a page between any two, and hold the pages that the data touches. -/
theorem updatePages_spec (a : Arch) (shift : Nat) (ds : List PIMData) (hok : ∀ d ∈ ds, d.Ok a shift)
    (hapart : ds.Pairwise fun d e => d.Before e ∨ e.Before d) :
    let vpages := ((addAll a ds).updatePages a shift).vpages
    vpages.Pairwise PIMPage.Separated ∧ (∀ p ∈ vpages, p.Wf) ∧
      ∀ n, (∃ p ∈ vpages, p.Has n) ↔ ∃ d ∈ ds, d.Touches shift n := by
  obtain ⟨s, hpages, h⟩ := addAll_merged hok hapart
  rw [hpages]
  exact ⟨h.separated, h.wf, h.touched⟩

theorem updatePages_spec_three :
    let ds : List PIMData := [⟨0x9000, 0x1800, 0⟩, ⟨0x3010, 0xff0, 1⟩, ⟨0x4ff0, 0x20, 2⟩]
    let vpages := ((addAll .arm ds).updatePages .arm 12).vpages
    vpages = [⟨3, 5, 3⟩, ⟨9, 10, 2⟩] ∧
    vpages.Pairwise PIMPage.Separated ∧ (∀ p ∈ vpages, p.Wf) ∧
      ∀ n, (∃ p ∈ vpages, p.Has n) ↔ ∃ d ∈ ds, d.Touches 12 n := by
  intro ds vpages
  refine ⟨by decide, updatePages_spec .arm 12 ds ?_ ?_⟩
  · intro d hd
    simp only [ds, List.mem_cons, List.not_mem_nil, or_false] at hd
    rcases hd with rfl | rfl | rfl
    · exact ⟨by decide, by decide, by decide⟩
    · exact ⟨by decide, by decide, by decide⟩
    · exact ⟨by decide, by decide, by decide⟩
  · simp [ds, PIMData.Before]

end Task

end SmcPim
