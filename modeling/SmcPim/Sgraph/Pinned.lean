import SmcPim.Sgraph.Layout

/-! # The pages of the graph -/

namespace SmcPim.Sgraph

open Stops SmcPim.Task List Nat Params Ranges PIMData PIMTask Build

variable {p : Params} {rand : ℕ → ℕ} {s : Build} {fuel i n shift succ : ℕ} {a : Arch}

def Build.Uses (p : Params) (s : Build) (x : ℕ) : Prop :=
  (s.nodesPtr ≤ x ∧ x < s.nodesPtr + p.nodes * p.nodeSize) ∨
  (p.kernel = .bfs ∧ s.queue ≤ x ∧ x < s.queue + p.nodes * p.host.arch.bytes) ∨
  (∃ n ∈ s.nodes, n.successors ≤ x ∧ x < n.successors + n.outDegree * p.host.arch.bytes) ∨
  (p.kernel = .bellmanFord ∧ ∃ n ∈ s.nodes, n.weights ≤ x ∧ x < n.weights + n.outDegree * p.host.arch.bytes)

/-- The region lies in the address space, behind at least two pages that are reserved for the PIM. -/
structure Loaded (shift : ℕ) (p : Params) : Prop where
  fits : p.host.regionEnd p.requiredMemSize ≤ 2 ^ p.host.arch.bits
  shift_pos : 1 ≤ shift
  reserved : 2 * 2 ^ shift ≤ p.host.phySize

lemma Loaded.base_ge (h : Loaded shift p) : 2 * 2 ^ shift ≤ p.base := by
  obtain ⟨pad, -, hbase⟩ := p.host.aligned_eq
  have := h.reserved
  unfold base
  omega

variable {size reg x : ℕ} {node n : Node} {r : PIMPage}

lemma Loaded.ok (h : Loaded shift p) {v : ℕ} (hlo : p.base ≤ v) (hpos : 0 < size)
    (hhi : v + size ≤ p.host.regionEnd p.requiredMemSize) : PIMData.Ok p.host.arch shift ⟨v, size, reg⟩ := by
  have hbase := h.base_ge
  exact ⟨hpos, by simp only; omega, hhi.trans h.fits⟩

/-- Each set of data starts where the one before it ends. -/
def Gapless : ℕ → List PIMData → ℕ → Prop
  | lo, [], hi => lo = hi
  | lo, d :: ds, hi => d.vAddr = lo ∧ 0 < d.size ∧ Gapless (lo + d.size) ds hi

section Gapless
variable {ds es : List PIMData} {lo hi mid : ℕ}

lemma Gapless.append (h : Gapless lo ds mid) (h' : Gapless mid es hi) : Gapless lo (ds ++ es) hi := by
  induction ds generalizing lo with
  | nil =>
    obtain rfl : lo = mid := h
    exact h'
  | cons d ds ih => exact ⟨h.1, h.2.1, ih h.2.2⟩

lemma Gapless.le (h : Gapless lo ds hi) : lo ≤ hi := by
  induction ds generalizing lo with
  | nil => exact le_of_eq h
  | cons d ds ih => exact (le_add_right _ _).trans (ih h.2.2)

lemma Gapless.bytes (h : Gapless lo ds hi) (x : ℕ) :
    (∃ d ∈ ds, d.vAddr ≤ x ∧ x < d.vAddr + d.size) ↔ lo ≤ x ∧ x < hi := by
  induction ds generalizing lo with
  | nil =>
    obtain rfl : lo = hi := h
    simp
  | cons d ds ih =>
    obtain ⟨rfl, hpos, hrest⟩ := h
    have hle := hrest.le
    simp only [mem_cons, exists_eq_or_imp]
    rw [ih hrest]
    omega

lemma Gapless.mem (h : Gapless lo ds hi) :
    ∀ d ∈ ds, 0 < d.size ∧ lo ≤ d.vAddr ∧ d.vAddr + d.size ≤ hi := by
  intro d hd
  have hpos : 0 < d.size := by
    induction ds generalizing lo with
    | nil => cases hd
    | cons e ds ih =>
      rcases mem_cons.mp hd with rfl | hd
      · exact h.2.1
      · exact ih h.2.2 hd
  have hfirst := (h.bytes d.vAddr).mp ⟨d, hd, le_rfl, by omega⟩
  have hlast := (h.bytes (d.vAddr + d.size - 1)).mp ⟨d, hd, by omega, by omega⟩
  omega

lemma Gapless.before (h : Gapless lo ds hi) : ds.Pairwise PIMData.Before := by
  induction ds generalizing lo with
  | nil => exact List.Pairwise.nil
  | cons d ds ih =>
    refine pairwise_cons.mpr ⟨fun e he => ?_, ih h.2.2⟩
    have := (h.2.2.mem e he).2.1
    rw [← h.1] at this
    exact this

end Gapless

lemma Built.successor_bytes (h : Built p s) (hn : n ∈ s.nodes) (hlo : n.successors ≤ x)
    (hhi : x < n.successors + n.outDegree * p.host.arch.bytes) : p.lists ≤ x ∧ x < p.lists + s.successorsSize := by
  have hdegree : n.outDegree ≠ 0 := by
    intro hzero
    rw [hzero, zero_mul] at hhi
    omega
  have := h.successors.inside n.successorBlock (mem_map_of_mem hn) hdegree
  unfold Node.successorBlock word at this
  simp only at this
  omega

lemma Built.weight_bytes (h : Built p s) (hkernel : p.kernel = .bellmanFord) (hn : n ∈ s.nodes)
    (hlo : n.weights ≤ x) (hhi : x < n.weights + n.outDegree * p.host.arch.bytes) :
    p.lists + s.successorsSize ≤ x ∧ x < p.lists + s.successorsSize + s.weightsSize := by
  have hdegree : n.outDegree ≠ 0 := by
    intro hzero
    rw [hzero, zero_mul] at hhi
    omega
  have := (h.weights hkernel).inside n.weightBlock (mem_map_of_mem hn) hdegree
  unfold Node.weightBlock word at this
  simp only at this
  omega

def Build.stop (p : Params) (s : Build) : ℕ :=
  p.lists + s.successorsSize + if p.kernel = .bellmanFord then s.weightsSize else 0

lemma Built.uses (h : Built p s) (hx : s.Uses p x) : p.base ≤ x ∧ x < s.stop p := by
  have hptr := h.nodesPtr
  unfold stop
  rcases hx with hx | ⟨hbfs, hx⟩ | ⟨n, hn, hlo, hhi⟩ | ⟨hkernel, n, hn, hlo, hhi⟩
  · unfold lists
    omega
  · have hqueue := h.queue hbfs
    unfold lists queueBytes word
    rw [if_pos hbfs]
    omega
  · have := h.successor_bytes hn hlo hhi
    unfold lists at this ⊢
    omega
  · have := h.weight_bytes hkernel hn hlo hhi
    rw [if_pos hkernel]
    unfold lists at this ⊢
    omega

lemma endPage_lt (hshift : 1 ≤ shift) (d : PIMData) : d.endPage a shift < 2 ^ a.bits - 1 := by
  have hlt : a.sub (a.ulong (d.vAddr + d.size)) 1 < 2 ^ a.bits := Arch.ulong_lt _ _
  have htwo : 2 ^ a.bits / 2 < 2 ^ a.bits - 1 := by cases a <;> decide
  unfold endPage
  rw [Nat.shiftRight_eq_div_pow]
  calc _ ≤ a.sub (a.ulong (d.vAddr + d.size)) 1 / 2 :=
        Nat.div_le_div_left (by simpa using Nat.pow_le_pow_right two_pos hshift) two_pos
    _ ≤ 2 ^ a.bits / 2 := Nat.div_le_div_right hlt.le
    _ < 2 ^ a.bits - 1 := htwo

def front (p : Params) (s : Build) : List PIMData :=
  ⟨s.nodesPtr, p.nodes * p.nodeSize, 0⟩ ::
    if p.kernel = .bfs then [⟨s.queue, p.nodes * p.host.arch.bytes, 4⟩] else []

end SmcPim.Sgraph
