import SmcPim.Lib.Trees
import SmcPim.Tree.Model

/-! # The rows of the tree -/

namespace SmcPim.TreeSearch

open Function Nat Params

variable {p : Params} {mem mem₀ : ℕ → ℕ} {i j k n : ℕ}

def Params.base (p : Params) : ℕ := p.host.initRegion.aligned

def Params.place (p : Params) (k : ℕ) : ℕ := p.base + k * p.nodeSize

def Params.field (p : Params) (k f : ℕ) : ℕ := p.place k + f * p.word

def Params.Fits (p : Params) : Prop := p.host.regionEnd p.requiredMemSize ≤ 2 ^ p.host.arch.bits

lemma word_pos (p : Params) : 0 < p.word := p.host.arch.bytes_pos

lemma base_pos (p : Params) : 0 < p.base := by
  obtain ⟨pad, -, hbase⟩ := p.host.aligned_eq
  have := p.host.raw_pos
  unfold base
  omega

lemma field_inj {k' f f' : ℕ} (hf : f < 3) (hf' : f' < 3) :
    p.field k f = p.field k' f' ↔ k = k' ∧ f = f' := by
  have hflat : ∀ k f, p.field k f = p.base + (3 * k + f) * p.word := by
    intro k f
    unfold field place nodeSize
    ring
  rw [hflat, hflat, Nat.add_left_cancel_iff, Nat.mul_left_inj (word_pos p).ne']
  omega

lemma place_add (k j : ℕ) : p.place k + j * p.nodeSize = p.place (k + j) := by
  unfold place
  ring

lemma pow2_eq {a : Arch} (h : n < a.bits) : pow2 a n = 2 ^ n := by
  unfold pow2
  refine loop_inv (fun k res => k < a.bits → res = 2 ^ k) (fun _ => rfl) (fun k res hk hres hlt => ?_) h
  rw [hres (by omega), ← pow_succ]
  exact Arch.ulong_of_lt (Nat.pow_lt_pow_right one_lt_two hlt)

lemma Params.Fits.lt (h : p.Fits) :
    p.base + 2 ^ p.height * p.nodeSize + p.numOperations * p.word < 2 ^ p.host.arch.bits + 1 := by
  obtain ⟨pad, hpad, hbase⟩ := p.host.aligned_eq
  unfold Fits Host.Config.regionEnd Host.Config.maxRegionSize requiredMemSize at h
  unfold base
  omega

lemma Params.Fits.height_lt (h : p.Fits) : p.height < p.host.arch.bits := by
  have hlt := h.lt
  have hw := word_pos p
  have hbase := base_pos p
  refine (Nat.pow_lt_pow_iff_right one_lt_two).mp ?_
  have hle : 2 ^ p.height ≤ 2 ^ p.height * p.nodeSize := Nat.le_mul_of_pos_right _ (by unfold nodeSize; omega)
  omega

lemma Params.Fits.row_size (h : p.Fits) (hi : i ≤ p.height) :
    p.host.arch.ulong (pow2 p.host.arch i * p.nodeSize) = 2 ^ i * p.nodeSize := by
  have hlt := h.lt
  have hbits := h.height_lt
  have hbase := base_pos p
  have hle : 2 ^ i * p.nodeSize ≤ 2 ^ p.height * p.nodeSize :=
    Nat.mul_le_mul_right _ (Nat.pow_le_pow_right two_pos hi)
  rw [pow2_eq (by omega)]
  exact Arch.ulong_of_lt (by omega)

/-! ## Links -/

structure Linked (p : Params) (mem₀ : ℕ → ℕ) (n : ℕ) (mem : ℕ → ℕ) : Prop where
  left : ∀ k < n, mem (p.field k 1) = p.place (2 * k + 1)
  right : ∀ k < n, mem (p.field k 2) = p.place (2 * k + 2)
  rest : ∀ x, (∀ k < n, x ≠ p.field k 1 ∧ x ≠ p.field k 2) → mem x = mem₀ x

lemma linked_zero : Linked p mem₀ 0 mem₀ :=
  ⟨by simp, by simp, fun _ _ => rfl⟩

lemma Linked.link (h : Linked p mem₀ (n + j) mem) :
    Linked p mem₀ (n + j + 1) (link p (p.place n) (p.place (2 * n + 1)) j mem) := by
  have hleft : p.place n + j * p.nodeSize + p.word = p.field (n + j) 1 := by
    rw [place_add, field, one_mul]
  have hright : p.place n + j * p.nodeSize + 2 * p.word = p.field (n + j) 2 := by rw [place_add, field]
  have hchild : p.place (2 * n + 1) + j * 2 * p.nodeSize = p.place (2 * (n + j) + 1) := by
    rw [place_add]
    congr 1
    ring
  have hchild' : p.place (2 * n + 1) + (j * 2 + 1) * p.nodeSize = p.place (2 * (n + j) + 2) := by
    rw [place_add]
    congr 1
    ring
  unfold TreeSearch.link
  simp only [hleft, hright, hchild, hchild']
  refine ⟨fun k hk => ?_, fun k hk => ?_, fun x hx => ?_⟩
  · rw [update_of_ne (by rw [Ne, field_inj (by decide) (by decide)]; omega)]
    rcases Nat.lt_succ_iff_lt_or_eq.mp hk with hk | rfl
    · rw [update_of_ne (by rw [Ne, field_inj (by decide) (by decide)]; omega)]
      exact h.left k hk
    · exact update_self _ _ _
  · rcases Nat.lt_succ_iff_lt_or_eq.mp hk with hk | rfl
    · rw [update_of_ne (by rw [Ne, field_inj (by decide) (by decide)]; omega),
        update_of_ne (by rw [Ne, field_inj (by decide) (by decide)]; omega)]
      exact h.right k hk
    · exact update_self _ _ _
  · obtain ⟨hl, hr⟩ := hx (n + j) (lt_succ_self _)
    rw [update_of_ne hr, update_of_ne hl]
    exact h.rest x fun k hk => hx k (hk.trans (lt_succ_self _))

lemma Linked.row (h : Linked p mem₀ n mem) (m : ℕ) :
    Linked p mem₀ (n + m) (loop (TreeSearch.link p (p.place n) (p.place (2 * n + 1))) m mem) :=
  loop_inv (fun j mem => Linked p mem₀ (n + j) mem) h fun _ _ _ h => h.link

/-! ## Rows -/

structure Rows (p : Params) (mem₀ : ℕ → ℕ) (i : ℕ) (s : App × ℕ) : Prop where
  aligned : s.1.region.aligned = p.place (2 ^ i - 1)
  blocks : s.1.region.blocks = (List.range i).map fun l => ⟨p.place (2 ^ l - 1), 2 ^ l * p.nodeSize⟩
  tree : 0 < i → s.1.tree = p.base
  above : 0 < i → s.2 = p.place (2 ^ (i - 1) - 1)
  linked : Linked p mem₀ (2 ^ (i - 1) - 1) s.1.mem

lemma rows_zero_start (mem₀ : ℕ → ℕ) :
    Rows p mem₀ 0 ({ mem := mem₀, region := p.host.initRegion, tree := 0, searchList := 0 }, 0) where
  aligned := by
    unfold place
    simp
    rfl
  blocks := rfl
  tree := by simp
  above := by simp
  linked := linked_zero

lemma Rows.step (hfits : p.Fits) {s : App × ℕ} (h : Rows p mem₀ i s) (hi : i < p.height) :
    Rows p mem₀ (i + 1) (createRow p i s) := by
  have hsize := hfits.row_size hi.le
  have hpos := Nat.two_pow_pos i
  have haligned : s.1.region.aligned + 2 ^ i * p.nodeSize = p.place (2 ^ (i + 1) - 1) := by
    rw [h.aligned, place_add]
    congr 1
    rw [pow_succ]
    omega
  have hblocks : s.1.region.blocks ++ [⟨s.1.region.aligned, 2 ^ i * p.nodeSize⟩] =
      (List.range (i + 1)).map fun l => ⟨p.place (2 ^ l - 1), 2 ^ l * p.nodeSize⟩ := by
    rw [h.blocks, h.aligned, List.range_succ, List.map_append]
    rfl
  unfold createRow Host.Region.allocateRegion
  rw [hsize]
  simp only
  split
  · rename_i hzero
    subst hzero
    refine ⟨haligned, hblocks, fun _ => ?_, fun _ => h.aligned, h.linked⟩
    exact h.aligned.trans (by unfold place; simp)
  · rename_i hne
    refine ⟨haligned, hblocks, fun _ => h.tree (by omega), fun _ => h.aligned, ?_⟩
    obtain ⟨m, rfl⟩ : ∃ m, i = m + 1 := ⟨i - 1, by omega⟩
    have hbits := hfits.height_lt
    have hm := Nat.two_pow_pos m
    have hrow := h.linked.row (2 ^ m)
    rw [Nat.add_sub_cancel, show 2 * (2 ^ m - 1) + 1 = 2 ^ (m + 1) - 1 by rw [pow_succ]; omega,
      show 2 ^ m - 1 + 2 ^ m = 2 ^ (m + 1) - 1 by rw [pow_succ]; omega] at hrow
    rw [h.above (by omega), h.aligned, Nat.add_sub_cancel, Nat.add_sub_cancel, pow2_eq (by omega)]
    exact hrow

lemma createTree_rows (hfits : p.Fits) (mem₀ : ℕ → ℕ) :
    ∃ above, Rows p mem₀ p.height
      (createTree p { mem := mem₀, region := p.host.initRegion, tree := 0, searchList := 0 }, above) :=
  ⟨_, loop_inv (Rows p mem₀) (rows_zero_start mem₀) fun _ _ hi h => h.step hfits hi⟩

end SmcPim.TreeSearch
