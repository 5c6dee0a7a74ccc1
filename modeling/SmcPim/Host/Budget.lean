import SmcPim.Sgraph.Layout
import SmcPim.Tree.Model

/-! # The budget of the shared region -/

namespace SmcPim

open Stops Nat

/-! ## The tree -/

namespace TreeSearch

variable {p : Params} {i : ℕ}

lemma pow2_le (a : Arch) (n : ℕ) : pow2 a n ≤ 2 ^ n := by
  refine loop_inv (fun k res => res ≤ 2 ^ k) le_rfl fun k res _ hres => ?_
  calc a.ulong (res * 2) ≤ res * 2 := mod_le _ _
    _ ≤ 2 ^ (k + 1) := by
      rw [pow_succ]
      exact mul_le_mul_right 2 hres

structure Grown (p : Params) (i : ℕ) (r : Host.Region) : Prop where
  packed : r.Packed p.host.initRegion.aligned
  aligned_le : r.aligned ≤ p.host.initRegion.aligned + (2 ^ i - 1) * p.nodeSize

lemma createRow_region (i : ℕ) (s : App × ℕ) : (createRow p i s).1.region =
    (s.1.region.allocateRegion (p.host.arch.ulong (pow2 p.host.arch i * p.nodeSize))).2 := by
  unfold createRow
  simp only
  split
  · rfl
  · rfl

lemma Grown.step {s : App × ℕ} (h : Grown p i s.1.region) : Grown p (i + 1)
    (createRow p i s).1.region := by
  rw [createRow_region]
  refine ⟨h.packed.allocate, ?_⟩
  have hsize : p.host.arch.ulong (pow2 p.host.arch i * p.nodeSize) ≤ 2 ^ i * p.nodeSize :=
    (mod_le _ _).trans (mul_le_mul_right _ (pow2_le _ _))
  have hpos := Nat.two_pow_pos i
  calc s.1.region.aligned + p.host.arch.ulong (pow2 p.host.arch i * p.nodeSize)
      ≤ p.host.initRegion.aligned + (2 ^ i - 1) * p.nodeSize + 2 ^ i * p.nodeSize := Nat.add_le_add h.aligned_le hsize
    _ = p.host.initRegion.aligned + (2 ^ (i + 1) - 1) * p.nodeSize := by
      rw [add_assoc, ← add_mul, pow_succ, show 2 ^ i - 1 + 2 ^ i = 2 ^ i * 2 - 1 by omega]

end TreeSearch

end SmcPim
