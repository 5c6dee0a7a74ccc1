import SmcPim.Lib.Runs
import SmcPim.PimList.Kernel

/-! # Keys that meet the sentinels -/

namespace SmcPim.PimList

open Layout List Nat SetOp

variable {L : Layout} {m m' : Memory} {live free xs : List Nat} {k fuel a p : Nat} {op : SetOp Nat}

/-! ## Keys above the tail -/

section
variable (h : Chain (L.next m) a xs 0) (hbelow : ∀ x ∈ xs, L.key m x < k) (hpos : ∀ x ∈ xs, 0 < x)
  (hfuel : xs.length < fuel)
include h hbelow hpos hfuel

end

namespace Heap

section
variable (h : Heap L m live free) (hfuel : live.length < fuel)
include h hfuel

end

end Heap

/-! ## Runs -/

def Guarded (L : Layout) (m : Memory) : Prop :=
  ∃ live free, Chain (L.next m) L.head (L.head :: live) L.tail ∧
    Chain (L.key m) (L.readSreg m 3) free 0 ∧ L.head ∉ free ∧ L.tail ∉ free

def Allowed (s : Memory × Finset Nat) : SetOp Nat → Prop
  | .add k => k ≤ uint32Max
  | .remove k => k < uint32Max
  | .contains k => k < uint32Max ∧ (k = 0 → 0 ∈ s.2)

lemma Heap.guarded (h : Heap L m live free) : Guarded L m := by
  obtain ⟨hhead, htail, -⟩ := L.sentinel_not_mem
  refine ⟨live, free, h.list, h.freeList, ?_, ?_⟩
  · exact fun hmem => hhead (h.blocks.mem_iff.mp (mem_append_right _ hmem))
  · exact fun hmem => htail (h.blocks.mem_iff.mp (mem_append_right _ hmem))

def begun (L : Layout) : Memory × Finset Nat :=
  (L.listInit (L.writeSreg (fun _ => 0) 0 0), ∅)

end SmcPim.PimList
