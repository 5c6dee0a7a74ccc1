import SmcPim.Machine

/-!
# The region shared with the PIM

`app/app_utils.hh`: a static array, and an allocator that hands out its bytes in order. `blocks`
records the calls of `allocate_region`.
-/

namespace SmcPim.Host

structure Block where
  start : Nat
  size : Nat
  deriving DecidableEq, Repr

structure Config where
  arch : Arch
  /-- `PHY_SIZE` -/
  phySize : Nat
  /-- `SMC_BURST_SIZE_B` -/
  burstSize : Nat
  regionRaw : Nat
  burst_pos : 0 < burstSize
  raw_pos : 0 < regionRaw

/-- An ARMv7 host with the sizes of `gem5_pim.sh`. -/
def Config.arm : Config :=
  { arch := .arm, phySize := 0x100000, burstSize := 256, regionRaw := 0x8a010, burst_pos := by decide,
    raw_pos := by decide }

def Config.maxRegionSize (c : Config) (requiredMemSize : Nat) : Nat := c.phySize + requiredMemSize + c.burstSize

/-- `region_aligned` with the calls of `allocate_region` so far. -/
structure Region where
  aligned : Nat
  blocks : List Block
  deriving DecidableEq, Repr

def Config.regionEnd (c : Config) (requiredMemSize : Nat) : Nat := c.regionRaw + c.maxRegionSize requiredMemSize

def Config.initRegion (c : Config) : Region :=
  let aligned := c.regionRaw + c.phySize
  let mod := aligned % c.burstSize
  { aligned := if mod ≠ 0 then aligned + c.burstSize - mod else aligned, blocks := [] }

def Region.allocateRegion (size : Nat) (r : Region) : Nat × Region :=
  (r.aligned, { aligned := r.aligned + size, blocks := r.blocks ++ [⟨r.aligned, size⟩] })

inductive Stop
  | divisionByZero
  /-- A loop or a recursion goes on. -/
  | outOfFuel
  /-- `exit(1)` -/
  | exit
  deriving DecidableEq, Repr

/-! ## Blocks one after the other -/

def Block.Before (b c : Block) : Prop := b.start + b.size ≤ c.start

structure Region.Packed (start : Nat) (r : Region) : Prop where
  le : start ≤ r.aligned
  ordered : r.blocks.Pairwise Block.Before
  inside : ∀ b ∈ r.blocks, start ≤ b.start ∧ b.start + b.size ≤ r.aligned

variable {c : Config} {r : Region} {start size : Nat}

lemma Config.aligned_eq (c : Config) :
    ∃ pad < c.burstSize, c.initRegion.aligned = c.regionRaw + c.phySize + pad := by
  have hlt := Nat.mod_lt (c.regionRaw + c.phySize) c.burst_pos
  unfold initRegion
  simp only
  split
  · exact ⟨c.burstSize - (c.regionRaw + c.phySize) % c.burstSize, by omega, by omega⟩
  · exact ⟨0, c.burst_pos, rfl⟩

lemma Region.Packed.allocate (h : r.Packed start) : (r.allocateRegion size).2.Packed start := by
  refine ⟨h.le.trans (Nat.le_add_right _ _), ?_, ?_⟩
  · unfold allocateRegion
    rw [List.pairwise_append]
    refine ⟨h.ordered, List.pairwise_singleton _ _, fun b hb d hd => ?_⟩
    rw [List.mem_singleton.mp hd]
    exact (h.inside b hb).2
  · intro b hb
    rcases List.mem_append.mp hb with hb | hb
    · exact ⟨(h.inside b hb).1, (h.inside b hb).2.trans (Nat.le_add_right _ _)⟩
    · rw [List.mem_singleton.mp hb]
      exact ⟨h.le, le_rfl⟩

end SmcPim.Host
