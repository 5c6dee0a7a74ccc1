import SmcPim.Lib.While

/-!
# Flushing a range from a cache

From `ethz_flush_range` in `mem/cache/cache_impl.hh` and the functions it calls in `mem/cache/tags`
and `mem/cache/blk.hh`. A set is the list of its ways, the most recently used one first. Statistics
are left out.
-/

namespace SmcPim.Cache

/-- A cache with `2 ^ setBits` sets and blocks of `2 ^ blkBits` bytes. -/
structure Geometry where
  blkBits : ℕ
  setBits : ℕ

namespace Geometry

variable (g : Geometry)

def blkSize : ℕ := 2 ^ g.blkBits

def numSets : ℕ := 2 ^ g.setBits

def setShift : ℕ := g.blkBits

def tagShift : ℕ := g.setShift + g.setBits

def setMask : ℕ := g.numSets - 1

def extractTag (addr : ℕ) : ℕ := addr >>> g.tagShift

def extractSet (addr : ℕ) : ℕ := (addr >>> g.setShift) &&& g.setMask

def regenerateBlkAddr (tag set : ℕ) : ℕ := tag <<< g.tagShift ||| set <<< g.setShift

end Geometry

structure Blk (δ : Type) where
  tag : ℕ
  data : δ
  size : ℕ
  status : ℕ
  isTouched : Bool
  refCount : ℕ
  srcMasterId : ℕ
  deriving DecidableEq

namespace Blk

variable {δ : Type} (b : Blk δ)

def isValid : Bool := b.status &&& 0x01 != 0

def isDirty : Bool := b.status &&& 0x08 != 0

def isSecure : Bool := b.status &&& 0x40 != 0

/-- `BaseSetAssoc::invalidate`, with `Request::invldMasterId`, and `CacheBlk::invalidate`. -/
def invalidate : Blk δ := { b with srcMasterId := 0xFFFF, status := 0, isTouched := false }

end Blk

structure Write (δ : Type) where
  address : ℕ
  size : ℕ
  data : δ

variable {δ : Type}

def findBlk (tag : ℕ) (secure : Bool) : List (Blk δ) → Option (Blk δ × List (Blk δ))
  | [] => none
  | b :: ways =>
    if b.tag = tag ∧ b.isValid ∧ b.isSecure = secure then some (b, ways)
    else (findBlk tag secure ways).map fun x => (x.1, b :: x.2)

/-- `accessBlock` moves the block to the head of its set. -/
def accessBlock (tag : ℕ) (secure : Bool) (ways : List (Blk δ)) : Option (Blk δ × List (Blk δ)) :=
  (findBlk tag secure ways).map fun x => ({ x.1 with refCount := x.1.refCount + 1 }, x.2)

variable (g : Geometry)

structure State (δ : Type) where
  address : ℕ
  sets : ℕ → List (Blk δ)
  sent : List (Write δ)

/-- The body of the loop. The block that is found goes from the head of its set to the tail. -/
def flushBlk (s : State δ) : State δ :=
  let set := g.extractSet s.address
  let tag := g.extractTag s.address
  let address := (s.address + g.blkSize) % 2 ^ 64
  match accessBlock tag true (s.sets set) <|> accessBlock tag false (s.sets set) with
  | none => { s with address }
  | some (blk, others) =>
    { address
      sets := Function.update s.sets set (others ++ [blk.invalidate])
      sent := if blk.isDirty then s.sent ++ [⟨s.address, blk.size, blk.data⟩] else s.sent }

/-- `(start_addr / blkSize) * blkSize`. -/
def align (start : ℕ) : ℕ := start / g.blkSize * g.blkSize

def flushRange (start stop : ℕ) (fuel : ℕ) (sets : ℕ → List (Blk δ)) : Option (State δ) :=
  whileLoop (fun s => decide (s.address ≤ stop)) (flushBlk g) fuel ⟨align g start, sets, []⟩

end SmcPim.Cache
