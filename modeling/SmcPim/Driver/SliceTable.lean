import SmcPim.Machine

/-!
# The merging loop of `pim_create_slice_table`

From `SW/HOST/driver/pim.c`. The loop has the readable memory from the start of `physical_addr` on.
A read past it faults.
-/

namespace SmcPim.Driver

@[ext] structure Slice where
  vaddr : Nat
  paddr : Nat
  size : Nat
  deriving DecidableEq, Repr

/-- How the driver is built: the machine, the page size of its kernel, `PIM_MERGE_SLICES`. -/
structure Build where
  arch : Arch
  pageShift : Nat
  mergeSlices : Bool
  deriving DecidableEq, Repr

def Build.pageSize (b : Build) : Nat := 2 ^ b.pageShift

/-- What the loop does to the two arrays, in order. -/
structure MergeLog where
  reads : List Nat
  writes : List (Nat × Slice)
  statNumslices : Nat
  finished : Bool
  deriving DecidableEq, Repr

/-- The inner `while`, with `c` pages merged so far: what it reads, and its last `c`. -/
def countContiguous (b : Build) (mem : List Nat) (i : Nat) : Nat → Nat → List Nat × Option Nat
  | 0, _ => ([], none)
  | fuel + 1, c =>
    match mem[i + c - 1]?, mem[i + c]? with
    | some x, some y =>
      if b.arch.ulong (x + b.pageSize) = y then
        let (rs, r) := countContiguous b mem i fuel (c + 1)
        ((i + c - 1) :: (i + c) :: rs, r)
      else ([i + c - 1, i + c], some c)
    | _, _ => ([i + c - 1, i + c], none)

def runAt (b : Build) (mem : List Nat) (count i : Nat) : List Nat × Option Nat :=
  if b.mergeSlices ∧ i < count - 1 then countContiguous b mem i mem.length 1 else ([], some 1)

/-- The slice of the `c` pages from page `i` on, the page itself at `paddr`. -/
def sliceAt (b : Build) (vaddrStart i c paddr : Nat) : Slice :=
  { vaddr := b.arch.ulong (vaddrStart + b.pageSize * i)
    paddr := paddr
    size := b.arch.ulong (b.pageSize * c) }

/-- The outer `while` from page `i` on. A round advances by at least one page. -/
def mergeLoop (b : Build) (mem : List Nat) (count vaddrStart : Nat) : Nat → Nat → MergeLog
  | 0, _ => ⟨[], [], 0, true⟩
  | fuel + 1, i =>
    if i < count then
      let (rs, r) := runAt b mem count i
      match r with
      | none => ⟨rs, [], 0, false⟩
      | some c =>
        let rest := mergeLoop b mem count vaddrStart fuel (i + c)
        let slice := sliceAt b vaddrStart i c (mem.getD i 0)
        { reads := rs ++ List.replicate c i ++ rest.reads
          writes := (List.range c).map (fun j => (i + j, slice)) ++ rest.writes
          statNumslices := rest.statNumslices + 1
          finished := rest.finished }
    else ⟨[], [], 0, true⟩

def mergeSlices (b : Build) (physicalAddr after : List Nat) (vaddrStart : Nat) : MergeLog :=
  mergeLoop b (physicalAddr ++ after) physicalAddr.length vaddrStart physicalAddr.length 0

/-! ## Publishing the table -/

def sizeofSlice (a : Arch) : Nat := 3 * a.bytes

def storeSlice (a : Arch) (mem : Memory) (addr : Nat) (s : Slice) : Memory := fun x =>
  if x = addr then s.vaddr
  else if x = addr + a.bytes then s.paddr
  else if x = addr + 2 * a.bytes then s.size
  else mem x

/-- The writes to `slicetable`, which lies at `slicetablePaddr` in physical memory. -/
def storeTable (a : Arch) (slicetablePaddr : Nat) (writes : List (Nat × Slice)) (mem : Memory) :
    Memory :=
  writes.foldl (fun m w => storeSlice a m (slicetablePaddr + w.1 * sizeofSlice a) w.2) mem

structure Published where
  mem : Memory
  pimSlicetable : Nat
  pimSlicevstart : Nat

def pimCreateSliceTable (b : Build) (physicalAddr after : List Nat)
    (vaddrStart slicetablePaddr : Nat) (mem : Memory) : Published :=
  let log := mergeSlices b physicalAddr after vaddrStart
  let mem := storeTable b.arch slicetablePaddr log.writes mem
  { mem := mem
    pimSlicetable := slicetablePaddr
    pimSlicevstart := b.arch.ulong (mem slicetablePaddr) }

end SmcPim.Driver
