import SmcPim.Lib.Text
import SmcPim.Machine

/-!
# Kernel images

`UTILS/dump_hex.py` appends a section of an ELF file to a text, and `PIMAPI::offload_kernel` reads such a text and writes the
bytes to the memory of the PIM. Texts are lists of characters.
-/

namespace SmcPim.Image

open Text

/-! ## `dump_hex` -/

/-- Where a section is in the file and where it goes, after `long(.., 16)`. -/
structure Section where
  off : ℕ
  addr : ℕ
  size : ℕ
  deriving DecidableEq, Repr

structure Loader where
  loadOffset : ℕ
  loadSize : ℕ
  numBytes : ℕ
  /-- The calls of `write_byte`. -/
  writes : List (ℕ × UInt8)
  /-- `num_bytes == load_size` at each `@END`. -/
  checks : List Bool
  deriving DecidableEq, Repr

section
variable (a : Arch)

def toUlong (x : ℤ) : ℕ := (x % 2 ^ a.bits).toNat

def Loader.store (value : UInt8) (s : Loader) : Loader :=
  { s with
    writes := s.writes ++ [(s.loadOffset, value)]
    numBytes := a.ulong (s.numBytes + 1)
    loadOffset := a.ulong (s.loadOffset + 1) }

def Loader.finish (s : Loader) : Loader :=
  { s with checks := s.checks ++ [decide (s.numBytes = s.loadSize)], numBytes := 0 }

end

def Section.bytes (src : List UInt8) (s : Section) : List UInt8 := (src.drop s.off).take s.size

end SmcPim.Image
