import SmcPim.Image.Model

/-! # What is dumped is loaded -/

namespace SmcPim.Image

open Text List Nat

variable {a : Arch} {src code : List UInt8} {s : Section} {l : Loader} {terms : List (List Char)}

/-! ## Reading the file -/

structure Section.Present (src : List UInt8) (s : Section) : Prop where
  size_pos : 1 ≤ s.size
  inside : s.off + s.size ≤ src.length

lemma Section.Present.length (h : s.Present src) : (s.bytes src).length = s.size := by
  have := h.inside
  rw [Section.bytes, length_take, length_drop]
  omega

def placed (a : Arch) : ℕ → List UInt8 → List (ℕ × UInt8)
  | _, [] => []
  | off, b :: code => (off, b) :: placed a (a.ulong (off + 1)) code

end SmcPim.Image
