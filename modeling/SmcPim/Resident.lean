import SmcPim.Machine
import SmcPim.Lib.Engine

/-!
# What the resident code gives to the kernels

From `SW/PIM/resident/definitions.h` and `utils.h`: the resources of the DMA engine.
-/

namespace SmcPim

inductive DmaRes
  | res0 | res1 | res2 | res3 | res4 | res5 | res6
  deriving DecidableEq

/-- The machine when a kernel starts for the first time. -/
def Machine.boot {σ δ : Type*} (w : σ) : Machine σ DmaRes δ := ⟨w, [], 0, []⟩

end SmcPim
