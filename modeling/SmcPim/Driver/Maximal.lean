import SmcPim.Driver.Failures

/-! # Maximal runs of pages -/

namespace SmcPim.Driver

open List Nat

variable {b : Build} {pages after : List Nat} {vaddrStart k i d : Nat}

def entries (b : Build) (vaddrStart : Nat) : Nat → List (List Nat) → List (Nat × Slice)
  | _, [] => []
  | i, run :: runs =>
    (range run.length).map (fun j => (i + j, sliceAt b vaddrStart i run.length (run.headD 0))) ++
      entries b vaddrStart (i + run.length) runs

end SmcPim.Driver
