import Mathlib

/-!
# Partitioned lists

How `testProject/test/main.cpp` makes the partitions, and how its threads route a key to one. A
partition is given by its bounds.
-/

namespace SmcPim.FlatCombining

open List Nat

variable {size n key : ℕ}

end SmcPim.FlatCombining
