import SmcPim.Resident

/-!
# Matrix addition on the PIM

From `SW/PIM/kernels/matrix_add.c`. The matrices are regions of memory, each with what lies behind
it.
-/

namespace SmcPim.MatrixAdd

inductive Matrix
  | A | B | C
  deriving DecidableEq

structure World where
  mem : Matrix → ℕ → Fin 256
  vreg : ℕ → Fin 256

structure Params where
  arch : Arch
  xferSize : ℕ
  maxXferSize : ℕ
  size : ℕ

/-! ## Words in memory -/

def load (n : ℕ) (mem : ℕ → Fin 256) (addr : ℕ) : ℕ := ∑ i ∈ Finset.range n, (mem (addr + i)).val * 256 ^ i

def byteOf (x i : ℕ) : Fin 256 := ⟨x / 256 ^ i % 256, Nat.mod_lt _ (by decide)⟩

def store (n : ℕ) (mem : ℕ → Fin 256) (addr x : ℕ) : ℕ → Fin 256 :=
  fun o => if addr ≤ o ∧ o < addr + n then byteOf x (o - addr) else mem o

def copy (n : ℕ) (src : ℕ → Fin 256) (from_ : ℕ) (dst : ℕ → Fin 256) (to_ : ℕ) : ℕ → Fin 256 :=
  fun o => if to_ ≤ o ∧ o < to_ + n then src (from_ + (o - to_)) else dst o

namespace World

def setMem (w : World) (M : Matrix) (f : ℕ → Fin 256) : World := { w with mem := Function.update w.mem M f }

end World

section
variable (p : Params)

def Params.ss : ℕ := p.arch.ulong (p.size * p.size)

def Params.numBursts : ℕ := p.arch.ulong (p.ss * p.arch.bytes) / p.xferSize

def addElement (i : ℕ) (mem : Matrix → ℕ → Fin 256) : Matrix → ℕ → Fin 256 :=
  let n := p.arch.bytes
  Function.update mem .C
    (store n (mem .C) (i * n) (p.arch.ulong (load n (mem .A) (i * n) + load n (mem .B) (i * n))))

def kernelDefault (mem : Matrix → ℕ → Fin 256) : Matrix → ℕ → Fin 256 := loop (addElement p) p.ss mem

/-! ## `kernel_best` -/

/-- A transfer of `XFER_SIZE` bytes between a matrix and the vector registers. -/
structure Transfer where
  matrix : Matrix
  offset : ℕ
  vreg : ℕ
  write : Bool
  deriving DecidableEq

def effect (d : Transfer) (w : World) : World :=
  if d.write then w.setMem d.matrix (copy p.xferSize w.vreg d.vreg (w.mem d.matrix) d.offset)
  else { w with vreg := copy p.xferSize (w.mem d.matrix) d.offset w.vreg d.vreg }

def overlap (x y : ℕ) : Bool := x < y + p.xferSize && y < x + p.xferSize

def engine (ends : ℕ → List ℕ) : Engine World Transfer where
  effect := effect p
  meets d d' := overlap p d.vreg d'.vreg
  ends := ends

def bufA (base : ℕ) : ℕ := base + p.xferSize * 0
def bufB (base : ℕ) : ℕ := base + p.xferSize * 1
def bufC (base : ℕ) : ℕ := base + p.xferSize * 2

def disturbs (ping : ℕ) (d : Transfer) : Bool :=
  !d.write && (overlap p d.vreg (bufA p ping) || overlap p d.vreg (bufB p ping)) ||
    overlap p d.vreg (bufC p ping)

def addWord (ping j : ℕ) (w : World) : World :=
  let n := p.arch.bytes
  let x := p.arch.ulong (load n w.vreg (bufA p ping + j * n) + load n w.vreg (bufB p ping + j * n))
  { w with vreg := store n w.vreg (bufC p ping + j * n) x }

structure State where
  ping : ℕ
  pong : ℕ
  machine : Machine World DmaRes Transfer

variable (ends : ℕ → List ℕ)

def fillPong (x : ℕ) (s : State) : State :=
  let E := engine p ends
  if x + 1 < p.numBursts then
    let m := E.request .res2 ⟨.A, (x + 1) * p.xferSize, bufA p s.pong, false⟩ s.machine
    let m := E.request .res3 ⟨.B, (x + 1) * p.xferSize, bufB p s.pong, false⟩ m
    { s with machine := m }
  else s

def workOnPing (s : State) : State :=
  let step (j : ℕ) := (engine p ends).act (disturbs p s.ping) (addWord p s.ping j)
  { s with machine := loop step (p.xferSize / p.arch.bytes) s.machine }

def writeBack (x : ℕ) (s : State) : State :=
  let E := engine p ends
  let m := E.wait [.res4] s.machine
  { s with machine := E.request .res4 ⟨.C, x * p.xferSize, bufC p s.ping, true⟩ m }

def swap (s : State) : State :=
  let E := engine p ends
  ⟨s.pong, s.ping, E.wait [.res3] (E.wait [.res2] s.machine)⟩

def burst (x : ℕ) (s : State) : State :=
  swap p ends (writeBack p ends x (workOnPing p ends (fillPong p ends x s)))

def fillPing (w : World) : State :=
  let E := engine p ends
  let ping := 0
  let m := E.request .res0 ⟨.A, 0, bufA p ping, false⟩ (Machine.boot w)
  let m := E.request .res1 ⟨.B, 0, bufB p ping, false⟩ m
  ⟨ping, p.maxXferSize * 3, E.wait [.res1] (E.wait [.res0] m)⟩

def kernelBest (w : World) : Machine World DmaRes Transfer :=
  (engine p ends).wait [.res4] (loop (burst p ends) p.numBursts (fillPing p ends w)).machine

end

end SmcPim.MatrixAdd
