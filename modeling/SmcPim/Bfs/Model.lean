import SmcPim.Machine
import SmcPim.Lib.Search

/-!
# Breadth-first search on the PIM

From `SW/PIM/kernels/sgraph_bfs.c`, `SW/HOST/app/offload_sgraph/defs.hh` and `utils.hh`. Nodes are
their indices.
-/

namespace SmcPim.Bfs

/-! ## Graphs -/

structure Graph (a : Arch) where
  nodes : ℕ
  successors : Fin nodes → List (Fin nodes)
  nodes_lt : nodes < 2 ^ a.bits
  degree_lt : ∀ v, (successors v).length < 2 ^ a.bits

def Graph.outDegree {a : Arch} (g : Graph a) (v : Fin g.nodes) : ℕ := (g.successors v).length

/-- `NC`, the distance of a node that was not visited. -/
def nc (a : Arch) : ℕ := 2 ^ a.bits - 1

def resetGraphStats {a : Arch} (g : Graph a) : Fin g.nodes → ℕ := fun v => if v.val = 0 then 0 else nc a

/-! ## The queue -/

/-- A `queue_push`: the slot that it wrote, and the queue before it. -/
structure Push where
  slot : ℕ
  tail : ℕ
  elements : ℕ

/-- The distances and the variables of a kernel, whose memory has the cells `κ`. -/
structure State (n : ℕ) (κ : Type) where
  distance : Fin n → ℕ
  mem : κ → Option (Fin n)
  head : ℕ
  tail : ℕ
  elements : ℕ
  totalDistance : ℕ
  assigned : List (Fin n × ℕ)
  pushes : List Push

def load {n : ℕ} {κ : Type} (distance : Fin n → ℕ) (mem : κ → Option (Fin n)) : State n κ :=
  ⟨distance, mem, 0, 0, 0, 0, [], []⟩

section
variable {a : Arch} (g : Graph a) {κ : Type} [DecidableEq κ] (queue : ℕ → κ)

def queueInit (s : State g.nodes κ) : State g.nodes κ := { s with head := 0, tail := 0, elements := 0 }

def queuePush (s : State g.nodes κ) (x : Fin g.nodes) : State g.nodes κ :=
  { s with
    mem := Function.update s.mem (queue s.head) (some x)
    head := if g.nodes ≤ s.head + 1 then 0 else s.head + 1
    elements := s.elements + 1
    pushes := s.pushes ++ [⟨s.head, s.tail, s.elements⟩] }

def queuePop (s : State g.nodes κ) : State g.nodes κ :=
  { s with
    tail := if g.nodes ≤ s.tail + 1 then 0 else s.tail + 1
    elements := s.elements - 1 }

def queueTop (s : State g.nodes κ) : Option (Fin g.nodes) := s.mem (queue s.tail)

/-- A successor `w`, which gets the distance `d` if it has none. -/
def visit (d : ℕ) (s : State g.nodes κ) (w : Fin g.nodes) : State g.nodes κ :=
  if s.distance w = nc a then
    queuePush g queue { s with
      distance := Function.update s.distance w d
      totalDistance := a.ulong (s.totalDistance + d)
      assigned := s.assigned ++ [(w, d)] } w
  else s

/-! ## `kernel_default` and the golden model -/

def expand (v : Fin g.nodes) (s : State g.nodes κ) : State g.nodes κ :=
  (g.successors v).foldl (fun s w => visit g queue (a.ulong (s.distance v + 1)) s w) s

/-- The `while` loop. A round pops a node, so that `fuel` is one more than the number of nodes. -/
def bfs : ℕ → State g.nodes κ → Option (State g.nodes κ)
  | 0, _ => none
  | fuel + 1, s =>
    if s.elements = 0 then some s
    else (queueTop g queue s).bind fun v => bfs fuel (expand g queue v (queuePop g s))

def begin (x : Fin g.nodes) (s : State g.nodes κ) : State g.nodes κ :=
  queuePush g queue (queueInit g { s with distance := Function.update s.distance x 0 }) x

def iteration (x : Fin g.nodes) (s : State g.nodes κ) : Option (State g.nodes κ) :=
  bfs g queue (g.nodes + 1) (begin g queue x s)

def iterations {S : Type} {n : ℕ} (body : Fin n → S → Option S) : ℕ → S → Option S
  | 0, s => some s
  | k + 1, s => (iterations body k s).bind fun s => if h : k < n then body ⟨k, h⟩ s else none

def kernelDefault (maxIterations : BitVec 32) (distance : Fin g.nodes → ℕ)
    (mem : κ → Option (Fin g.nodes)) : Option (State g.nodes κ) :=
  iterations (iteration g queue) maxIterations.toNat (load distance mem)

/-- `run_golden`, whose `x` is an `int`. -/
def runGolden (maxIterations : BitVec 32) (distance : Fin g.nodes → ℕ)
    (mem : κ → Option (Fin g.nodes)) : Option (State g.nodes κ) :=
  if maxIterations.toNat < 2 ^ 31 then
    iterations (iteration g queue) maxIterations.toNat (load distance mem)
  else none

end

/-! ## `kernel_best` -/

inductive Region
  | queue
  | first
  | second
  deriving DecidableEq

structure Best (n : ℕ) (κ : Type) extends State n κ where
  numPongs : ℤ
  currDistance : ℕ
  succPing : Region
  succPong : Region
  /-- Every `pim_assert` so far held. -/
  asserted : Bool
  /-- The numbers of bytes of the DMA requests. -/
  fetched : List ℕ

def toInt (n : ℕ) : ℤ := (n : ℤ).bmod (2 ^ 32)

/-- What a DMA read of `ws` leaves, from the cell `c` of a buffer on. -/
def store {α κ : Type} [DecidableEq κ] (buffer : ℕ → κ) : ℕ → List α → (κ → Option α) → κ → Option α
  | _, [], mem => mem
  | c, w :: ws, mem => store buffer (c + 1) ws (Function.update mem (buffer c) (some w))

def maxXferSize : ℕ := 512

section
variable {a : Arch} (g : Graph a) {κ : Type} [DecidableEq κ] (place : Region → ℕ → κ)

/-- The loop over `succ_ping`, with `m` of its nodes left from `c` on. -/
def drain : ℕ → ℕ → Best g.nodes κ → Option (Best g.nodes κ)
  | 0, _, s => some s
  | m + 1, c, s =>
    (s.mem (place s.succPing c)).bind fun w =>
      drain m (c + 1) { s with
        toState := visit g (place .queue) (a.ulong ((s.currDistance + 1) % 2 ^ 32)) s.toState w }

/-- `DMA_REQUEST` of the successors of `v`. -/
def request (v : Fin g.nodes) (s : Best g.nodes κ) : Best g.nodes κ :=
  if g.outDegree v ≠ 0 then { s with fetched := s.fetched ++ [g.outDegree v * a.bytes] } else s

/-- `DMA_WAIT` and the swap of the buffers; `v` may be `NULL`. -/
def swap (v : Option (Fin g.nodes)) (s : Best g.nodes κ) : Best g.nodes κ :=
  match v with
  | none => s
  | some v =>
    if g.outDegree v ≠ 0 then
      { s with
        numPongs := toInt (g.outDegree v)
        currDistance := s.distance v % 2 ^ 32
        mem := store (place s.succPong) 0 (g.successors v) s.mem
        succPing := s.succPong
        succPong := s.succPing }
    else s

/-- From `MY_LABEL` to the end of the loop body. -/
def myLabel (v : Option (Fin g.nodes)) (s : Best g.nodes κ) : Option (Best g.nodes κ) :=
  if s.numPongs ≠ -1 then
    (drain g place (s.numPongs % (2 ^ a.bits : ℕ)).toNat 0 s).map fun s =>
      swap g place v { s with numPongs := -1 }
  else some (swap g place v s)

/-- The `while` loop and the `goto` behind it. A round pops a node or empties a buffer. -/
def pingPong : ℕ → Best g.nodes κ → Option (Best g.nodes κ)
  | 0, _ => none
  | fuel + 1, s =>
    if s.elements ≠ 0 then
      let s := { s with asserted := s.asserted && decide (s.elements < 2 * maxXferSize) }
      (queueTop g (place .queue) s.toState).bind fun v =>
        (myLabel g place (some v) (request g v { s with toState := queuePop g s.toState })).bind
          (pingPong fuel)
    else if s.numPongs ≠ -1 then (myLabel g place none s).bind (pingPong fuel)
    else some s

def bestIteration (x : Fin g.nodes) (s : Best g.nodes κ) : Option (Best g.nodes κ) :=
  pingPong g place (2 * (g.nodes + 1)) { s with
    toState := begin g (place .queue) x s.toState
    currDistance := 0
    numPongs := -1 }

def kernelBest (maxIterations : BitVec 32) (distance : Fin g.nodes → ℕ)
    (mem : κ → Option (Fin g.nodes)) : Option (Best g.nodes κ) :=
  iterations (bestIteration g place) maxIterations.toNat
    ⟨load distance mem, -1, 0, .first, .second, true, []⟩

end

end SmcPim.Bfs
