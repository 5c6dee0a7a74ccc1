import SmcPim.Host.Region
import SmcPim.Lib.Engine
import SmcPim.Task.Pages

/-!
# The random sparse graph

`create_graph` of `offload_sgraph/utils.hh` for its four kernels, and the data that `main` adds to
the task. A computation that stops keeps the state it stopped in. The values that
`reset_graph_stats` writes are left out.
-/

namespace SmcPim.Sgraph

open Stops
open Host (Stop)

inductive Kernel
  | teenageFollower
  | pageRank
  | bfs
  | bellmanFord
  deriving DecidableEq, Repr

def Kernel.step (k : Kernel) : ℕ := if k = .bfs then 7 else 1

/-- `sizeof(node)`: the fields of the kernel, and three words. -/
def Kernel.nodeSize (a : Arch) : Kernel → ℕ
  | .teenageFollower => 5 * a.bytes
  | .pageRank => 8 + 3 * a.bytes
  | .bfs => 4 * a.bytes
  | .bellmanFord => 5 * a.bytes

structure Params where
  host : Host.Config
  kernel : Kernel
  nodes : ℕ
  maxOutdegree : ℕ
  maxWeight : ℕ
  /-- What `QUEUE_SIZE` adds; the scenario of the search exports it. -/
  queueSize : ℕ
  weight_pos : 0 < maxWeight
  queue_le : kernel = .bfs → nodes * host.arch.bytes ≤ queueSize

def Params.nodeSize (p : Params) : ℕ := p.kernel.nodeSize p.host.arch

def Params.requiredMemSize (p : Params) : ℕ :=
  p.nodes * p.nodeSize + p.nodes * p.maxOutdegree * p.host.arch.bytes + p.nodes * p.maxOutdegree * p.host.arch.bytes +
    p.queueSize

/-- A node with the lists that its pointers lead to; the null pointer is 0. -/
structure Node where
  ID : ℕ
  outDegree : ℕ
  successors : ℕ
  succs : List ℕ
  teenager : Bool
  weights : ℕ
  weightList : List ℕ
  deriving DecidableEq, Repr

structure Build where
  drawn : ℕ
  region : Host.Region
  nodesPtr : ℕ
  queue : ℕ
  nodes : List Node
  successorsSize : ℕ
  weightsSize : ℕ
  deriving DecidableEq, Repr

def Build.allocate (size : ℕ) (s : Build) : ℕ × Build :=
  let (addr, region) := s.region.allocateRegion size
  (addr, { s with region })

section
variable (p : Params) (rand : ℕ → ℕ)

def Build.randMod (n : ℕ) (s : Build) : Except (Stop × Build) (ℕ × Build) :=
  let s' := { s with drawn := s.drawn + 1 }
  if n = 0 then .error (.divisionByZero, s') else .ok (rand s.drawn % n, s')

/-- `while (succ==i)`. There are `NODES` nodes in memory, so that the sum does not overflow. -/
def avoid (i : ℕ) : ℕ → ℕ × Build → Except (Stop × Build) (ℕ × Build)
  | 0, (_, s) => .error (.outOfFuel, s)
  | fuel + 1, (succ, s) =>
    if succ = i then do
      let (d, s) ← s.randMod rand (p.nodes / 500)
      let succ := succ + (d + 1)
      avoid i fuel (if succ ≥ p.nodes then succ - p.nodes else succ, s)
    else .ok (succ, s)

def addSuccessor (fuel i _j : ℕ) (x : ℕ × List ℕ × Build) : Except (Stop × Build) (ℕ × List ℕ × Build) := do
  let (succ, s) ← avoid p rand i fuel (x.1, x.2.2)
  .ok (succ, x.2.1 ++ [succ], s)

def drawDegree (i : ℕ) (s : Build) : Except (Stop × Build) (ℕ × Build) :=
  if i % p.kernel.step = 0 then s.randMod rand p.maxOutdegree else .ok (0, s)

/-- `NULL` for a node without successors. -/
def allocateSuccessors (numSucc : ℕ) (s : Build) : ℕ × Build :=
  if numSucc = 0 then (0, s)
  else
    let (addr, s) := s.allocate (numSucc * p.host.arch.bytes)
    (addr, { s with successorsSize := s.successorsSize + numSucc * p.host.arch.bytes })

def drawTeenager (s : Build) : Bool × Build :=
  if p.kernel = .teenageFollower then (rand s.drawn % 2 != 0, { s with drawn := s.drawn + 1 }) else (false, s)

def createNode (fuel i : ℕ) (s : Build) : Except (Stop × Build) Build := do
  let (numSucc, s) ← drawDegree p rand i s
  let (successors, s) := allocateSuccessors p numSucc s
  let (succ, s) ← s.randMod rand p.nodes
  let (_, succs, s) ← loopE (addSuccessor p rand fuel i) numSucc (succ, [], s)
  let (teenager, s) := drawTeenager p rand s
  let node := { ID := i, outDegree := numSucc, successors, succs, teenager, weights := 0, weightList := [] }
  .ok { s with nodes := s.nodes ++ [node] }

def createWeights (i : ℕ) (s : Build) : Build :=
  match s.nodes[i]? with
  | none => s
  | some node =>
    if node.outDegree = 0 then s
    else
      let (weights, s) := s.allocate (node.outDegree * p.host.arch.bytes)
      let weightList := (List.range node.outDegree).map fun j => rand (s.drawn + j) % p.maxWeight + 1
      { s with
        drawn := s.drawn + node.outDegree
        weightsSize := s.weightsSize + node.outDegree * p.host.arch.bytes
        nodes := s.nodes.set i { node with weights, weightList } }

def start : Build :=
  let s : Build :=
    { drawn := 0, region := p.host.initRegion, nodesPtr := 0, queue := 0, nodes := [], successorsSize := 0,
      weightsSize := 0 }
  let (nodesPtr, s) := s.allocate (p.nodes * p.nodeSize)
  let s := { s with nodesPtr }
  if p.kernel = .bfs then
    let (queue, s) := s.allocate (p.nodes * p.host.arch.bytes)
    { s with queue }
  else s

def createNodes (fuel : ℕ) : Except (Stop × Build) Build := loopE (createNode p rand fuel) p.nodes (start p)

def createGraph (fuel : ℕ) : Except (Stop × Build) Build := do
  let s ← createNodes p rand fuel
  if p.kernel = .bellmanFord then .ok (loop (createWeights p rand) p.nodes s) else .ok s

end

def Build.successorsList (s : Build) : ℕ := (s.nodes[0]?.map (·.successors)).getD 0

def Build.weightsList (s : Build) : ℕ := (s.nodes[0]?.map (·.weights)).getD 0

/-- The calls of `addData` in `main`. -/
def taskData (p : Params) (s : Build) : List Task.PIMData :=
  [⟨s.nodesPtr, p.nodes * p.nodeSize, 0⟩, ⟨s.successorsList, s.successorsSize, 1⟩] ++
    (if p.kernel = .bfs then [⟨s.queue, p.nodes * p.host.arch.bytes, 4⟩] else []) ++
    (if p.kernel = .bellmanFord then [⟨s.weightsList, s.weightsSize, 4⟩] else [])

/-- `vpages` after the task was offloaded. -/
def pinned (pageShift : ℕ) (p : Params) (s : Build) : List Task.PIMPage :=
  ((Task.addAll p.host.arch (taskData p s)).updatePages p.host.arch pageShift).vpages

end SmcPim.Sgraph
