import SmcPim.Host.Region
import SmcPim.Lib.Engine

/-!
# Graphs of components

The first loop of `create_topology` in `host_only/create_topology.h`. `NODES` nodes fit in memory, so that no sum of indices
overflows. `rand` gives the value of each call.
-/

namespace SmcPim.Topology

open Stops
open Host (Stop)

structure Params where
  nodes : ℕ
  numComponents : ℕ
  maxComponentOutdegree : ℕ
  nodes_pos : 0 < nodes
  components_pos : 0 < numComponents
  outdegree_pos : 0 < maxComponentOutdegree

structure Node where
  ID : ℕ
  outDegree : ℕ
  successors : List ℕ
  deriving DecidableEq, Repr

structure Component where
  start : ℕ
  size : ℕ
  deriving DecidableEq, Repr

structure Build where
  drawn : ℕ
  start : ℕ
  remaining : ℕ
  nodes : List Node
  components : List Component
  deriving DecidableEq, Repr

section
variable (p : Params) (rand : ℕ → ℕ)

/-- The macro calls `rand` again for the smaller value. -/
def drawDegree (degree size : ℕ) (s : Build) : ℕ × Build :=
  if rand s.drawn % (degree + 1) < size - 1 then (rand (s.drawn + 1) % (degree + 1), { s with drawn := s.drawn + 2 })
  else (size - 1, { s with drawn := s.drawn + 1 })

/-- The three tests before a successor is stored. -/
def findSuccessor (c : Component) (n succ : ℕ) : ℕ :=
  let succ := if succ = n then succ + 1 else succ
  let succ := if succ ≥ c.start + c.size then c.start else succ
  if succ = n then succ + 1 else succ

def addSuccessor (c : Component) (n _j : ℕ) (x : ℕ × List ℕ) : ℕ × List ℕ :=
  let succ := findSuccessor c n x.1
  (succ + 1, x.2 ++ [succ])

/-- One turn of the loop over the nodes of a component, which has at least one. -/
def createNode (c : Component) (degree i : ℕ) (s : Build) : Build :=
  let n := c.start + i
  let (numSucc, s) := drawDegree rand degree c.size s
  let succ := c.start + rand s.drawn % c.size
  let (_, successors) := loop (addSuccessor c n) numSucc (succ, [])
  { s with drawn := s.drawn + 1, nodes := s.nodes ++ [⟨n, numSucc, successors⟩] }

def Build.randMod (n : ℕ) (s : Build) : Except (Stop × Build) (ℕ × Build) :=
  let s' := { s with drawn := s.drawn + 1 }
  if n = 0 then .error (.divisionByZero, s') else .ok (rand s.drawn % n, s')

def componentSize (c : ℕ) (s : Build) : Except (Stop × Build) (ℕ × Build) :=
  if c = p.numComponents - 1 then .ok (s.remaining, s)
  else if p.numComponents ≥ 3 then do
    let (r, s) ← s.randMod rand (s.remaining / (p.numComponents / 3))
    .ok (r + 1, s)
  else do
    let (r, s) ← s.randMod rand (s.remaining / p.numComponents)
    .ok (r + 1, s)

def componentDegree (size : ℕ) : ℕ := if p.maxComponentOutdegree < size then p.maxComponentOutdegree else size

def fillComponent (size : ℕ) (s : Build) : Build :=
  let component : Component := ⟨s.start, size⟩
  let s := loop (createNode rand component (componentDegree p size)) size s
  { s with
    remaining := s.remaining - size
    start := s.start + size
    components := s.components ++ [component] }

def createComponent (c : ℕ) (s : Build) : Except (Stop × Build) Build :=
  if s.remaining = 0 then .ok s
  else do
    let (size, s) ← componentSize p rand c s
    .ok (fillComponent p rand size s)

def init : Build := { drawn := 0, start := 0, remaining := p.nodes, nodes := [], components := [] }

/-- `create_topology` up to the global links. -/
def createTopology : Except (Stop × Build) Build := loopE (createComponent p rand) p.numComponents (init p)

end

structure Node.Sound (c : Component) (n : ℕ) (node : Node) : Prop where
  ID : node.ID = n
  outDegree : node.outDegree = node.successors.length
  nodup : node.successors.Nodup
  inside : ∀ m ∈ node.successors, m ≠ n ∧ m ∈ List.range' c.start c.size

/-- The components tile the nodes, and every node is sound. -/
structure WellFormed (p : Params) (s : Build) : Prop where
  nonempty : ∀ c ∈ s.components, 0 < c.size
  tiles : s.components.flatMap (fun c => List.range' c.start c.size) = List.range p.nodes
  nodes : s.nodes.length = p.nodes
  sound : ∀ c ∈ s.components, ∀ n ∈ List.range' c.start c.size, ∃ node, s.nodes[n]? = some node ∧ node.Sound c n

end SmcPim.Topology
