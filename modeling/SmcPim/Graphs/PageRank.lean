import SmcPim.Graphs.Walks

/-!
# The second loop of PageRank

From `SW/PIM/kernels/sgraph_page_rank.c`, and `run_coprocessor_32b` in
`GEM5/gem5/src/mem/ethz_pim_memory.cc`. The update of a node is any function on node records here.
-/

namespace SmcPim.Graphs.PageRank

open Engine

structure Params (ν : Type) where
  nodes : ℕ
  nodesCount : ℕ
  update : ν → ν

variable {ν : Type}

section
variable (p : Params ν)

def updateNode (i : ℕ) (x : (ℤ → ν) × List ν) : (ℤ → ν) × List ν :=
  (Function.update x.1 i (p.update (x.1 i)), x.2 ++ [x.1 i])

def defaultLoop (x : (ℤ → ν) × List ν) : (ℤ → ν) × List ν := loop (updateNode p) p.nodes x

/-! ## `kernel_dma2` and `kernel_best` -/

/-- `nodes_R`, `nodes_P`, `nodes_W`, `rr` and `first`. -/
structure State (ν : Type) where
  nodesR : ℕ
  nodesP : ℕ
  nodesW : ℕ
  rr : ℕ
  first : Bool
  machine : Machine (World ν (List ν)) DmaRes Transfer

def State.rotate (s : State ν) : State ν := { s with nodesW := s.nodesP, nodesP := s.nodesR, nodesR := s.nodesW }

def updateRecord (k j : ℕ) (w : World ν (List ν)) : World ν (List ν) :=
  { w with
    nodeBuf := Function.update w.nodeBuf k (Function.update (w.nodeBuf k) j (p.update (w.nodeBuf k j)))
    acc := w.acc ++ [w.nodeBuf k j] }

variable (ends : ℕ → List ℕ)

def process (j : ℕ) (s : State ν) : State ν :=
  { s with machine := (engine ends).act (fun d => d.buf == s.nodesP) (updateRecord p s.nodesP j) s.machine }

def turn (i : ℕ) (s : State ν) : State ν :=
  let E := engine ends
  let s := { s with machine := E.wait [.res0, .res1] s.machine }.rotate
  let m := E.request .res0 (.readNodes (i + p.nodesCount) p.nodesCount s.nodesR) s.machine
  if !s.first then { s with machine := E.request .res1 (.writeNodes (i - p.nodesCount) p.nodesCount s.nodesW) m }
  else { s with first := false, machine := m }

def secondNode (i : ℕ) (s : State ν) : State ν :=
  let s := if s.rr = p.nodesCount then { turn p ends i s with rr := 0 } else s
  { process p ends s.rr s with rr := s.rr + 1 }

def secondStart (s : State ν) : State ν :=
  let E := engine ends
  let m := E.wait [.res0] s.machine
  { s with rr := p.nodesCount, first := true, machine := E.request .res0 (.readNodes 0 p.nodesCount s.nodesR) m }

def secondEnd (s : State ν) : State ν :=
  let E := engine ends
  let s := s.rotate
  let m := E.request .res1 (.writeNodes (p.nodes - s.rr) s.rr s.nodesW) s.machine
  { s with machine := E.wait [.res0, .res1] m }

def secondLoop (s : State ν) : State ν := secondEnd p ends (loop (secondNode p ends) p.nodes (secondStart p ends s))

/-- The buffers of `kernel_dma2` and of `kernel_best`. -/
def dma2Buffers (m : Machine (World ν (List ν)) DmaRes Transfer) : State ν := ⟨2, 3, 4, 0, true, m⟩
def bestBuffers (m : Machine (World ν (List ν)) DmaRes Transfer) : State ν := ⟨3, 4, 5, 0, true, m⟩

def Params.rounds : ℕ := (p.nodes + p.nodesCount - 1) / p.nodesCount

/-- `CMD_CUSTOM_PR1` with `SREG[1] = nodes_count`. -/
def coprocessorChunk (k : ℕ) (s : State ν) : State ν :=
  loop (process p ends) p.nodesCount (turn p ends (k * p.nodesCount) s)

def coprocessorLoop (s : State ν) : State ν :=
  let s := loop (coprocessorChunk p ends) p.rounds (secondStart p ends s)
  secondEnd p ends { s with machine := (engine ends).wait [.res1] s.machine }

end

end SmcPim.Graphs.PageRank
